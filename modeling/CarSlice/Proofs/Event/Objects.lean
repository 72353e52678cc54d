import CarSlice.Proofs.Json

/-!
# Events as objects

What an event tells a log is said here as a row of keys and values: its time, severity and category,
its identifier and message unless they are empty, and its fields in their order.  A field tells its
value only if the value is plain (`EventField.disclosed`).  The JSON of an event is this row,
written as an object (`toJson_eq_objectText`), so a reader gets exactly the row back
(`toJson_reads_as_pairs`).
-/

namespace CarSlice

/-- What a field tells. -/
def EventField.disclosed (f : EventField) : Json.Scalar :=
  match f.privacy with
  | .plain => if f.numeric then .bare f.value else .string f.value
  | .redacted => .string (utf8 "[REDACTED]")
  | .hashed =>
    .string (utf8 "sha256:" ++ if f.value = [] then [] else (hex (Sha2.sha256 f.value)).take 16)

namespace Event

/-- A text under a key, unless it is empty. -/
def pairUnlessEmpty (key : String) (s : Text) : List (Text × Json.Scalar) :=
  if s = [] then [] else [(utf8 key, .string s)]

/-- What an event tells, in order. -/
def pairs (e : Event) (timestamp : Text) : List (Text × Json.Scalar) :=
  (utf8 "ts", .string timestamp) :: (utf8 "severity", .string e.severity.name) ::
    (utf8 "category", .string e.category.name) ::
    (pairUnlessEmpty "event_id" e.id ++ pairUnlessEmpty "message" e.message ++
      e.fields.map fun f => (f.key, f.disclosed))

/-- The numbers among the values that an event tells are numbers or literals. -/
def HasProperNumbers (e : Event) : Prop :=
  ∀ f ∈ e.fields, f.numeric = true → f.privacy = .plain → Json.isBare f.value = true

end Event

theorem EventField.json_eq_written (f : EventField) : f.json = f.disclosed.written := by
  obtain ⟨key, value, privacy, numeric⟩ := f
  cases privacy with
  | plain => cases numeric <;> rfl
  | redacted => cases numeric <;> rfl
  | hashed =>
    have hfingerprint : (fingerprint value).take 16 =
        if value = [] then [] else (hex (Sha2.sha256 value)).take 16 := by
      cases value <;> rfl
    cases numeric <;>
      simp [EventField.json, EventField.shown, EventField.disclosed, Json.Scalar.written,
        hfingerprint]

namespace Event

theorem quote_name (e : Event) :
    Json.quote e.severity.name = ascii '"' :: e.severity.name ++ [ascii '"'] ∧
      Json.quote e.category.name = ascii '"' :: e.category.name ++ [ascii '"'] := by
  constructor
  · cases e.severity <;> rfl
  · cases e.category <;> rfl

theorem map_pairUnlessEmpty (key : String) (s : Text) :
    (pairUnlessEmpty key s).map Json.memberText =
      if s.isEmpty then [] else [Json.member (utf8 key) (Json.quote s)] := by
  cases s <;> rfl

/-- The members of an event are its pairs. -/
theorem members_eq_map_pairs (e : Event) (timestamp : Text) :
    e.members timestamp = (e.pairs timestamp).map Json.memberText := by
  have hfields : e.fields.map (fun f => Json.member f.key f.json) =
      (e.fields.map fun f => (f.key, f.disclosed)).map Json.memberText := by
    rw [List.map_map]
    exact List.map_congr_left fun f _ => by
      rw [f.json_eq_written]
      rfl
  rw [members, headMembers, hfields, ← e.quote_name.1, ← e.quote_name.2, pairs]
  simp only [List.map_cons, List.map_append, map_pairUnlessEmpty]
  simp [Json.memberText, Json.Scalar.written]

theorem toJson_eq_objectText (e : Event) (timestamp : Text) :
    e.toJson timestamp = Json.objectText (e.pairs timestamp) := by
  rw [toJson, members_eq_map_pairs, Json.objectText]

theorem proper_of_mem_pairs {e : Event} (h : e.HasProperNumbers) (timestamp : Text) :
    ∀ m ∈ e.pairs timestamp, m.2.IsProper := by
  have hunlessEmpty : ∀ key s, ∀ m ∈ pairUnlessEmpty key s, m.2.IsProper := by
    intro key s m hm
    unfold pairUnlessEmpty at hm
    split at hm
    · cases hm
    · cases List.mem_singleton.1 hm
      trivial
  have hfield : ∀ f ∈ e.fields, f.disclosed.IsProper := by
    intro f hf
    have hnumber := h f hf
    unfold EventField.disclosed
    split
    · split
      · next hplain hnumeric => exact hnumber hnumeric hplain
      · trivial
    · trivial
    · trivial
  simp only [pairs, List.forall_mem_cons, List.forall_mem_append, List.forall_mem_map]
  exact ⟨trivial, trivial, trivial, ⟨hunlessEmpty _ _, hunlessEmpty _ _⟩, hfield⟩

/-- The JSON of an event, at every time and with any bytes in its identifier, message, keys and
values, holds no control byte, so it is one line.  It reads as one object, whose members are exactly
what the event tells, in this order. -/
theorem toJson_reads_as_pairs (e : Event) (timestamp : Text) (h : e.HasProperNumbers) :
    (∀ b ∈ e.toJson timestamp, 0x20 ≤ b) ∧
      Json.read? (e.toJson timestamp) =
        some (.object ((e.pairs timestamp).map fun m => (m.1, .scalar m.2))) := by
  have hproper := proper_of_mem_pairs h timestamp
  rw [toJson_eq_objectText]
  exact ⟨fun _ hb => Json.le_of_mem_objectText hproper hb, Json.read?_objectText hproper⟩

/-- An event whose identifier tries to end its string and to begin a line, with a number, a secret
that claims to be a number, and a path that is shown as its hash. -/
theorem toJson_reads_as_pairs_forging :
    let e : Event :=
      { severity := .warning
        id := utf8 "a\",\"ts\":\"\n"
        fields :=
          [{ key := utf8 "n", value := utf8 "-0.5e+3", numeric := true },
            { key := utf8 "secret", value := utf8 "1,2", privacy := .redacted, numeric := true },
            { key := utf8 "path", value := utf8 "/srv", privacy := .hashed }] }
    e.HasProperNumbers ∧ (∀ b ∈ e.toJson (utf8 "now"), 0x20 ≤ b) ∧
      Json.read? (e.toJson (utf8 "now")) = some (.object
        [(utf8 "ts", .scalar (.string (utf8 "now"))),
          (utf8 "severity", .scalar (.string (utf8 "warning"))),
          (utf8 "category", .scalar (.string (utf8 "diagnostics"))),
          (utf8 "event_id", .scalar (.string (utf8 "a\",\"ts\":\"\n"))),
          (utf8 "n", .scalar (.bare (utf8 "-0.5e+3"))),
          (utf8 "secret", .scalar (.string (utf8 "[REDACTED]"))),
          (utf8 "path", .scalar (.string
            (utf8 "sha256:" ++ (hex (Sha2.sha256 (utf8 "/srv"))).take 16)))]) := by
  intro e
  have hproper : e.HasProperNumbers := by
    intro f hf hnumeric hplain
    simp only [e, List.mem_cons, List.not_mem_nil, or_false] at hf
    rcases hf with rfl | rfl | rfl
    · rfl
    · cases hplain
    · cases hplain
  exact ⟨hproper, toJson_reads_as_pairs e (utf8 "now") hproper⟩

end Event

end CarSlice
