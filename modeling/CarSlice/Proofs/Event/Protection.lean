import CarSlice.Proofs.Event.Lines

/-!
# Protected values

Two events are alike if they differ at most in values that a log must not tell: the values of
redacted fields, and those of hashed fields whose hashes begin alike (`Event.Alike`).

* Such events tell the same (`Event.Alike.pairs_eq`), and the notices for them are one notice.  So
  no reading of the clock makes the log of one differ from the log of the other
  (`Event.Alike.log_eq`).
* Between two runs the clock goes on.  `LogLine.SameButTime` relates lines that are the same behind
  their timestamps.  The clock cannot be what makes a line too long, since all timestamps are of one
  length, so the log of one event differs between two runs in the timestamps only
  (`Logger.log_at_other_times`).
* `Logger.log_tells_no_protected_value` puts these together.
-/

namespace CarSlice

/-! ## Events that are alike -/

/-- Two fields that differ at most in a value that a log must not tell. -/
inductive EventField.Alike : EventField → EventField → Prop where
  | refl (f : EventField) : Alike f f
  | redacted (key : Text) (numeric : Bool) (value value' : Text) :
      Alike { key, value, privacy := .redacted, numeric }
        { key, value := value', privacy := .redacted, numeric }
  | hashed (key : Text) (numeric : Bool) {value value' : Text} (hvalue : value ≠ [])
      (hvalue' : value' ≠ [])
      (hash : (hex (Sha2.sha256 value)).take 16 = (hex (Sha2.sha256 value')).take 16) :
      Alike { key, value, privacy := .hashed, numeric }
        { key, value := value', privacy := .hashed, numeric }

/-- What a log may tell of fields that are alike is one pair. -/
theorem EventField.Alike.pair_eq {f f' : EventField} (h : f.Alike f') :
    (f.key, f.disclosed) = (f'.key, f'.disclosed) := by
  cases h with
  | refl => rfl
  | redacted => rfl
  | hashed key numeric hvalue hvalue' hash =>
    simp only [disclosed, if_neg hvalue, if_neg hvalue', hash]

namespace Event

/-- Two events that differ at most in values that a log must not tell. -/
structure Alike (e e' : Event) : Prop where
  severity : e.severity = e'.severity
  category : e.category = e'.category
  id : e.id = e'.id
  message : e.message = e'.message
  fields : List.Forall₂ EventField.Alike e.fields e'.fields

variable {e e' : Event}

theorem Alike.pairs_eq (h : e.Alike e') (timestamp : Text) :
    e.pairs timestamp = e'.pairs timestamp := by
  have hfields : (e.fields.map fun f => (f.key, f.disclosed)) =
      e'.fields.map fun f => (f.key, f.disclosed) := by
    have hpairs := h.fields
    generalize e.fields = fields, e'.fields = fields' at hpairs
    induction hpairs with
    | nil => rfl
    | cons hfield _ ih => rw [List.map_cons, List.map_cons, hfield.pair_eq, ih]
  rw [pairs, pairs, h.severity, h.category, h.id, h.message, hfields]

theorem Alike.toJson_eq (h : e.Alike e') (timestamp : Text) :
    e.toJson timestamp = e'.toJson timestamp := by
  rw [toJson_eq_objectText, toJson_eq_objectText, h.pairs_eq]

/-- The notices for events that are alike are one notice, since it keeps no fields. -/
theorem Alike.truncated_eq (h : e.Alike e') (length : Nat) :
    e.truncated length = e'.truncated length := by
  rw [truncated, truncated, h.severity, h.category, h.id]

theorem Alike.log_eq (h : e.Alike e') (l : Logger) (timestamp later : Text) :
    l.log timestamp later e = l.log timestamp later e' := by
  simp only [Logger.log, logLine, h.toJson_eq, h.truncated_eq, h.severity]

end Event

/-! ## Lines that differ in their timestamps -/

/-- A line that begins with a time. -/
def stamped (micros : Nat) (rest : Text) : Text :=
  utf8 "\x7b\"ts\":" ++ Json.quote (Timestamp.toText micros) ++ rest

/-- Two lines that are the same behind their timestamps, or the same. -/
inductive LogLine.SameButTime : LogLine → LogLine → Prop where
  | console (micros micros' : Nat) (rest : Text) :
      SameButTime (.console (stamped micros rest)) (.console (stamped micros' rest))
  | file (micros micros' : Nat) (rest : Text) :
      SameButTime (.file (stamped micros rest)) (.file (stamped micros' rest))
  | complaint : SameButTime (.console Logger.complaint) (.console Logger.complaint)

namespace Event

/-- What follows the timestamp does not depend on it. -/
theorem exists_toJson_eq_stamped (e : Event) :
    ∃ rest, ∀ micros, e.toJson (Timestamp.toText micros) = stamped micros rest := by
  refine ⟨((e.pairs []).tail.flatMap fun m => ascii ',' :: Json.memberText m) ++ [ascii '}'], ?_⟩
  intro micros
  have hpairs : e.pairs (Timestamp.toText micros) =
      (utf8 "ts", .string (Timestamp.toText micros)) :: (e.pairs []).tail := rfl
  have hopening : ascii '{' :: Json.memberText (utf8 "ts", .string (Timestamp.toText micros)) =
      utf8 "\x7b\"ts\":" ++ Json.quote (Timestamp.toText micros) := rfl
  rw [toJson_eq_objectText, hpairs, Json.objectText, List.map_cons, Json.intercalate_cons,
    List.flatMap_map, stamped, ← hopening, List.cons_append, List.cons_append, List.append_assoc]

theorem length_toJson_toText (e : Event) {micros : Nat} (h : Timestamp.IsReading micros) :
    (e.toJson (Timestamp.toText micros)).length = (e.toJson (Timestamp.toText 0)).length := by
  have hzero : Timestamp.IsReading 0 := by decide
  rw [length_toJson, length_toJson, Timestamp.escape_toText, Timestamp.escape_toText,
    Timestamp.length_toText h, Timestamp.length_toText hzero]

/-- The line of one event is the same at all times but for the timestamp. -/
theorem exists_logLine_eq_stamped (e : Event) :
    ∃ rest, ∀ micros later, Timestamp.IsReading micros →
      ∃ shown, e.logLine (Timestamp.toText micros) (Timestamp.toText later) =
        stamped shown rest := by
  by_cases hlong : maxLogLine < (e.toJson (Timestamp.toText 0)).length
  · obtain ⟨rest, hrest⟩ :=
      (e.truncated (e.toJson (Timestamp.toText 0)).length).exists_toJson_eq_stamped
    refine ⟨rest, fun micros later hmicros => ⟨later, ?_⟩⟩
    simp only [logLine, e.length_toJson_toText hmicros]
    rw [if_pos hlong, hrest]
  · obtain ⟨rest, hrest⟩ := e.exists_toJson_eq_stamped
    refine ⟨rest, fun micros later hmicros => ⟨micros, ?_⟩⟩
    simp only [logLine, e.length_toJson_toText hmicros]
    rw [if_neg hlong, hrest]

end Event

/-! ## The log -/

namespace Logger

theorem writeLine_stamped (l : Logger) (micros micros' : Nat) (rest : Text) :
    List.Forall₂ LogLine.SameButTime (l.writeLine (stamped micros rest)).1
        (l.writeLine (stamped micros' rest)).1 ∧
      (l.writeLine (stamped micros rest)).2 = (l.writeLine (stamped micros' rest)).2 := by
  unfold writeLine
  split
  · exact ⟨.cons (.console _ _ _) .nil, rfl⟩
  · split_ifs
    · exact ⟨.cons (.file _ _ _) .nil, rfl⟩
    · exact ⟨.cons (.console _ _ _) .nil, rfl⟩
    · exact ⟨.cons .complaint (.cons (.console _ _ _) .nil), rfl⟩

/-- One event logged at other times. -/
theorem log_at_other_times (l : Logger) (e : Event) {micros micros' : Nat} (later later' : Nat)
    (h : Timestamp.IsReading micros) (h' : Timestamp.IsReading micros') :
    let first := l.log (Timestamp.toText micros) (Timestamp.toText later) e
    let second := l.log (Timestamp.toText micros') (Timestamp.toText later') e
    List.Forall₂ LogLine.SameButTime first.1 second.1 ∧ first.2 = second.2 := by
  obtain ⟨rest, hrest⟩ := e.exists_logLine_eq_stamped
  obtain ⟨shown, hshown⟩ := hrest micros later h
  obtain ⟨shown', hshown'⟩ := hrest micros' later' h'
  simp only [log]
  split_ifs
  · exact ⟨.nil, rfl⟩
  · rw [hshown, hshown']
    exact l.writeLine_stamped shown shown' rest

/-- The log does not tell two events apart that differ in protected values only: whatever the clock
shows, a logger writes the same lines for both and is the same logger afterwards.  If the clock goes
on between them, the lines differ in their timestamps at most. -/
theorem log_tells_no_protected_value (l : Logger) {e e' : Event} (h : e.Alike e') :
    (∀ timestamp later, l.log timestamp later e = l.log timestamp later e') ∧
      ∀ micros micros' later later', Timestamp.IsReading micros → Timestamp.IsReading micros' →
        let first := l.log (Timestamp.toText micros) (Timestamp.toText later) e
        let second := l.log (Timestamp.toText micros') (Timestamp.toText later') e'
        List.Forall₂ LogLine.SameButTime first.1 second.1 ∧ first.2 = second.2 := by
  refine ⟨h.log_eq l, fun micros micros' later later' hmicros hmicros' => ?_⟩
  rw [h.log_eq]
  exact l.log_at_other_times e' later later' hmicros hmicros'

/-- A sign-in with a pin and a name, where only the pins differ, and in their lengths. -/
theorem log_tells_no_protected_value_pins :
    let signIn (pin : Text) : Event :=
      { id := utf8 "sign-in"
        fields :=
          [{ key := utf8 "pin", value := pin, privacy := .redacted, numeric := true },
            { key := utf8 "name", value := utf8 "ada", privacy := .hashed }] }
    (signIn (utf8 "1234")).Alike (signIn (utf8 "987654321")) ∧
      Timestamp.IsReading 0 ∧ Timestamp.IsReading 1717146423000042 ∧
      (∀ timestamp later, ({} : Logger).log timestamp later (signIn (utf8 "1234")) =
        ({} : Logger).log timestamp later (signIn (utf8 "987654321"))) ∧
      let first := ({} : Logger).log (Timestamp.toText 0) (Timestamp.toText 1)
        (signIn (utf8 "1234"))
      let second := ({} : Logger).log (Timestamp.toText 1717146423000042)
        (Timestamp.toText 1717146423000043) (signIn (utf8 "987654321"))
      List.Forall₂ LogLine.SameButTime first.1 second.1 ∧ first.2 = second.2 := by
  intro signIn
  have halike : (signIn (utf8 "1234")).Alike (signIn (utf8 "987654321")) :=
    { severity := rfl
      category := rfl
      id := rfl
      message := rfl
      fields := .cons (.redacted _ _ _ _)
        (.cons (.hashed _ _ (by decide) (by decide) rfl) .nil) }
  have hfirst : Timestamp.IsReading 0 := by decide
  have hsecond : Timestamp.IsReading 1717146423000042 := by decide
  obtain ⟨hsame, htimes⟩ := log_tells_no_protected_value {} halike
  exact ⟨halike, hfirst, hsecond, hsame, htimes _ _ _ _ hfirst hsecond⟩

end Logger

end CarSlice
