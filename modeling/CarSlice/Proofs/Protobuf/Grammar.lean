import CarSlice.Protobuf
import CarSlice.Proofs.Varint

/-!
# The grammar of messages

Which bytes are a message is said here by concatenation alone.  A field is a key, which is a number,
and a value behind it (`Value.Spells`, `Field.Spells`), and a message is a row of fields
(`MessageOf`).  No number in it is asked to be the shortest.

* `value?_eq_some_iff` and `field?_eq_some_iff` put each reader beside its part of the grammar,
  `unpack_of_rowOf` does so for packed numbers.
* `splitWithin_append` goes through fields that are there, `exists_front` says what was gone
  through.  Both follow the rows, and `splitWithin_eq_iff` says which messages are split whole.
* `MessageOf.prefix_of`: of two rows in front of the same bytes one begins with the other.  With it
  `split_follows_grammar` says what is found in every message, valid or not.
-/

namespace CarSlice.Protobuf

/-! ## Rows -/

/-- Bytes that are a row of parts, of which each has the form of one thing. -/
inductive RowOf {α : Type} (form : α → Bytes → Prop) : List α → Bytes → Prop where
  | nil : RowOf form [] []
  | cons {a : α} {as : List α} {part rest : Bytes} (hpart : form a part)
      (hrest : RowOf form as rest) : RowOf form (a :: as) (part ++ rest)

section

variable {α : Type} {form : α → Bytes → Prop}

theorem rowOf_singleton {a : α} {part : Bytes} (h : form a part) : RowOf form [a] part := by
  rw [← List.append_nil part]
  exact .cons h .nil

/-- Each thing in a row has its part behind those of the things before it. -/
theorem RowOf.exists_place {as : List α} {s : Bytes} (h : RowOf form as s) {i : Nat} {a : α}
    (hi : as[i]? = some a) : ∃ before part behind, s = before ++ part ++ behind ∧
      RowOf form (as.take i) before ∧ form a part := by
  induction h generalizing i with
  | nil => simp at hi
  | @cons first as part rest hpart hrest ih =>
    cases i with
    | zero =>
      rw [List.getElem?_cons_zero, Option.some.injEq] at hi
      exact ⟨[], part, rest, rfl, .nil, hi ▸ hpart⟩
    | succ i =>
      rw [List.getElem?_cons_succ] at hi
      obtain ⟨before, part', behind, rfl, hbefore, hpart'⟩ := ih hi
      refine ⟨part ++ before, part', behind, ?_, .cons hpart hbefore, hpart'⟩
      rw [List.append_assoc, List.append_assoc, List.append_assoc]

end

/-! ## Fields -/

/-- The bytes of a value behind its key. -/
inductive Value.Spells : Value → Bytes → Prop where
  | varint {n : Nat} {bytes : Bytes} (h : Varint.Spells n bytes) : Spells (.varint n) bytes
  | fixed64 {bytes : Bytes} (h : bytes.length = 8) : Spells (.fixed64 bytes) bytes
  | delimited {length bytes : Bytes} (h : Varint.Spells bytes.length length) :
      Spells (.delimited bytes) (length ++ bytes)
  | fixed32 {bytes : Bytes} (h : bytes.length = 4) : Spells (.fixed32 bytes) bytes

/-- The bytes of a field: a key that says its number and how its value is written, and the
value. -/
inductive Field.Spells (field : Field) : Bytes → Prop where
  | mk {key value : Bytes} (hpos : 1 ≤ field.number) (hmax : field.number ≤ maxFieldNumber)
      (hkey : Varint.Spells (8 * field.number + field.value.wire) key)
      (hvalue : field.value.Spells value) : Spells field (key ++ value)

/-- The bytes of a message with the given fields. -/
def MessageOf (fields : List Field) (s : Bytes) : Prop :=
  RowOf Field.Spells fields s

/-- The bytes that a value holds, if it is not a number. -/
def Value.bytes? : Value → Option Bytes
  | .varint _ => none
  | .fixed64 bytes | .delimited bytes | .fixed32 bytes => some bytes

theorem Value.wire_lt (value : Value) : value.wire < 8 := by
  cases value <;> simp [wire]

/-- The bytes that a field holds are at the end of its own bytes. -/
theorem Field.Spells.suffix {field : Field} {part bytes : Bytes} (h : field.Spells part)
    (hbytes : field.value.bytes? = some bytes) : bytes <:+ part := by
  obtain ⟨-, -, -, hvalue⟩ := h
  next key value =>
    refine List.IsSuffix.trans ?_ (List.suffix_append key value)
    generalize field.value = v at hbytes hvalue
    cases hvalue with
    | varint => cases hbytes
    | fixed64 =>
      cases hbytes
      exact List.suffix_rfl
    | delimited =>
      cases hbytes
      exact List.suffix_append _ _
    | fixed32 =>
      cases hbytes
      exact List.suffix_rfl

theorem Field.Spells.ne_nil {field : Field} {part : Bytes} (h : field.Spells part) :
    part ≠ [] := by
  obtain ⟨-, -, hkey, -⟩ := h
  exact fun hnil => hkey.ne_nil (List.append_eq_nil_iff.1 hnil).1

/-- Some bytes behind their length are read exactly if they stand in front so. -/
theorem delimited?_eq_some_iff {s bytes rest : Bytes} :
    delimited? s = some (bytes, rest) ↔
      ∃ length, s = length ++ bytes ++ rest ∧ Varint.Spells bytes.length length := by
  constructor
  · intro h
    unfold delimited? at h
    split at h
    · next hread =>
      obtain ⟨length, rfl, hspells⟩ := Varint.read?_eq_some_iff.1 hread
      obtain ⟨rfl, rfl⟩ := takeExactly?_eq_some_iff.1 h
      exact ⟨length, (List.append_assoc ..).symm, hspells⟩
    · cases h
  · rintro ⟨length, rfl, hspells⟩
    rw [List.append_assoc, delimited?, hspells.read?]
    exact takeExactly?_eq_some_iff.2 ⟨rfl, rfl⟩

/-- A value is read exactly if it stands in front in the way that is asked for. -/
theorem value?_eq_some_iff {wire : Nat} {s rest : Bytes} {value : Value} :
    value? wire s = some (value, rest) ↔
      value.wire = wire ∧ ∃ part, s = part ++ rest ∧ value.Spells part := by
  constructor
  · intro h
    unfold value? at h
    split at h
    · obtain ⟨⟨n, s'⟩, hread, heq⟩ := Option.map_eq_some_iff.1 h
      cases heq
      obtain ⟨part, rfl, hpart⟩ := Varint.read?_eq_some_iff.1 hread
      exact ⟨rfl, part, rfl, .varint hpart⟩
    · obtain ⟨⟨bytes, s'⟩, htake, heq⟩ := Option.map_eq_some_iff.1 h
      cases heq
      obtain ⟨rfl, hlength⟩ := takeExactly?_eq_some_iff.1 htake
      exact ⟨rfl, bytes, rfl, .fixed64 hlength⟩
    · obtain ⟨⟨bytes, s'⟩, hread, heq⟩ := Option.map_eq_some_iff.1 h
      cases heq
      obtain ⟨length, rfl, hlength⟩ := delimited?_eq_some_iff.1 hread
      exact ⟨rfl, length ++ bytes, rfl, .delimited hlength⟩
    · obtain ⟨⟨bytes, s'⟩, htake, heq⟩ := Option.map_eq_some_iff.1 h
      cases heq
      obtain ⟨rfl, hlength⟩ := takeExactly?_eq_some_iff.1 htake
      exact ⟨rfl, bytes, rfl, .fixed32 hlength⟩
    · cases h
  · rintro ⟨rfl, part, rfl, hpart⟩
    cases hpart with
    | varint h => exact Option.map_eq_some_iff.2 ⟨_, h.read? rest, rfl⟩
    | fixed64 h =>
      exact Option.map_eq_some_iff.2 ⟨_, takeExactly?_eq_some_iff.2 ⟨rfl, h⟩, rfl⟩
    | delimited h =>
      exact Option.map_eq_some_iff.2 ⟨_, delimited?_eq_some_iff.2 ⟨_, rfl, h⟩, rfl⟩
    | fixed32 h =>
      exact Option.map_eq_some_iff.2 ⟨_, takeExactly?_eq_some_iff.2 ⟨rfl, h⟩, rfl⟩

/-- A field is read exactly if its bytes stand in front. -/
theorem field?_eq_some_iff {s rest : Bytes} {field : Field} :
    field? s = some (field, rest) ↔ ∃ part, s = part ++ rest ∧ field.Spells part := by
  constructor
  · intro h
    unfold field? at h
    split at h
    · cases h
    · next key s' hread =>
      dsimp only at h
      split at h
      · cases h
      · next hnumber =>
        obtain ⟨⟨value, rest'⟩, hvalue, heq⟩ := Option.map_eq_some_iff.1 h
        cases heq
        obtain ⟨keyBytes, rfl, hkey⟩ := Varint.read?_eq_some_iff.1 hread
        obtain ⟨hwire, part, rfl, hpart⟩ := value?_eq_some_iff.1 hvalue
        rw [← Nat.div_add_mod key 8, ← hwire] at hkey
        exact ⟨keyBytes ++ part, (List.append_assoc ..).symm,
          .mk (by simp only; omega) (by simp only; omega) hkey hpart⟩
  · rintro ⟨part, rfl, hpart⟩
    obtain ⟨hpos, hmax, hkey, hvalue⟩ := hpart
    next key value =>
      have hwire := field.value.wire_lt
      have hnumber : (8 * field.number + field.value.wire) / 8 = field.number := by omega
      have hrest : (8 * field.number + field.value.wire) % 8 = field.value.wire := by omega
      have hbounds : ¬(field.number = 0 ∨ maxFieldNumber < field.number) := by omega
      rw [List.append_assoc, field?, hkey.read?]
      dsimp only
      rw [hnumber, hrest, if_neg hbounds, value?_eq_some_iff.2 ⟨rfl, value, rfl, hvalue⟩]
      rfl

/-! ## Packed numbers -/

theorem unpackOnto_of_rowOf {numbers : List Nat} {s : Bytes} (h : RowOf Varint.Spells numbers s)
    (found : List Nat) : unpackOnto found s = (found.reverse ++ numbers, true) := by
  induction h generalizing found with
  | nil => rw [unpackOnto, if_pos List.isEmpty_nil, List.append_nil]
  | @cons n numbers part rest hpart hrest ih =>
    have hmore : ¬(part ++ rest).isEmpty = true := by
      rw [List.isEmpty_iff, List.append_eq_nil_iff]
      exact fun hnil => hpart.ne_nil hnil.1
    have hread : Varint.read? (part ++ rest) = some (n, rest) := hpart.read? rest
    rw [unpackOnto, if_neg hmore]
    split
    · next n' rest' hread' =>
      rw [hread, Option.some.injEq, Prod.mk.injEq] at hread'
      obtain ⟨rfl, rfl⟩ := hread'
      rw [ih, List.reverse_cons, List.append_assoc, List.singleton_append]
    · next hnone => rw [hread] at hnone; cases hnone

/-- A row of numbers is unpacked whole. -/
theorem unpack_of_rowOf {numbers : List Nat} {s : Bytes} (h : RowOf Varint.Spells numbers s) :
    unpack s = (numbers, true) :=
  unpackOnto_of_rowOf h []

/-! ## Splitting -/

/-- A message with some fields before the others. -/
def Message.behind (m : Message) (fields : List Field) : Message :=
  { m with fields := fields ++ m.fields }

theorem splitOnto_eq (found : List Field) (room : Nat) (s : Bytes) :
    splitOnto found room s = (splitWithin room s).behind found.reverse := by
  induction room generalizing found s with
  | zero => cases s <;> simp [splitOnto, splitWithin, Message.behind]
  | succ room ih =>
    cases s with
    | nil => simp [splitOnto, splitWithin, Message.behind]
    | cons b s =>
      rw [splitWithin, splitOnto, splitOnto]
      · cases field? (b :: s) with
        | none => simp [Message.behind]
        | some read =>
          obtain ⟨field, rest⟩ := read
          dsimp only
          rw [ih (field :: found), ih [field]]
          simp [Message.behind]
      · exact List.cons_ne_nil b s
      · exact List.cons_ne_nil b s

theorem splitWithin_nil (room : Nat) : splitWithin room [] = ⟨[], true⟩ := by
  cases room <;> rfl

/-- A field in front is taken off. -/
theorem splitWithin_field {field : Field} {part : Bytes} (h : field.Spells part) (room : Nat)
    (rest : Bytes) :
    splitWithin (room + 1) (part ++ rest) = (splitWithin room rest).behind [field] := by
  have hread : field? (part ++ rest) = some (field, rest) := field?_eq_some_iff.2 ⟨part, rfl, h⟩
  rw [splitWithin, splitOnto, hread]
  · exact splitOnto_eq [field] room rest
  · exact fun hnil => h.ne_nil (List.append_eq_nil_iff.1 hnil).1

/-- Where there is no room for a field or none can be read, the message stops. -/
theorem splitWithin_of_stop {room : Nat} {s : Bytes} (hs : s ≠ [])
    (hstop : room = 0 ∨ field? s = none) : splitWithin room s = ⟨[], false⟩ := by
  obtain ⟨b, s, rfl⟩ := List.exists_cons_of_ne_nil hs
  cases room with
  | zero => rfl
  | succ room =>
    have hnone : field? (b :: s) = none := hstop.resolve_left (Nat.succ_ne_zero room)
    rw [splitWithin, splitOnto, hnone]
    · rfl
    · exact hs

/-- Fields in front are all taken off, if there is room for them. -/
theorem splitWithin_append {fields : List Field} {front : Bytes} (h : MessageOf fields front)
    {room : Nat} (hroom : fields.length ≤ room) (rest : Bytes) :
    splitWithin room (front ++ rest) =
      (splitWithin (room - fields.length) rest).behind fields := by
  induction h generalizing room with
  | nil => rfl
  | @cons field fields part front hpart hfront ih =>
    rw [List.length_cons] at hroom
    obtain ⟨room, rfl⟩ := Nat.exists_eq_add_one_of_ne_zero (Nat.ne_of_gt (Nat.zero_lt_of_lt hroom))
    rw [List.append_assoc, splitWithin_field hpart, ih (Nat.le_of_succ_le_succ hroom),
      List.length_cons, Nat.add_sub_add_right]
    rfl

/-- A message has only fields that stand in front one after the other, and it is valid if nothing is
left behind them. -/
theorem exists_front (room : Nat) (s : Bytes) :
    ∃ front rest, s = front ++ rest ∧ MessageOf (splitWithin room s).fields front ∧
      (splitWithin room s).fields.length ≤ room ∧
      ((splitWithin room s).valid = true ↔ rest = []) := by
  induction room generalizing s with
  | zero =>
    by_cases hs : s = []
    · rw [hs, splitWithin_nil]
      exact ⟨[], [], rfl, .nil, Nat.le_refl _, by simp⟩
    · rw [splitWithin_of_stop hs (Or.inl rfl)]
      exact ⟨[], s, rfl, .nil, Nat.le_refl _, by simp [hs]⟩
  | succ room ih =>
    by_cases hs : s = []
    · rw [hs, splitWithin_nil]
      exact ⟨[], [], rfl, .nil, Nat.zero_le _, by simp⟩
    · cases hread : field? s with
      | none =>
        rw [splitWithin_of_stop hs (Or.inr hread)]
        exact ⟨[], s, rfl, .nil, Nat.zero_le _, by simp [hs]⟩
      | some read =>
        obtain ⟨field, s'⟩ := read
        obtain ⟨part, rfl, hpart⟩ := field?_eq_some_iff.1 hread
        obtain ⟨front, rest, hs', hfront, hlength, hvalid⟩ := ih s'
        rw [splitWithin_field hpart]
        refine ⟨part ++ front, rest, ?_, .cons hpart hfront, Nat.succ_le_succ hlength, hvalid⟩
        rw [List.append_assoc, ← hs']

/-! ## What the grammar settles -/

/-- Of two rows of fields in front of the same bytes, the one with the first fields of the other one
is in front of it. -/
theorem MessageOf.prefix_of {fields more : List Field} {front front' rest rest' : Bytes}
    (h : MessageOf fields front) (h' : MessageOf (fields ++ more) front')
    (hsame : front ++ rest = front' ++ rest') : front <+: front' := by
  induction h generalizing front' with
  | nil => exact List.nil_prefix
  | @cons field fields part front hpart hfront ih =>
    cases h' with
    | @cons _ _ part' front' hpart' hfront' =>
      rw [List.append_assoc, List.append_assoc] at hsame
      -- The same field was read in front of both.
      have hread : field? (part ++ (front ++ rest)) = some (field, front ++ rest) :=
        field?_eq_some_iff.2 ⟨part, rfl, hpart⟩
      have hread' : field? (part' ++ (front' ++ rest')) = some (field, front' ++ rest') :=
        field?_eq_some_iff.2 ⟨part', rfl, hpart'⟩
      rw [hsame, hread'] at hread
      have hrest : front' ++ rest' = front ++ rest := (Prod.mk.inj (Option.some.inj hread)).2
      rw [← hrest] at hsame
      rw [List.append_cancel_right hsame, List.prefix_append_right_inj]
      exact ih hfront' hrest.symm

/-- Fields are found and make up all of the bytes if they do so by the grammar, and are not too
many. -/
theorem splitWithin_eq_iff {fields : List Field} {s : Bytes} {room : Nat} :
    splitWithin room s = ⟨fields, true⟩ ↔ MessageOf fields s ∧ fields.length ≤ room := by
  constructor
  · intro h
    obtain ⟨front, rest, rfl, hfront, hlength, hvalid⟩ := exists_front room s
    rw [h] at hfront hlength hvalid
    obtain rfl := hvalid.1 rfl
    rw [List.append_nil]
    exact ⟨hfront, hlength⟩
  · rintro ⟨h, hroom⟩
    have happend := splitWithin_append h hroom []
    rwa [List.append_nil, splitWithin_nil, Message.behind, List.append_nil] at happend

/-- A message of at most so many fields is valid exactly if it is a row of at most so many fields.
Then these are found, and all bytes are accounted for.  Otherwise none are, and what is found are
the fields of the longest front part that is such a row.  In both cases every field that was found
holds the bytes that stand behind its key, and behind their length if they have one, at the place
where the fields before it end. -/
theorem split_follows_grammar (s : Bytes) (maxFields : Nat) :
    let m := splitWithin maxFields s
    (m.valid = true ↔ ∃ fields, MessageOf fields s ∧ fields.length ≤ maxFields) ∧
      (∀ fields, MessageOf fields s → fields.length ≤ maxFields →
        m.fields = fields ∧ m.consumed s = s.length) ∧
      (m.valid = false → m.consumed s = 0 ∧
        ∃ front, front <+: s ∧ MessageOf m.fields front ∧ m.fields.length ≤ maxFields ∧
          ∀ fields front', front' <+: s → MessageOf fields front' → fields.length ≤ maxFields →
            front' <+: front ∧ fields <+: m.fields) ∧
      ∀ i field bytes, m.fields[i]? = some field → field.value.bytes? = some bytes →
        ∃ before head behind, s = before ++ (head ++ bytes) ++ behind ∧
          MessageOf (m.fields.take i) before ∧ field.Spells (head ++ bytes) := by
  intro m
  obtain ⟨front, rest, hs, (hfront : MessageOf m.fields front), hlength, hvalid⟩ :=
    exists_front maxFields s
  refine ⟨⟨fun h => ?_, ?_⟩, ?_, fun hinvalid => ⟨?_, front, ⟨rest, hs.symm⟩, hfront, hlength, ?_⟩,
    ?_⟩
  · rw [hvalid.1 h, List.append_nil] at hs
    exact ⟨m.fields, hs ▸ hfront, hlength⟩
  · rintro ⟨fields, hfields, hroom⟩
    exact congrArg Message.valid (splitWithin_eq_iff.2 ⟨hfields, hroom⟩)
  · intro fields hfields hroom
    have hfound : m = ⟨fields, true⟩ := splitWithin_eq_iff.2 ⟨hfields, hroom⟩
    rw [hfound]
    exact ⟨rfl, rfl⟩
  · rw [Message.consumed, hinvalid]
    rfl
  · rintro fields front' ⟨rest', hs'⟩ hfields hroom
    have hfound : m = (splitWithin (maxFields - fields.length) rest').behind fields := by
      rw [← splitWithin_append hfields hroom, hs']
    rw [hfound] at hfront ⊢
    exact ⟨hfields.prefix_of hfront (hs'.trans hs), List.prefix_append _ _⟩
  · intro i field bytes hfield hbytes
    obtain ⟨before, part, behind, hplace, hbefore, hpart⟩ := hfront.exists_place hfield
    obtain ⟨head, rfl⟩ := hpart.suffix hbytes
    refine ⟨before, head, behind ++ rest, ?_, hbefore, hpart⟩
    rw [hs, hplace, List.append_assoc]

end CarSlice.Protobuf
