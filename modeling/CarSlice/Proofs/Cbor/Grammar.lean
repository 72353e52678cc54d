import CarSlice.Proofs.Cbor

/-!
# The grammar of items

Which bytes are an item is said here by concatenation alone, without a cursor and without a
reader.  Each reader of `CarSlice.Cbor` is then put beside its part of the grammar by an
equivalence: it reads a byte string exactly if something of the grammar stands in front, and it
leaves what follows.

* `Head.Spells`: the bytes of a head, of any width (`head?_eq_some_iff`).
* `payload?_eq_some_iff` and `unsigned?_eq_some_iff`: texts, byte strings and numbers.
* `Item`: whole items of every kind, nested to a number of levels.  Passing over an item does not
  look at the value of a simple one, so `skipWithin_eq_some_iff` has `AnySimple` heads for these,
  where the standard has `ProperSimple` ones.
-/

namespace CarSlice.Cbor

/-! ## Heads -/

/-- The bytes of a head.  An argument below 24 may stand in the first byte, and any argument that
fits may stand behind it in one, two, four or eight bytes.  The shortest form is not asked for. -/
inductive Head.Spells : Head → Bytes → Prop where
  | short (major : Major) {argument : Nat} (h : argument < 24) :
      Spells ⟨major, argument⟩ [UInt8.ofNat (32 * major.code + argument)]
  | wide (major : Major) {k : Nat} (hk : k < 4) {digits : Bytes} (h : digits.length = 1 <<< k) :
      Spells ⟨major, bigEndianValue digits⟩
        (UInt8.ofNat (32 * major.code + (24 + k)) :: digits)

theorem Major.code_ofCode {code : Nat} (h : code < 8) : (ofCode code).code = code := by
  revert code
  decide

/-- A first byte is put together again from its kind and what is said with it. -/
theorem ofNat_first (first : UInt8) :
    UInt8.ofNat (32 * (Major.ofCode (first.toNat / 32)).code + first.toNat % 32) = first := by
  have hlt := first.toNat_lt
  rw [Major.code_ofCode (by omega), Nat.div_add_mod, UInt8.ofNat_toNat]

/-- The head of an item is read exactly if its bytes stand in front. -/
theorem head?_eq_some_iff {s rest : Bytes} {head : Head} :
    head? s = some (head, rest) ↔ ∃ front, s = front ++ rest ∧ head.Spells front := by
  constructor
  · intro h
    cases s with
    | nil => cases h
    | cons first s =>
      have hfirst := ofNat_first first
      simp only [head?] at h
      split_ifs at h with hshort hwide
      · obtain ⟨rfl, rfl⟩ := Prod.mk.inj (Option.some.inj h)
        have hspells := Head.Spells.short (Major.ofCode (first.toNat / 32)) hshort
        rw [hfirst] at hspells
        exact ⟨[first], rfl, hspells⟩
      · obtain ⟨⟨digits, rest'⟩, htake, hhead⟩ := Option.map_eq_some_iff.1 h
        obtain ⟨rfl, rfl⟩ := Prod.mk.inj hhead
        obtain ⟨rfl, hlength⟩ := takeExactly?_eq_some_iff.1 htake
        have hspells := Head.Spells.wide (Major.ofCode (first.toNat / 32))
          (k := first.toNat % 32 - 24) (by omega) hlength
        rw [Nat.add_sub_cancel' (Nat.le_of_not_lt hshort), hfirst] at hspells
        exact ⟨first :: digits, rfl, hspells⟩
  · rintro ⟨front, rfl, hspells⟩
    cases hspells with
    | short major h => exact head?_short major h rest
    | wide major hk h => exact head?_digits major hk h rest

/-- A head in front is read, whatever follows it. -/
theorem Head.Spells.head? {head : Head} {front : Bytes} (h : head.Spells front) (rest : Bytes) :
    Cbor.head? (front ++ rest) = some (head, rest) :=
  head?_eq_some_iff.2 ⟨front, rfl, h⟩

/-! ## Numbers, texts and byte strings -/

theorem unsigned?_eq_some_iff {s rest : Bytes} {value : Nat} :
    unsigned? s = some (value, rest) ↔
      ∃ head, s = head ++ rest ∧ Head.Spells ⟨.unsigned, value⟩ head := by
  rw [← head?_eq_some_iff, unsigned?]
  constructor
  · intro h
    split at h
    · next hhead =>
      cases h
      exact hhead
    · cases h
  · intro h
    rw [h]

/-- A text or byte string is a head that names its length, and so many bytes. -/
theorem payload?_eq_some_iff {major : Major} {s content rest : Bytes} :
    payload? major s = some (content, rest) ↔
      ∃ head, s = head ++ content ++ rest ∧ Head.Spells ⟨major, content.length⟩ head := by
  constructor
  · intro h
    unfold payload? at h
    split at h
    · next head behind hhead =>
      split at h
      · next hmajor =>
        obtain ⟨front, rfl, hspells⟩ := head?_eq_some_iff.1 hhead
        obtain ⟨rfl, hlength⟩ := takeExactly?_eq_some_iff.1 h
        refine ⟨front, (List.append_assoc ..).symm, ?_⟩
        rw [← hmajor, hlength]
        exact hspells
      · cases h
    · cases h
  · rintro ⟨head, rfl, hspells⟩
    rw [List.append_assoc, payload?, hspells.head?]
    simp [takeExactly?_append]

/-! ## Items -/

/-- Every head of a simple value. -/
def AnySimple (_head : Bytes) : Prop :=
  True

/-- The heads of simple values that are well formed: a value below 32 has no form of two bytes,
so that it has one form only. -/
def ProperSimple (head : Bytes) : Prop :=
  ∀ value, head = [0xf8, value] → 32 ≤ value

/-- The bytes of an item that holds at most `levels` levels of items, itself included, so that each
item in it is enclosed by fewer than `levels` arrays, maps and tags.  Every length is definite. The
heads that simple values may have are a parameter. -/
inductive Item (simple : Bytes → Prop) : Nat → Bytes → Prop where
  | integer {levels : Nat} {major : Major} {argument : Nat} {head : Bytes}
      (hmajor : major = .unsigned ∨ major = .negative)
      (hhead : Head.Spells ⟨major, argument⟩ head) :
      Item simple (levels + 1) head
  /-- Simple values and floating-point numbers. -/
  | simple {levels : Nat} {argument : Nat} {head : Bytes}
      (hhead : Head.Spells ⟨.simple, argument⟩ head) (hsimple : simple head) :
      Item simple (levels + 1) head
  | string {levels : Nat} {major : Major} {head content : Bytes}
      (hmajor : major = .bytes ∨ major = .text)
      (hhead : Head.Spells ⟨major, content.length⟩ head) :
      Item simple (levels + 1) (head ++ content)
  | array {levels : Nat} {head : Bytes} {items : List Bytes}
      (hhead : Head.Spells ⟨.array, items.length⟩ head)
      (hitems : ∀ item ∈ items, Item simple levels item) :
      Item simple (levels + 1) (head ++ items.flatten)
  /-- Keys and values alternate, so a map holds twice as many items as its count says. -/
  | map {levels count : Nat} {head : Bytes} {items : List Bytes}
      (hhead : Head.Spells ⟨.map, count⟩ head) (hcount : items.length = 2 * count)
      (hitems : ∀ item ∈ items, Item simple levels item) :
      Item simple (levels + 1) (head ++ items.flatten)
  | tag {levels number : Nat} {head content : Bytes} (hhead : Head.Spells ⟨.tag, number⟩ head)
      (hcontent : Item simple levels content) : Item simple (levels + 1) (head ++ content)

/-- Where more heads are allowed for simple values, there are more items. -/
theorem Item.mono {simple simple' : Bytes → Prop} (hsimple : ∀ head, simple head → simple' head)
    {levels : Nat} {bytes : Bytes} (h : Item simple levels bytes) : Item simple' levels bytes := by
  induction h with
  | integer hmajor hhead => exact .integer hmajor hhead
  | simple hhead hallowed => exact .simple hhead (hsimple _ hallowed)
  | string hmajor hhead => exact .string hmajor hhead
  | array hhead _ ih => exact .array hhead ih
  | map hhead hcount _ ih => exact .map hhead hcount ih
  | tag hhead _ ih => exact .tag hhead ih

/-- An item that begins with the head of a simple value is this head. -/
theorem Item.of_head?_simple {simple : Bytes → Prop} {levels argument : Nat}
    {item rest behind : Bytes} (h : Item simple levels item)
    (hhead : head? (item ++ rest) = some (⟨.simple, argument⟩, behind)) :
    simple item ∧ behind = rest := by
  cases h with
  | integer hmajor hspells =>
    rw [hspells.head?] at hhead
    rcases hmajor with rfl | rfl <;> cases hhead
  | simple hspells hsimple =>
    rw [hspells.head?] at hhead
    cases hhead
    exact ⟨hsimple, rfl⟩
  | string hmajor hspells =>
    rw [List.append_assoc, hspells.head?] at hhead
    rcases hmajor with rfl | rfl <;> cases hhead
  | array hspells _ =>
    rw [List.append_assoc, hspells.head?] at hhead
    cases hhead
  | map hspells _ _ =>
    rw [List.append_assoc, hspells.head?] at hhead
    cases hhead
  | tag hspells _ =>
    rw [List.append_assoc, hspells.head?] at hhead
    cases hhead

/-- A step that takes one thing off the front takes a row of them off when it is repeated. -/
theorem times_eq_some_iff {step : Bytes → Option Bytes} {form : Bytes → Prop}
    (hstep : ∀ s rest, step s = some rest ↔ ∃ item, s = item ++ rest ∧ form item) {n : Nat}
    {s rest : Bytes} :
    times step n s = some rest ↔
      ∃ items : List Bytes, s = items.flatten ++ rest ∧ items.length = n ∧
        ∀ item ∈ items, form item := by
  induction n generalizing s with
  | zero =>
    constructor
    · intro h
      cases h
      exact ⟨[], rfl, rfl, by simp⟩
    · rintro ⟨items, rfl, hlength, -⟩
      rw [List.length_eq_zero_iff.1 hlength]
      rfl
  | succ n ih =>
    constructor
    · intro h
      unfold times at h
      split at h
      · next s' hfirst =>
        obtain ⟨item, rfl, hitem⟩ := (hstep _ _).1 hfirst
        obtain ⟨items, rfl, rfl, hitems⟩ := ih.1 h
        refine ⟨item :: items, ?_, rfl, List.forall_mem_cons.2 ⟨hitem, hitems⟩⟩
        rw [List.flatten_cons, List.append_assoc]
      · cases h
    · rintro ⟨items, rfl, hlength, hitems⟩
      obtain ⟨item, items, rfl⟩ := List.exists_cons_of_length_eq_add_one hlength
      rw [List.forall_mem_cons] at hitems
      have hfirst := (hstep (item ++ (items.flatten ++ rest)) _).2 ⟨item, rfl, hitems.1⟩
      have hmore := ih.2 ⟨items, rfl, Nat.succ.inj hlength, hitems.2⟩
      rw [List.flatten_cons, List.append_assoc, times, hfirst]
      exact hmore

/-- What was passed over is an item. -/
theorem item_of_skipWithin {levels : Nat}
    (ih : ∀ s rest, skipWithin levels s = some rest ↔
      ∃ item, s = item ++ rest ∧ Item AnySimple levels item)
    {s rest : Bytes} (h : skipWithin (levels + 1) s = some rest) :
    ∃ item, s = item ++ rest ∧ Item AnySimple (levels + 1) item := by
  unfold skipWithin at h
  split at h
  · cases h
  · next head behind hhead =>
    obtain ⟨front, rfl, hspells⟩ := head?_eq_some_iff.1 hhead
    obtain ⟨major, argument⟩ := head
    cases major with
    | unsigned =>
      cases h
      exact ⟨front, rfl, .integer (.inl rfl) hspells⟩
    | negative =>
      cases h
      exact ⟨front, rfl, .integer (.inr rfl) hspells⟩
    | simple =>
      cases h
      exact ⟨front, rfl, .simple hspells trivial⟩
    | bytes =>
      obtain ⟨⟨content, rest'⟩, htake, rfl⟩ := Option.map_eq_some_iff.1 h
      obtain ⟨rfl, rfl⟩ := takeExactly?_eq_some_iff.1 htake
      exact ⟨front ++ content, (List.append_assoc ..).symm, .string (.inl rfl) hspells⟩
    | text =>
      obtain ⟨⟨content, rest'⟩, htake, rfl⟩ := Option.map_eq_some_iff.1 h
      obtain ⟨rfl, rfl⟩ := takeExactly?_eq_some_iff.1 htake
      exact ⟨front ++ content, (List.append_assoc ..).symm, .string (.inr rfl) hspells⟩
    | array =>
      obtain ⟨items, rfl, rfl, hitems⟩ := (times_eq_some_iff ih).1 h
      exact ⟨front ++ items.flatten, (List.append_assoc ..).symm, .array hspells hitems⟩
    | map =>
      obtain ⟨items, rfl, hcount, hitems⟩ := (times_eq_some_iff ih).1 h
      exact ⟨front ++ items.flatten, (List.append_assoc ..).symm, .map hspells hcount hitems⟩
    | tag =>
      obtain ⟨content, rfl, hcontent⟩ := (ih _ _).1 h
      exact ⟨front ++ content, (List.append_assoc ..).symm, .tag hspells hcontent⟩

/-- An item in front is passed over. -/
theorem skipWithin_of_item {levels : Nat}
    (ih : ∀ s rest, skipWithin levels s = some rest ↔
      ∃ item, s = item ++ rest ∧ Item AnySimple levels item)
    {item : Bytes} (h : Item AnySimple (levels + 1) item) (rest : Bytes) :
    skipWithin (levels + 1) (item ++ rest) = some rest := by
  cases h with
  | integer hmajor hhead => rcases hmajor with rfl | rfl <;> simp only [skipWithin, hhead.head?]
  | simple hhead _ => simp only [skipWithin, hhead.head?]
  | @string _ major head content hmajor hhead =>
    have htake := takeExactly?_append content rest
    rw [List.append_assoc]
    rcases hmajor with rfl | rfl <;> simp only [skipWithin, hhead.head?, htake, Option.map_some]
  | @array _ head items hhead hitems =>
    rw [List.append_assoc]
    simp only [skipWithin, hhead.head?]
    exact (times_eq_some_iff ih).2 ⟨items, rfl, rfl, hitems⟩
  | @map _ count head items hhead hcount hitems =>
    rw [List.append_assoc]
    simp only [skipWithin, hhead.head?]
    exact (times_eq_some_iff ih).2 ⟨items, rfl, hcount, hitems⟩
  | @tag _ number head content hhead hcontent =>
    rw [List.append_assoc]
    simp only [skipWithin, hhead.head?]
    exact (ih _ _).2 ⟨content, rfl, hcontent⟩

/-- Passing over an item succeeds exactly if one stands in front, and leads behind it. -/
theorem skipWithin_eq_some_iff {levels : Nat} {s rest : Bytes} :
    skipWithin levels s = some rest ↔ ∃ item, s = item ++ rest ∧ Item AnySimple levels item := by
  induction levels generalizing s rest with
  | zero =>
    refine ⟨fun h => ?_, fun ⟨item, _, h⟩ => ?_⟩
    · cases h
    · cases h
  | succ levels ih =>
    refine ⟨item_of_skipWithin fun _ _ => ih, ?_⟩
    rintro ⟨item, rfl, h⟩
    exact skipWithin_of_item (fun _ _ => ih) h rest

end CarSlice.Cbor
