import CarSlice.Proofs.Base32
import Mathlib.Data.List.GetD

/-!
# Base 32, letter by letter

Which letters a text is made of, said by the bits of the input alone, and what a reader makes of
them.

* `bitAt` is a bit of the input, and `groupAt` are the five bits of a letter.  Behind the last byte
  there are zeros (`getD_bitsOf`).
* `length_spell` and `getElem?_spell` count and place the letters for a row of bits.
* `decode?_eq_some_iff`: a reader takes the text of a byte string for these bytes, and no other
  text.  `octets?_eq_some` says what may stand behind the last byte, and `spell_append_zeros` why
  that makes no other text.
* `encode_spells_every_group` puts these together.
-/

namespace CarSlice.Base32

/-! ## The bits of the input -/

/-- The bit of a byte string at a place, counted from the most significant bit of the first byte.
Behind the last byte there are zeros. -/
def bitAt (bytes : Bytes) (place : Nat) : Bool :=
  (bytes.getD (place / 8) 0).toNat.testBit (7 - place % 8)

/-- The five bits for the letter at a place. -/
def groupAt (bytes : Bytes) (i : Nat) : List Bool :=
  (List.range 5).map fun j => bitAt bytes (5 * i + j)

theorem getD_bits {width place : Nat} (h : place < width) (n : Nat) :
    (bits width n).getD place false = n.testBit (width - 1 - place) := by
  induction width generalizing place with
  | zero => omega
  | succ width ih =>
    cases place with
    | zero => rfl
    | succ place =>
      rw [bits, List.getD_cons_succ, ih (by omega)]
      congr 1
      omega

theorem length_bitsOf (bytes : Bytes) : (bitsOf bytes).length = 8 * bytes.length := by
  induction bytes with
  | nil => rfl
  | cons b rest ih =>
    rw [bitsOf_cons, List.length_append, length_bits, ih, List.length_cons]
    omega

theorem getD_bitsOf (bytes : Bytes) (place : Nat) :
    (bitsOf bytes).getD place false = bitAt bytes place := by
  induction bytes generalizing place with
  | nil => simp [bitsOf, bitAt]
  | cons b rest ih =>
    rw [bitsOf_cons]
    by_cases hplace : place < 8
    · have hzero : place / 8 = 0 := by omega
      have hmod : place % 8 = place := by omega
      rw [List.getD_append _ _ _ _ (by rwa [length_bits]), getD_bits hplace, bitAt, hzero, hmod]
      rfl
    · have hdiv : place / 8 = (place - 8) / 8 + 1 := by omega
      have hmod : place % 8 = (place - 8) % 8 := by omega
      rw [List.getD_append_right _ _ _ _ (by rw [length_bits]; omega), length_bits, ih, bitAt,
        bitAt, hdiv, hmod, List.getD_cons_succ]

/-! ## The letters for a row of bits -/

theorem length_spell (bs : List Bool) : (spell bs).length = (bs.length + 4) / 5 := by
  fun_induction spell bs with
  | case1 a b c d e rest ih =>
    simp only [List.length_cons, ih]
    omega
  | case2 => rfl
  | case3 last hfive hnil =>
    have hpos : 0 < last.length := List.length_pos_iff.2 hnil
    have hlt : last.length < 5 := length_lt_five hfive
    rw [List.length_singleton]
    omega

/-- The bits of a last letter, place by place. -/
theorem append_zeros_eq_map {last : List Bool} (h : last.length ≤ 5) :
    last ++ List.replicate (5 - last.length) false =
      (List.range 5).map fun j => last.getD j false := by
  apply List.ext_getElem
  · rw [List.length_append, List.length_replicate, List.length_map, List.length_range]
    omega
  · intro j _ _
    rw [List.getElem_map, List.getElem_range]
    by_cases hj : j < last.length
    · rw [List.getElem_append_left hj, List.getD_eq_getElem _ _ hj]
    · rw [List.getElem_append_right (by omega), List.getElem_replicate,
        List.getD_eq_default _ _ (by omega)]

theorem getElem?_spell {bs : List Bool} {i : Nat} (h : i < (spell bs).length) :
    (spell bs)[i]? = some (letterOf ((List.range 5).map fun j => bs.getD (5 * i + j) false)) := by
  fun_induction spell bs generalizing i with
  | case1 a b c d e rest ih =>
    cases i with
    | zero => rfl
    | succ i =>
      have hshift (j : Nat) : (a :: b :: c :: d :: e :: rest).getD (5 * (i + 1) + j) false =
          rest.getD (5 * i + j) false := by
        rw [show 5 * (i + 1) + j = 5 * i + j + 5 by omega]
        rfl
      simp only [hshift]
      rw [List.getElem?_cons_succ, ih (by simpa using h)]
  | case2 => cases h
  | case3 last hfive hnil =>
    obtain rfl : i = 0 := by simpa using h
    have hfilled := append_zeros_eq_map (Nat.le_of_lt (length_lt_five hfive))
    rw [List.getElem?_cons_zero, hfilled]
    simp only [Nat.mul_zero, Nat.zero_add]

theorem spell_of_length_five {bs : List Bool} (h : bs.length = 5) : spell bs = [letterOf bs] := by
  match bs with
  | [_, _, _, _, _] => rfl

/-- Zeros that fill up the last letter change nothing. -/
theorem spell_append_zeros {bs : List Bool} {k : Nat} (hk : k < 5) (h : (bs.length + k) % 5 = 0) :
    spell (bs ++ List.replicate k false) = spell bs := by
  fun_induction spell bs with
  | case1 a b c d e rest ih =>
    simp only [List.length_cons] at h
    exact congrArg (letterOf [a, b, c, d, e] :: ·) (ih (by omega))
  | case2 =>
    obtain rfl : k = 0 := by simpa [Nat.mod_eq_of_lt hk] using h
    rfl
  | case3 last hfive hnil =>
    have hpos : 0 < last.length := List.length_pos_iff.2 hnil
    have hlt : last.length < 5 := length_lt_five hfive
    obtain rfl : k = 5 - last.length := by omega
    apply spell_of_length_five
    rw [List.length_append, List.length_replicate]
    omega

theorem length_flatMap_bits (values : List Nat) :
    (values.flatMap (bits 5)).length = 5 * values.length := by
  induction values with
  | nil => rfl
  | cons v values ih =>
    rw [List.flatMap_cons, List.length_append, length_bits, ih, List.length_cons]
    omega

theorem spell_flatMap_bits (values : List Nat) :
    spell (values.flatMap (bits 5)) = values.map fun v => letterOf (bits 5 v) := by
  induction values with
  | nil => rfl
  | cons v values ih => rw [List.flatMap_cons, spell_bits_append, ih, List.map_cons]

theorem some_letterOf {bs : List Bool} (h : bs.length = 5) :
    some (letterOf bs) = alphabet[number bs]? := by
  have hlt := number_lt bs
  rw [h] at hlt
  have hlength : number bs < alphabet.length := hlt
  rw [letterOf, List.getD_eq_getElem _ _ hlength, List.getElem?_eq_getElem hlength]

/-! ## Reading -/

theorem letterOf_value? {letter : UInt8} {v : Nat} (h : value? letter = some v) :
    letterOf (bits 5 v) = letter := by
  unfold value? at h
  dsimp only at h
  split_ifs at h with hlt
  obtain rfl := Option.some.inj h
  have hlength : alphabet.idxOf letter < alphabet.length := hlt
  have hvalue : alphabet.idxOf letter % 2 ^ 5 = alphabet.idxOf letter := Nat.mod_eq_of_lt hlt
  rw [letterOf, number_bits, hvalue, List.getD_eq_getElem _ _ hlength, List.getElem_idxOf]

/-- The letters of a text are those for their values. -/
theorem eq_map_of_mapM_value? {text : Text} {values : List Nat}
    (h : text.mapM value? = some values) :
    text = values.map fun v => letterOf (bits 5 v) := by
  induction text generalizing values with
  | nil =>
    obtain rfl : [] = values := Option.some.inj h
    rfl
  | cons letter text ih =>
    rw [List.mapM_cons] at h
    obtain ⟨v, hv, h⟩ := Option.bind_eq_some_iff.1 h
    obtain ⟨rest, hrest, h⟩ := Option.bind_eq_some_iff.1 h
    obtain rfl : v :: rest = values := Option.some.inj h
    rw [List.map_cons, letterOf_value? hv, ← ih hrest]

/-- Behind the last byte there are only zeros, and fewer of them than a letter holds. -/
theorem octets?_eq_some {bs : List Bool} {bytes : Bytes} (h : octets? bs = some bytes) :
    ∃ k < 5, bs = bitsOf bytes ++ List.replicate k false := by
  fun_induction octets? bs generalizing bytes with
  | case1 a b c d e f g h' rest ih =>
    obtain ⟨tail, htail, rfl⟩ := Option.map_eq_some_iff.1 h
    obtain ⟨k, hk, hrest⟩ := ih htail
    have hlt : number [a, b, c, d, e, f, g, h'] < 2 ^ 8 := number_lt [a, b, c, d, e, f, g, h']
    have hbits : bits 8 (number [a, b, c, d, e, f, g, h']) = [a, b, c, d, e, f, g, h'] :=
      bits_number [a, b, c, d, e, f, g, h']
    refine ⟨k, hk, ?_⟩
    rw [bitsOf_cons, UInt8.toNat_ofNat_of_lt' hlt, hbits, List.append_assoc, ← hrest]
    rfl
  | case2 rest _ hzeros =>
    obtain rfl : [] = bytes := Option.some.inj h
    have hall : ∀ b ∈ rest, b = false := by simpa using hzeros.2
    exact ⟨rest.length, hzeros.1, List.eq_replicate_of_mem hall⟩
  | case3 => cases h

theorem decode?_eq_some_iff {text : Text} {bytes : Bytes} :
    decode? text = some bytes ↔ text = encode bytes := by
  constructor
  · intro h
    obtain ⟨values, hvalues, hoctets⟩ := Option.bind_eq_some_iff.1 h
    obtain ⟨k, hk, hbits⟩ := octets?_eq_some hoctets
    have hlength : ((bitsOf bytes).length + k) % 5 = 0 := by
      have hlengths := congrArg List.length hbits
      rw [List.length_append, List.length_replicate] at hlengths
      rw [← hlengths, length_flatMap_bits]
      exact Nat.mul_mod_right 5 _
    calc text = values.map fun v => letterOf (bits 5 v) := eq_map_of_mapM_value? hvalues
      _ = spell (values.flatMap (bits 5)) := (spell_flatMap_bits values).symm
      _ = spell (bitsOf bytes ++ List.replicate k false) := by rw [hbits]
      _ = spell (bitsOf bytes) := spell_append_zeros hk hlength
      _ = encode bytes := (encode_eq_spell bytes).symm
  · rintro rfl
    exact decode?_encode bytes

/-- The text of `n` bytes has `8 * n / 5` letters, rounded up.  Each of them is the letter of the
alphabet for the five bits at its place, most significant first, with zeros behind the last byte,
however often the register has run over before it.  So a reader takes this text for these bytes, and
takes no other text for them. -/
theorem encode_spells_every_group (bytes : Bytes) :
    (encode bytes).length = (8 * bytes.length + 4) / 5 ∧
      (∀ i < (encode bytes).length, (encode bytes)[i]? = alphabet[number (groupAt bytes i)]?) ∧
      ∀ text, decode? text = some bytes ↔ text = encode bytes := by
  refine ⟨?_, fun i hi => ?_, fun text => decode?_eq_some_iff⟩
  · rw [encode_eq_spell, length_spell, length_bitsOf]
  · have hgroup : (groupAt bytes i).length = 5 := by simp [groupAt]
    rw [encode_eq_spell] at hi ⊢
    rw [getElem?_spell hi, ← some_letterOf hgroup, groupAt]
    simp only [getD_bitsOf]

/-- The last letter holds three bits of the last byte and two zeros. -/
example : encode (utf8 "foobar") = utf8 "mzxw6ytboi" := by decide +kernel

end CarSlice.Base32
