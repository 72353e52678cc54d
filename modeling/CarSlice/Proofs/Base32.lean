import CarSlice.Base32
import Mathlib.Data.Nat.Bitwise
import Mathlib.Tactic.Ring

/-!
# Base 32 is exact

The register of `encode` has room for 32 bits, and what was written already runs out at its top.
Only the low `pending` bits count, which never are more than twelve, so the letters are those of
the bits of the input, five at a time, the last ones filled up with zeros (`encode_eq_spell`).

* `bits` and `number` go from a number to its low bits and back, most significant first.
* `spell` writes a row of bits.  `encodeFrom_eq_spell` is the induction over the input, in which the
  low bits of the register stand for what is not yet written.
* `decode?` reads a text without padding characters and refuses what is not one.  It undoes
  `encode` (`decode?_encode`), so no two byte strings have one text.
-/

namespace CarSlice.Base32

/-! ## Bits -/

/-- The low bits of a number, most significant first. -/
def bits : Nat → Nat → List Bool
  | 0, _ => []
  | width + 1, n => n.testBit width :: bits width n

/-- The number that bits spell, most significant first. -/
def number : List Bool → Nat
  | [] => 0
  | b :: bs => 2 ^ bs.length * b.toNat + number bs

@[simp] theorem length_bits (width n : Nat) : (bits width n).length = width := by
  induction width with
  | zero => rfl
  | succ width ih => rw [bits, List.length_cons, ih]

theorem bits_congr {width m n : Nat} (h : ∀ i < width, m.testBit i = n.testBit i) :
    bits width m = bits width n := by
  induction width with
  | zero => rfl
  | succ width ih => rw [bits, bits, h width (Nat.lt_succ_self _), ih fun i hi => h i (by omega)]

theorem bits_add (high low n : Nat) :
    bits (high + low) n = bits high (n >>> low) ++ bits low n := by
  induction high with
  | zero =>
    rw [Nat.zero_add]
    rfl
  | succ high ih =>
    rw [Nat.add_right_comm, bits, bits, ih, Nat.testBit_shiftRight, Nat.add_comm low]
    rfl

theorem bits_zero (width : Nat) : bits width 0 = List.replicate width false := by
  induction width with
  | zero => rfl
  | succ width ih => rw [bits, ih, Nat.zero_testBit, List.replicate_succ]

theorem number_bits (width n : Nat) : number (bits width n) = n % 2 ^ width := by
  induction width with
  | zero => simp [bits, number, Nat.mod_one]
  | succ width ih =>
    rw [bits, number, length_bits, ih, Nat.mod_pow_succ, Nat.toNat_testBit, Nat.add_comm]

theorem number_lt (bs : List Bool) : number bs < 2 ^ bs.length := by
  induction bs with
  | nil => exact Nat.one_pos
  | cons b bs ih =>
    have hb : b.toNat ≤ 1 := Bool.toNat_le b
    have hmul := Nat.mul_le_mul_left (2 ^ bs.length) hb
    rw [number, List.length_cons, Nat.pow_succ]
    omega

theorem bits_number (bs : List Bool) : bits bs.length (number bs) = bs := by
  induction bs with
  | nil => rfl
  | cons b bs ih =>
    have hlt := number_lt bs
    have hlow : bits bs.length (number (b :: bs)) = bits bs.length (number bs) :=
      bits_congr fun i hi => by rw [number, Nat.testBit_two_pow_mul_add _ hlt, if_pos hi]
    have hhigh : (number (b :: bs)).testBit bs.length = b := by
      rw [number, Nat.testBit_two_pow_mul_add _ hlt, if_neg (Nat.lt_irrefl _), Nat.sub_self]
      cases b <;> rfl
    rw [List.length_cons, bits, hhigh, hlow, ih]

/-! ## Letters for bits -/

/-- The letter for five bits. -/
def letterOf (bs : List Bool) : UInt8 :=
  alphabet.getD (number bs) 0

/-- The letters for a row of bits, five at a time, the last ones filled up with zeros. -/
def spell : List Bool → Text
  | a :: b :: c :: d :: e :: rest => letterOf [a, b, c, d, e] :: spell rest
  | [] => []
  | last => [letterOf (last ++ List.replicate (5 - last.length) false)]

/-- The bits of a byte string. -/
def bitsOf (bytes : Bytes) : List Bool :=
  bytes.flatMap fun b => bits 8 b.toNat

theorem bitsOf_cons (b : UInt8) (rest : Bytes) :
    bitsOf (b :: rest) = bits 8 b.toNat ++ bitsOf rest :=
  List.flatMap_cons

theorem spell_bits_append (n : Nat) (bs : List Bool) :
    spell (bits 5 n ++ bs) = letterOf (bits 5 n) :: spell bs := rfl

/-- What is left over behind the last five bits. -/
theorem length_lt_five {last : List Bool}
    (h : ∀ (a b c d e : Bool) (rest : List Bool), last = a :: b :: c :: d :: e :: rest → False) :
    last.length < 5 := by
  match last with
  | a :: b :: c :: d :: e :: rest => exact absurd rfl (h a b c d e rest)
  | [] | [_] | [_, _] | [_, _, _] | [_, _, _, _] => simp

theorem spell_last {bs : List Bool} (hpos : 0 < bs.length) (hlt : bs.length < 5) :
    spell bs = [letterOf (bs ++ List.replicate (5 - bs.length) false)] := by
  match bs with
  | [_] | [_, _] | [_, _, _] | [_, _, _, _] => rfl

/-! ## The register -/

theorem letter_eq (group : UInt32) : letter group = letterOf (bits 5 group.toNat) := by
  have hgroup : (group &&& 0x1F).toNat = group.toNat % 2 ^ 5 := by
    rw [UInt32.toNat_and, ← Nat.and_two_pow_sub_one_eq_mod]
    rfl
  rw [letter, letterOf, hgroup, number_bits]

theorem toNat_shiftRight_ofNat (register : UInt32) {k : Nat} (hk : k < 32) :
    (register >>> UInt32.ofNat k).toNat = register.toNat >>> k := by
  rw [UInt32.toNat_shiftRight, UInt32.toNat_ofNat_of_lt' (Nat.lt_trans hk (by decide)),
    Nat.mod_eq_of_lt hk]

/-- What is shifted in stands behind the low bits that were there, as long as all of these have room
in the register. -/
theorem bits_shiftIn {pending k : Nat} (hroom : pending + k < 32) (register low : UInt32)
    (hlow : low.toNat < 2 ^ k) :
    bits (pending + k) (register <<< UInt32.ofNat k ||| low).toNat =
      bits pending register.toNat ++ bits k low.toNat := by
  have hbit (i : Nat) : (register <<< UInt32.ofNat k ||| low).toNat.testBit i =
      ((decide (i < 32) && (decide (k ≤ i) && register.toNat.testBit (i - k))) ||
        low.toNat.testBit i) := by
    rw [UInt32.toNat_or, Nat.testBit_or, UInt32.toNat_shiftLeft,
      UInt32.toNat_ofNat_of_lt' (Nat.lt_trans (by omega : k < 32) (by decide)),
      Nat.mod_eq_of_lt (by omega : k < 32), Nat.testBit_mod_two_pow, Nat.testBit_shiftLeft]
  rw [bits_add]
  congr 1
  · refine bits_congr fun i hi => ?_
    have hhigh : low.toNat.testBit (k + i) = false :=
      Nat.testBit_lt_two_pow (Nat.lt_of_lt_of_le hlow (Nat.pow_le_pow_right (by decide) (by omega)))
    rw [Nat.testBit_shiftRight, hbit, hhigh]
    simp [show k + i < 32 by omega]
  · refine bits_congr fun i hi => ?_
    rw [hbit]
    simp [show ¬k ≤ i by omega]

/-- Draining the register writes the groups that are complete, and leaves the others. -/
theorem spell_drain {register : UInt32} {pending : Nat} (hroom : pending < 32) (bs : List Bool) :
    spell (bits pending register.toNat ++ bs) =
      drain register pending ++ spell (bits (pending % 5) register.toNat ++ bs) := by
  fun_induction drain register pending with
  | case1 pending hfive ih =>
    have hsplit : pending = 5 + (pending - 5) := by omega
    have hmod : pending % 5 = (pending - 5) % 5 := by omega
    rw [hmod, List.cons_append, ← ih (by omega), letter_eq, toNat_shiftRight_ofNat _ (by omega),
      ← spell_bits_append, ← List.append_assoc, ← bits_add, ← hsplit]
  | case2 pending hfive =>
    rw [Nat.mod_eq_of_lt (by omega), List.nil_append]

/-- The letters for the low bits of the register and the rest of the input. -/
theorem encodeFrom_eq_spell {register : UInt32} {pending : Nat} (hpending : pending < 5)
    (bytes : Bytes) :
    encodeFrom register pending bytes = spell (bits pending register.toNat ++ bitsOf bytes) := by
  induction bytes generalizing register pending with
  | nil =>
    rw [bitsOf, List.flatMap_nil, List.append_nil, encodeFrom]
    split_ifs with hpos
    · have hfill := bits_shiftIn (by omega : pending + (5 - pending) < 32) register 0
        (Nat.two_pow_pos _)
      rw [UInt32.or_zero, Nat.add_sub_cancel' (by omega : pending ≤ 5)] at hfill
      have hzeros : bits (5 - pending) (0 : UInt32).toNat =
          List.replicate (5 - (bits pending register.toNat).length) false := by
        rw [length_bits]
        exact bits_zero _
      rw [spell_last (by rwa [length_bits]) (by rwa [length_bits]), letter_eq, hfill, hzeros]
    · obtain rfl : pending = 0 := by omega
      rfl
  | cons b rest ih =>
    have hbyte : b.toUInt32.toNat = b.toNat := UInt8.toNat_toUInt32 b
    have hshift := bits_shiftIn (k := 8) (by omega : pending + 8 < 32) register b.toUInt32
      (by rw [hbyte]; exact b.toNat_lt)
    rw [encodeFrom, ih (Nat.mod_lt _ (by decide)), ← spell_drain (by omega), bitsOf_cons,
      ← List.append_assoc, ← hbyte, ← hshift]
    rfl

/-- The text of a byte string is that of its bits. -/
theorem encode_eq_spell (bytes : Bytes) : encode bytes = spell (bitsOf bytes) :=
  encodeFrom_eq_spell (by decide) bytes

/-! ## Reading -/

/-- The value of a letter. -/
def value? (letter : UInt8) : Option Nat :=
  let place := alphabet.idxOf letter
  if place < 32 then some place else none

/-- The bytes of a row of bits.  Behind the last byte may stand the zeros that fill up its last
letter, and nothing else. -/
def octets? : List Bool → Option Bytes
  | a :: b :: c :: d :: e :: f :: g :: h :: rest =>
    (octets? rest).map (UInt8.ofNat (number [a, b, c, d, e, f, g, h]) :: ·)
  | rest => if rest.length < 5 ∧ rest.all (!·) then some [] else none

/-- Reads a text. -/
def decode? (text : Text) : Option Bytes :=
  (text.mapM value?).bind fun values => octets? (values.flatMap (bits 5))

theorem value?_letterOf {bs : List Bool} (h : bs.length = 5) :
    value? (letterOf bs) = some (number bs) := by
  have hall : ∀ n < 32, value? (alphabet.getD n 0) = some n := by decide +kernel
  refine hall _ ?_
  have hlt := number_lt bs
  rwa [h] at hlt

/-- The letters for a row of bits are read as the bits, and fewer than five zeros behind them. -/
theorem mapM_value?_spell (bs : List Bool) :
    ∃ values k, (spell bs).mapM value? = some values ∧ k < 5 ∧
      values.flatMap (bits 5) = bs ++ List.replicate k false := by
  fun_induction spell bs with
  | case1 a b c d e rest ih =>
    obtain ⟨values, k, hvalues, hk, hbits⟩ := ih
    have hletter : value? (letterOf [a, b, c, d, e]) = some (number [a, b, c, d, e]) :=
      value?_letterOf rfl
    refine ⟨number [a, b, c, d, e] :: values, k, ?_, hk, ?_⟩
    · rw [List.mapM_cons, hletter, hvalues]
      rfl
    · rw [List.flatMap_cons, hbits]
      exact congrArg (· ++ _) (bits_number [a, b, c, d, e])
  | case2 => exact ⟨[], 0, rfl, by decide, rfl⟩
  | case3 last hfive hnil =>
    have hpos : 0 < last.length := List.length_pos_iff.2 hnil
    have hlt : last.length < 5 := length_lt_five hfive
    have hlength : (last ++ List.replicate (5 - last.length) false).length = 5 := by
      rw [List.length_append, List.length_replicate]
      omega
    have hfilled := bits_number (last ++ List.replicate (5 - last.length) false)
    rw [hlength] at hfilled
    refine ⟨[number (last ++ List.replicate (5 - last.length) false)], 5 - last.length, ?_,
      by omega, ?_⟩
    · rw [List.mapM_cons, value?_letterOf hlength]
      rfl
    · rw [List.flatMap_singleton, hfilled]

theorem octets?_bitsOf (bytes : Bytes) {k : Nat} (hk : k < 5) :
    octets? (bitsOf bytes ++ List.replicate k false) = some bytes := by
  induction bytes with
  | nil =>
    match k, hk with
    | 0, _ | 1, _ | 2, _ | 3, _ | 4, _ => rfl
  | cons b rest ih =>
    have hbyte : UInt8.ofNat (number (bits 8 b.toNat)) = b := by
      rw [number_bits, Nat.mod_eq_of_lt b.toNat_lt, UInt8.ofNat_toNat]
    have hcons (bs : List Bool) : octets? (bits 8 b.toNat ++ bs) =
        (octets? bs).map (UInt8.ofNat (number (bits 8 b.toNat)) :: ·) := rfl
    rw [bitsOf_cons, List.append_assoc, hcons, ih, hbyte]
    rfl

/-- A text that was written is read back. -/
theorem decode?_encode (bytes : Bytes) : decode? (encode bytes) = some bytes := by
  obtain ⟨values, k, hvalues, hk, hbits⟩ := mapM_value?_spell (bitsOf bytes)
  rw [decode?, encode_eq_spell, hvalues]
  dsimp only [Option.bind_some]
  rw [hbits, octets?_bitsOf bytes hk]

/-- No two byte strings have one text. -/
theorem encode_injective : Function.Injective encode := by
  intro a b h
  have hread := decode?_encode a
  rw [h, decode?_encode] at hread
  exact (Option.some.inj hread).symm

end CarSlice.Base32
