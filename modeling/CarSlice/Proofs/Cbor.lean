import CarSlice.Cbor
import Mathlib.Tactic.Ring
import Mathlib.Tactic.SplitIfs

/-!
# Items that were written

What is written in CBOR is read back, whatever follows it.  A head takes the shortest of
five widths, so its argument has to be below `2 ^ 64`; the head of every width is read by one
lemma (`head?_digits`).
-/

namespace CarSlice

/-! ## Big-endian numbers -/

@[simp] theorem length_bigEndian (count n : Nat) : (bigEndian count n).length = count := by
  induction count with
  | zero => rfl
  | succ count ih => simp [bigEndian, ih]

theorem foldl_bigEndian (count n value : Nat) :
    (bigEndian count n).foldl (fun value b => 256 * value + b.toNat) value =
      256 ^ count * value + n % 256 ^ count := by
  induction count generalizing value with
  | zero => simp [bigEndian, Nat.mod_one]
  | succ count ih =>
    have hbyte : (UInt8.ofNat (n >>> (8 * count))).toNat = n / 256 ^ count % 256 := by
      rw [UInt8.toNat_ofNat', Nat.shiftRight_eq_div_pow, Nat.pow_mul]
    rw [bigEndian, List.foldl_cons, ih, hbyte, Nat.mod_pow_succ, Nat.pow_succ]
    ring

/-- The low bytes of a number that has no more of them spell it. -/
theorem bigEndianValue_bigEndian {count n : Nat} (h : n < 256 ^ count) :
    bigEndianValue (bigEndian count n) = n := by
  have hfold := foldl_bigEndian count n 0
  rw [Nat.mod_eq_of_lt h, Nat.mul_zero, Nat.zero_add] at hfold
  exact hfold

theorem takeExactly?_append (s rest : Bytes) : takeExactly? s.length (s ++ rest) = some (s, rest) :=
  takeExactly?_eq_some_iff.2 ⟨rfl, rfl⟩

namespace Cbor

/-! ## Heads -/

@[simp] theorem Major.ofCode_code (major : Major) : ofCode major.code = major := by
  cases major <;> rfl

theorem Major.code_lt (major : Major) : major.code < 8 := by
  cases major <;> decide

/-- The first byte of a head holds its kind and, below 32, what is said with it. -/
theorem toNat_first (major : Major) {additional : Nat} (h : additional < 32) :
    (UInt8.ofNat (32 * major.code + additional)).toNat = 32 * major.code + additional := by
  have := major.code_lt
  exact UInt8.toNat_ofNat_of_lt' (by show _ < 256; omega)

theorem head?_short (major : Major) {argument : Nat} (h : argument < 24) (rest : Bytes) :
    head? (UInt8.ofNat (32 * major.code + argument) :: rest) = some (⟨major, argument⟩, rest) := by
  have hkind : (32 * major.code + argument) / 32 = major.code := by omega
  have hargument : (32 * major.code + argument) % 32 = argument := by omega
  rw [head?, toNat_first major (by omega), hkind, hargument, Major.ofCode_code]
  exact if_pos h

/-- The argument of a wide head stands behind its first byte, in one, two, four or eight
bytes. -/
theorem head?_digits (major : Major) {k : Nat} (hk : k < 4) {digits : Bytes}
    (h : digits.length = 1 <<< k) (rest : Bytes) :
    head? (UInt8.ofNat (32 * major.code + (24 + k)) :: (digits ++ rest)) =
      some (⟨major, bigEndianValue digits⟩, rest) := by
  have hkind : (32 * major.code + (24 + k)) / 32 = major.code := by omega
  have hwidth : (32 * major.code + (24 + k)) % 32 = 24 + k := by omega
  have htake := takeExactly?_append digits rest
  rw [h] at htake
  rw [head?, toNat_first major (by omega), hkind, hwidth, Major.ofCode_code]
  dsimp only
  rw [if_neg (by omega), if_pos (by omega), Nat.add_sub_cancel_left, htake, Option.map_some]

theorem head?_wide (major : Major) {k argument : Nat} (hk : k < 4)
    (h : argument < 256 ^ (1 <<< k)) (rest : Bytes) :
    head? (UInt8.ofNat (32 * major.code + (24 + k)) :: (bigEndian (1 <<< k) argument ++ rest)) =
      some (⟨major, argument⟩, rest) := by
  rw [head?_digits major hk (length_bigEndian _ _) rest, bigEndianValue_bigEndian h]

/-- The head of an item is read back. -/
theorem head?_encode {head : Head} (h : head.argument < 2 ^ 64) (rest : Bytes) :
    head? (head.encode ++ rest) = some (head, rest) := by
  obtain ⟨major, argument⟩ := head
  simp only [Head.encode]
  split_ifs with h₀ h₁ h₂ h₃
  · exact head?_short major h₀ rest
  · exact head?_wide major (k := 0) (by decide) h₁ rest
  · exact head?_wide major (k := 1) (by decide) h₂ rest
  · exact head?_wide major (k := 2) (by decide) h₃ rest
  · exact head?_wide major (k := 3) (by decide) h rest

/-! ## Items -/

theorem unsigned?_encode {n : Nat} (h : n < 2 ^ 64) (rest : Bytes) :
    unsigned? (Head.encode ⟨.unsigned, n⟩ ++ rest) = some (n, rest) := by
  rw [unsigned?, head?_encode h]

theorem payload?_encode (major : Major) {s : Bytes} (h : s.length < 2 ^ 64) (rest : Bytes) :
    payload? major (Head.encode ⟨major, s.length⟩ ++ s ++ rest) = some (s, rest) := by
  rw [List.append_assoc, payload?, head?_encode h]
  simp [takeExactly?_append]

theorem text?_encodeText {s : Text} (h : s.length < 2 ^ 64) (rest : Bytes) :
    text? (encodeText s ++ rest) = some (s, rest) :=
  payload?_encode .text h rest

theorem bytes?_encodeBytes {s : Bytes} (h : s.length < 2 ^ 64) (rest : Bytes) :
    bytes? (encodeBytes s ++ rest) = some (s, rest) :=
  payload?_encode .bytes h rest

end Cbor

end CarSlice
