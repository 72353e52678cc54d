import CarSlice.Bytes
import Mathlib.Data.Nat.Digits.Defs

/-!
# Decimal numbers

`number?` reads one or more decimal digits, with any number of zeros in front, whose value fits a
word (`number?_eq_some_iff`).  `decimal` writes such digits (`isNumeral_decimal`) and no more of
them than need be (`length_decimal_le`).
-/

namespace CarSlice

/-- Decimal digits that spell a number, most significant first. -/
structure IsNumeral (n : Nat) (s : Text) : Prop where
  ne_nil : s ≠ []
  digit : ∀ c ∈ s, 48 ≤ c ∧ c ≤ 57
  value : Nat.ofDigits 10 (s.reverse.map fun c => c.toNat - 48) = n

theorem foldl_eq_ofDigits_ten (s : Text) :
    s.foldl (fun value c => 10 * value + (c.toNat - 48)) 0 =
      Nat.ofDigits 10 (s.reverse.map fun c => c.toNat - 48) := by
  rw [Nat.ofDigits_eq_foldr, List.foldr_map, List.foldr_reverse]
  simp only [Nat.add_comm, Nat.cast_id]

theorem digitsFrom?_eq_some_iff {value n : Nat} {s : Text} :
    digitsFrom? value s = some n ↔
      (∀ c ∈ s, 48 ≤ c ∧ c ≤ 57) ∧
        s.foldl (fun value c => 10 * value + (c.toNat - 48)) value = n := by
  induction s generalizing value with
  | nil => simp [digitsFrom?]
  | cons c s ih =>
    rw [digitsFrom?, List.forall_mem_cons, List.foldl_cons]
    split_ifs with hc
    · rw [ih, and_iff_right hc]
    · simp [hc]

/-- A number is read exactly from digits whose value fits a word. -/
theorem number?_eq_some_iff {n : Nat} {s : Text} :
    number? s = some n ↔ IsNumeral n s ∧ n < wordValues := by
  unfold number?
  constructor
  · intro h
    split_ifs at h with hnil
    obtain ⟨hdigits, hfits⟩ := Option.filter_eq_some_iff.1 h
    obtain ⟨hdigit, hvalue⟩ := digitsFrom?_eq_some_iff.1 hdigits
    rw [foldl_eq_ofDigits_ten] at hvalue
    exact ⟨⟨by simpa using hnil, hdigit, hvalue⟩, of_decide_eq_true hfits⟩
  · rintro ⟨⟨hne, hdigit, hvalue⟩, hfits⟩
    rw [if_neg (by simpa using hne)]
    rw [← foldl_eq_ofDigits_ten] at hvalue
    exact Option.filter_eq_some_iff.2
      ⟨digitsFrom?_eq_some_iff.2 ⟨hdigit, hvalue⟩, decide_eq_true hfits⟩

theorem IsNumeral.not_mem {n : Nat} {s : Text} (h : IsNumeral n s) {c : UInt8}
    (hc : ¬(48 ≤ c ∧ c ≤ 57)) : c ∉ s :=
  fun hmem => hc (h.digit c hmem)

theorem decimalDigit_spec {n : Nat} (h : n < 10) :
    (48 ≤ decimalDigit n ∧ decimalDigit n ≤ 57) ∧ (decimalDigit n).toNat - 48 = n := by
  have hall : ∀ n < 10, (48 ≤ decimalDigit n ∧ decimalDigit n ≤ 57) ∧
      (decimalDigit n).toNat - 48 = n := by decide
  exact hall n h

/-- What is written are the digits of the number. -/
theorem isNumeral_decimal (n : Nat) : IsNumeral n (decimal n) := by
  induction n using Nat.strongRecOn with
  | ind n ih =>
    rw [decimal]
    split_ifs with hlast
    · obtain ⟨hdigit, hvalue⟩ := decimalDigit_spec hlast
      exact ⟨by simp, by simpa using hdigit, by simpa using hvalue⟩
    · obtain ⟨hdigit, hvalue⟩ := decimalDigit_spec (Nat.mod_lt n (by decide : 0 < 10))
      obtain ⟨-, hdigits, hfront⟩ := ih (n / 10) (by omega)
      refine ⟨by simp, List.forall_mem_append.2 ⟨hdigits, by simpa using hdigit⟩, ?_⟩
      rw [List.reverse_append, List.map_append, Nat.ofDigits_append, hfront]
      simp only [List.reverse_singleton, List.map_singleton, Nat.ofDigits_singleton, hvalue,
        List.length_singleton, Nat.pow_one]
      exact Nat.mod_add_div n 10

theorem length_decimal_le {width n : Nat} (hwidth : 0 < width) (h : n < 10 ^ width) :
    (decimal n).length ≤ width := by
  induction width generalizing n with
  | zero => cases hwidth
  | succ width ih =>
    rw [decimal]
    split_ifs with hlast
    · simp
    · rw [List.length_append, List.length_singleton]
      have hshorter : n / 10 < 10 ^ width := by
        rw [Nat.div_lt_iff_lt_mul (by decide)]
        exact h
      have hpos : 0 < width := by
        by_contra hzero
        obtain rfl : width = 0 := by omega
        omega
      have := ih hpos hshorter
      omega

end CarSlice
