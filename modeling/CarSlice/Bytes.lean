/-!
# Byte strings

Everything the program reads or writes is a byte string, read from the front.
Text is a byte string too: keys, paths and messages may hold bytes that are not
characters, and no function here decodes them.

The module gives the spellings that the rest of the library shares: literals
(`utf8`), decimal numbers (`decimal`, `number?`), hexadecimal (`hex`), big-endian
numbers (`bigEndian`), and the taking apart of byte strings by length
(`takeExactly?`) and at a separator (`splitOn`). It also holds the addition of
counters that may not wrap (`satAdd`).
-/

namespace CarSlice

/-- A string of bytes, first byte first. -/
abbrev Bytes := List UInt8

/-- Bytes that are meant to be read by people. They need not be valid UTF-8. -/
abbrev Text := Bytes

/-- The UTF-8 bytes of a literal. -/
def utf8 (s : String) : Text :=
  s.toByteArray.data.toList

/-- The byte of an ASCII character. -/
def ascii (c : Char) : UInt8 :=
  c.val.toUInt8

/-! ## Hexadecimal -/

/-- The lower-case hexadecimal digit of a number below sixteen. -/
def hexDigit (n : Nat) : UInt8 :=
  if n < 10 then UInt8.ofNat (48 + n) else UInt8.ofNat (87 + n)

/-- Two lower-case digits for each byte, high half first. -/
def hex (bytes : Bytes) : Text :=
  bytes.flatMap fun b => [hexDigit (b.toNat / 16), hexDigit (b.toNat % 16)]

/-- The value of a hexadecimal digit of either case. -/
def hexValue? (b : UInt8) : Option Nat :=
  if 48 ≤ b ∧ b ≤ 57 then some (b.toNat - 48)
  else if 97 ≤ b ∧ b ≤ 102 then some (b.toNat - 87)
  else if 65 ≤ b ∧ b ≤ 70 then some (b.toNat - 55)
  else none

/-! ## Counters -/

/-- The number of values of a 64-bit word. -/
def wordValues : Nat := 0x10000000000000000

/-- The largest value of a 64-bit counter. -/
def maxCount : Nat := 0xFFFFFFFFFFFFFFFF

/-- Addition of counters that stops at the largest 64-bit value. -/
def satAdd (a b : Nat) : Nat :=
  min (a + b) maxCount

/-! ## Decimal numbers -/

/-- The decimal digit of a number below ten. -/
def decimalDigit (n : Nat) : UInt8 :=
  UInt8.ofNat (48 + n)

/-- A number in decimal, without leading zeros. -/
def decimal (n : Nat) : Text :=
  if n < 10 then [decimalDigit n] else decimal (n / 10) ++ [decimalDigit (n % 10)]
termination_by n
decreasing_by omega

/-- The value of a string of decimal digits read after a number `value`. -/
def digitsFrom? (value : Nat) : Text → Option Nat
  | [] => some value
  | b :: rest =>
    if 48 ≤ b ∧ b ≤ 57 then digitsFrom? (10 * value + (b.toNat - 48)) rest else none

/-- Reads one or more decimal digits whose value fits 64 bits. Signs, blanks and
anything after the digits are refused; leading zeros are not. -/
def number? (s : Text) : Option Nat :=
  if s.isEmpty then none
  else (digitsFrom? 0 s).filter (· < wordValues)

/-! ## Splitting -/

/-- The first `n` bytes and what follows them, if there are so many. -/
def takeExactly? (n : Nat) (s : Bytes) : Option (Bytes × Bytes) :=
  let got := s.take n
  if got.length = n then some (got, s.drop n) else none

theorem takeExactly?_eq_some_iff {n : Nat} {s got rest : Bytes} :
    takeExactly? n s = some (got, rest) ↔ s = got ++ rest ∧ got.length = n := by
  unfold takeExactly?
  constructor
  · intro h
    dsimp only at h
    split at h
    · next hn =>
      cases h
      exact ⟨(List.take_append_drop n s).symm, hn⟩
    · cases h
  · rintro ⟨rfl, rfl⟩
    simp

/-- The parts of a text between separators. A text without separator is one
part, so the answer is never empty. -/
def splitOn (separator : UInt8) (s : Text) : List Text :=
  let part := s.takeWhile (· != separator)
  match _hrest : s.dropWhile (· != separator) with
  | [] => [part]
  | _ :: rest => part :: splitOn separator rest
termination_by s.length
decreasing_by
  have := (List.dropWhile_suffix (l := s) (· != separator)).length_le
  simp [_hrest] at this
  omega

/-- The text up to its first zero byte: arguments and environment values arrive
as zero-terminated strings. -/
def untilZero (s : Text) : Text :=
  s.takeWhile (· != 0)

/-! ## Big-endian numbers -/

/-- The low `count` bytes of a number, most significant first. -/
def bigEndian : Nat → Nat → Bytes
  | 0, _ => []
  | count + 1, n => UInt8.ofNat (n >>> (8 * count)) :: bigEndian count n

/-- The number that bytes spell, most significant first. -/
def bigEndianValue (bytes : Bytes) : Nat :=
  bytes.foldl (fun value b => 256 * value + b.toNat) 0

end CarSlice
