import CarSlice.Bytes

/-!
# Base 58

Base 58 with the Bitcoin alphabet: the input is one big-endian number written in
base 58, and every leading zero byte is written as the letter for zero.

`encode` works by long multiplication in a row of digits of fixed length, least
significant digit first, and stops at the first place where there is nothing more
to multiply or to carry. The row has `138 * n / 100 + 1` places for `n` bytes,
which is enough because `256 ^ 100 < 58 ^ 138`.
-/

namespace CarSlice.Base58

/-- The letters for the values 0 to 57. -/
def alphabet : Text :=
  utf8 "123456789ABCDEFGHJKLMNPQRSTUVWXYZabcdefghijkmnopqrstuvwxyz"

/-- The letter for a digit. -/
def letter (digit : UInt8) : UInt8 :=
  alphabet.getD digit.toNat 0

/-- A row of digits, least significant first, that bytes are taken into. -/
structure Row where
  digits : List UInt8
  /-- How many places the last multiplication went through. All behind them are
  zeros. -/
  used : Nat := 0
  /-- What the last multiplication carried out of the last place. It is lost. -/
  carry : UInt32 := 0
  deriving Repr, DecidableEq

/-- Multiplies digits by 256 and adds a carry. Of the places, the first `used` are
gone through, and then those that something is carried to. -/
def multiplyAdd (carry : UInt32) (used : Nat) : List UInt8 → Row
  | [] => { digits := [], carry := carry }
  | digit :: digits =>
    if carry = 0 ∧ used = 0 then { digits := digit :: digits }
    else
      let total := carry + 256 * digit.toUInt32
      let row := multiplyAdd (total / 58) (used - 1) digits
      { row with digits := (total % 58).toUInt8 :: row.digits, used := row.used + 1 }

/-- Takes the next byte of a big-endian number. -/
def Row.push (row : Row) (b : UInt8) : Row :=
  multiplyAdd b.toUInt32 row.used row.digits

/-- The row of the given length that holds a big-endian number. -/
def Row.ofBytes (places : Nat) (bytes : Bytes) : Row :=
  bytes.foldl push { digits := List.replicate places 0 }

/-- How many digits are set aside for `n` bytes. -/
def places (n : Nat) : Nat :=
  n * 138 / 100 + 1

/-- The base 58 text of a byte string. -/
def encode (bytes : Bytes) : Text :=
  let zeros := bytes.takeWhile (· == 0)
  let rest := bytes.dropWhile (· == 0)
  let row := Row.ofBytes (places rest.length) rest
  List.replicate zeros.length (letter 0) ++ (row.digits.reverse.dropWhile (· == 0)).map letter

end CarSlice.Base58
