import CarSlice.Bytes

/-!
# Base 32

Lower-case base 32 without padding characters: every five bits of the input,
most significant first, become one letter, and the last group is filled with
zero bits.

`encode` runs a 32-bit shift register. Bits that were already written stay in
the register and are pushed out at its top; only the low `pending` bits matter,
and there are never more than twelve of them.
-/

namespace CarSlice.Base32

/-- The letters for the values 0 to 31. -/
def alphabet : Text :=
  utf8 "abcdefghijklmnopqrstuvwxyz234567"

/-- The letter for the low five bits of a word. -/
def letter (group : UInt32) : UInt8 :=
  alphabet.getD (group &&& 0x1F).toNat 0

/-- The letters of the complete groups among the low `pending` bits. -/
def drain (register : UInt32) (pending : Nat) : Text :=
  if 5 ≤ pending then
    letter (register >>> UInt32.ofNat (pending - 5)) :: drain register (pending - 5)
  else []
termination_by pending

/-- Encodes the rest of the input, with the low `pending` bits of the register
not yet written. -/
def encodeFrom (register : UInt32) (pending : Nat) : Bytes → Text
  | [] =>
    if 0 < pending then [letter (register <<< UInt32.ofNat (5 - pending))] else []
  | b :: rest =>
    let register := register <<< 8 ||| b.toUInt32
    drain register (pending + 8) ++ encodeFrom register ((pending + 8) % 5) rest

/-- The base 32 text of a byte string. -/
def encode (bytes : Bytes) : Text :=
  encodeFrom 0 0 bytes

end CarSlice.Base32
