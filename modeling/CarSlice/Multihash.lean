import CarSlice.Sha2

/-!
# Multihash

A multihash names its hash function by a code. `check` recomputes the function
over some data and compares the result with an expected digest in full.
-/

namespace CarSlice.Multihash

/-- The code of the identity function: the digest is the data itself. -/
def identity : Nat := 0x00

/-- The code of SHA-256. -/
def sha2_256 : Nat := 0x12

/-- The code of SHA-512. -/
def sha2_512 : Nat := 0x13

/-- The function that a code names, if it is one that can be recomputed. -/
def function? (code : Nat) : Option (Bytes → Bytes) :=
  if code = identity then some id
  else if code = sha2_256 then some Sha2.sha256
  else if code = sha2_512 then some Sha2.sha512
  else none

/-- What comparing a digest with its data shows. -/
inductive Check where
  | matching
  | differing
  /-- The code names no function that can be recomputed. -/
  | unsupported
  deriving Repr, DecidableEq

/-- Compares an expected digest with the digest of the data. -/
def check (code : Nat) (expected data : Bytes) : Check :=
  match function? code with
  | none => .unsupported
  | some hash => if hash data == expected then .matching else .differing

end CarSlice.Multihash
