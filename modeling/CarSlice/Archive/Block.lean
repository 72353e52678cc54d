import CarSlice.Cid

/-!
# Blocks

A block is a section of an archive: the length of the section, a CID, and the
payload that the CID names. `frame` is the section as it stands in the archive.
-/

namespace CarSlice.Archive

/-- A section of an archive. -/
structure Block where
  /-- The length of the rest of the section, exactly as it was written. -/
  lengthBytes : Bytes
  cid : Cid
  payload : Bytes
  deriving Repr, DecidableEq

namespace Block

/-- The section exactly as it stands in the archive. -/
def frame (b : Block) : Bytes :=
  b.lengthBytes ++ b.cid.bytes ++ b.payload

/-- Where in the frame the payload begins. -/
def payloadOffset (b : Block) : Nat :=
  b.lengthBytes.length + b.cid.bytes.length

end Block

end CarSlice.Archive
