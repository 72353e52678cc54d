import CarSlice.Base32
import CarSlice.Base58
import CarSlice.Multihash
import CarSlice.Varint

/-!
# Content identifiers

A CID names a block by the codec of its content and a multihash of its bytes.
Version 0 is a bare SHA-256 multihash and implies the codec dag-pb; version 1
writes version, codec, hash code, digest length and digest one after the other.

`decode?` reads a binary CID from the front of a byte string, `make` writes one,
and `toText` gives its text. A CID keeps its binary form exactly as it was read,
since the numbers in it may be written longer than needed.
-/

namespace CarSlice

/-! ## Codecs -/

namespace Codec

/-- Bytes without structure. -/
def raw : Nat := 0x55

/-- Nodes of a Merkle DAG in protobuf. -/
def dagPb : Nat := 0x70

/-- Nodes of a Merkle DAG in CBOR. -/
def dagCbor : Nat := 0x71

/-- Nodes of a Merkle DAG in JSON. -/
def dagJson : Nat := 0x0129

/-- The codecs that are told apart when a block is classified. -/
inductive Tag where
  | dagPb
  | raw
  | dagCbor
  | other
  deriving Repr, DecidableEq

/-- The tag of a codec. -/
def tag (codec : Nat) : Tag :=
  if codec = dagPb then .dagPb
  else if codec = raw then .raw
  else if codec = dagCbor then .dagCbor
  else .other

/-- The name of a codec in listings. -/
def name (codec : Nat) : Text :=
  if codec = dagPb then utf8 "dag-pb"
  else if codec = raw then utf8 "raw"
  else if codec = dagCbor then utf8 "dag-cbor"
  else if codec = dagJson then utf8 "dag-json"
  else utf8 "unknown"

end Codec

/-- A content identifier. -/
structure Cid where
  version : Nat
  codec : Nat
  hashCode : Nat
  digest : Bytes
  /-- The binary form exactly as it was read or made. -/
  bytes : Bytes
  deriving Repr, DecidableEq

namespace Cid

/-- The longest digest a CID may carry. -/
def maxDigest : Nat := 128

/-- The length of a binary CID of version 0. -/
def sizeV0 : Nat := 34

/-! ## Binary form -/

/-- Reads a CID of version 1. -/
def decodeV1? (src : Bytes) : Option (Cid × Bytes) :=
  match Varint.read? src with
  | some (1, s) => do
    let (codec, s) ← Varint.read? s
    let (hashCode, s) ← Varint.read? s
    let (size, s) ← Varint.read? s
    if maxDigest < size then none
    else
      let (digest, rest) ← takeExactly? size s
      let bytes := src.take (src.length - rest.length)
      some ({ version := 1, codec, hashCode, digest, bytes }, rest)
  | _ => none

/-- Reads a CID from the front of a byte string and gives what follows it. Thirty-four
bytes or more that begin with the code and length of a SHA-256 digest are
version 0. -/
def decode? (src : Bytes) : Option (Cid × Bytes) :=
  if sizeV0 ≤ src.length ∧ src.take 2 = [0x12, 0x20] then
    let bytes := src.take sizeV0
    some ({ version := 0, codec := Codec.dagPb, hashCode := Multihash.sha2_256,
            digest := bytes.drop 2, bytes }, src.drop sizeV0)
  else decodeV1? src

/-- How many bytes the CID at the front of a byte string takes, and zero when
there is none. -/
def consumed (src : Bytes) : Nat :=
  match decode? src with
  | some (_, rest) => src.length - rest.length
  | none => 0

/-- The CID of a digest. Version 0 is written as the bare multihash, whatever the
codec and the hash function. -/
def make (version codec hashCode : Nat) (digest : Bytes) : Cid :=
  let multihash := Varint.encode hashCode ++ Varint.encode digest.length ++ digest
  { version, codec, hashCode, digest
    bytes :=
      if version = 0 then multihash
      else Varint.encode version ++ Varint.encode codec ++ multihash }

/-! ## Text -/

/-- Version 0 is base 58; every other version is base 32 behind the letter that
names it. -/
def toText (cid : Cid) : Text :=
  if cid.version = 0 then Base58.encode cid.bytes
  else ascii 'b' :: Base32.encode cid.bytes

/-- The tag of the codec. -/
def tag (cid : Cid) : Codec.Tag :=
  Codec.tag cid.codec

end Cid

end CarSlice
