import CarSlice.Archive.Block
import CarSlice.Archive.Header
import CarSlice.Source

/-!
# Reading an archive

An archive is a header followed by sections, each behind its length. `readHeader`
and `next` take exactly the bytes of one element from the source and never read
ahead of it. After a failure the reader goes on where it stopped.

A section of length zero ends the archive, or is an error if `emptyEndsArchive`
is off.
-/

namespace CarSlice.Archive

/-- What a reader accepts and checks. -/
structure ReaderOptions where
  maxHeaderSize : Nat := 1024 * 1024
  maxSectionSize : Nat := 4 * 1024 * 1024
  /-- Whether a section of length zero ends the archive. -/
  emptyEndsArchive : Bool := true
  /-- Whether payloads are compared with the digests of their CIDs. -/
  verifyDigests : Bool := false
  deriving Repr, DecidableEq

/-- A reader and its place in the archive. -/
structure Reader where
  source : Source
  options : ReaderOptions
  /-- The header, once it was read. -/
  header : Option Header := none
  bytesConsumed : Nat := 0
  blocksRead : Nat := 0
  /-- How many blocks had a hash function that cannot be recomputed. -/
  unverified : Nat := 0
  deriving Repr, DecidableEq

namespace Reader

/-! ## Lengths and bodies -/

/-- A failure of the framing at the present place. -/
def framingError (r : Reader) (fault : FramingFault) : Error :=
  .framing fault r.bytesConsumed

/-- Reads a length a byte at a time, given the bytes of it that were read. The
answer is the length and its bytes, or nothing at the end of the source. -/
def readLength (r : Reader) (acc : Varint.Accumulator) (seen : Bytes) :
    Except Error (Option (Nat × Bytes)) × Reader :=
  match r.source.read 1 with
  | (.error e, source) => (.error e, { r with source })
  | (.ok [], source) =>
    let r := { r with source }
    if acc.started then (.error (r.framingError .lengthTruncated), r) else (.ok none, r)
  | (.ok (b :: _), source) =>
    let r := { r with source, bytesConsumed := r.bytesConsumed + 1 }
    let seen := seen ++ [b]
    match _hstatus : (acc.push b).status with
    | .complete => (.ok (some ((acc.push b).value, seen)), r)
    | .overlong => (.error (r.framingError .lengthOverlong), r)
    | .needMore => r.readLength (acc.push b) seen
termination_by Varint.maxLength - acc.length
decreasing_by exact Varint.Accumulator.push_length _hstatus

/-- Reads the next length. -/
def nextLength (r : Reader) : Except Error (Option (Nat × Bytes)) × Reader :=
  r.readLength {} []

/-- Reads exactly `length` bytes; `short` is what it means if there are fewer. -/
def readBody (r : Reader) (length : Nat) (short : FramingFault) : Except Error Bytes × Reader :=
  match r.source.readFully length with
  | (.error e, source) => (.error e, { r with source })
  | (.ok body, source) =>
    let r := { r with source, bytesConsumed := r.bytesConsumed + body.length }
    if body.length = length then (.ok body, r) else (.error (r.framingError short), r)

/-! ## The header -/

/-- Reads the header from the source. -/
def readNewHeader (r : Reader) : Except Error Header × Reader :=
  match r.nextLength with
  | (.error e, r) => (.error e, r)
  | (.ok none, r) => (.error (r.framingError .headerTruncated), r)
  | (.ok (some (length, lengthBytes)), r) =>
    if length = 0 then (.error (r.framingError .headerTruncated), r)
    else if r.options.maxHeaderSize < length then (.error (r.framingError .headerTooLarge), r)
    else
      match r.readBody length .headerTruncated with
      | (.error e, r) => (.error e, r)
      | (.ok body, r) =>
        match Header.decode body with
        | .error fault => (.error (.header fault), r)
        | .ok header =>
          let header := { header with frame := lengthBytes ++ body }
          (.ok header, { r with header := some header })

/-- The header, which is read from the source the first time. -/
def readHeader (r : Reader) : Except Error Header × Reader :=
  match r.header with
  | some header => (.ok header, r)
  | none => r.readNewHeader

/-! ## Sections -/

/-- Compares the digest of a block with that of its CID. -/
def verify (r : Reader) (block : Block) : Except Error Unit × Reader :=
  if r.options.verifyDigests then
    match Multihash.check block.cid.hashCode block.cid.digest block.payload with
    | .matching => (.ok (), r)
    | .unsupported => (.ok (), { r with unverified := r.unverified + 1 })
    | .differing => (.error (.digestMismatch block.cid.toText), r)
  else (.ok (), r)

/-- Reads the section of a given length that follows. -/
def readSection (r : Reader) (length : Nat) (lengthBytes : Bytes) : Except Error Block × Reader :=
  match r.readBody length .sectionTruncated with
  | (.error e, r) => (.error e, r)
  | (.ok body, r) =>
    match Cid.decode? body with
    | none => (.error (r.framingError .badCid), r)
    | some (cid, payload) =>
      let block : Block := { lengthBytes := lengthBytes, cid := cid, payload := payload }
      match { r with blocksRead := r.blocksRead + 1 }.verify block with
      | (.error e, r) => (.error e, r)
      | (.ok (), r) => (.ok block, r)

/-- Reads the next section; the header must have been read. Nothing is the end
of the archive. -/
def nextSection (r : Reader) : Except Error (Option Block) × Reader :=
  match r.nextLength with
  | (.error e, r) => (.error e, r)
  | (.ok none, r) => (.ok none, r)
  | (.ok (some (length, lengthBytes)), r) =>
    if length = 0 then
      if r.options.emptyEndsArchive then (.ok none, r)
      else (.error (r.framingError .sectionEmpty), r)
    else if r.options.maxSectionSize < length then (.error (r.framingError .sectionTooLarge), r)
    else
      match r.readSection length lengthBytes with
      | (.error e, r) => (.error e, r)
      | (.ok block, r) => (.ok (some block), r)

/-- Reads the next block, after the header if that was not yet read. Nothing is
the end of the archive. -/
def next (r : Reader) : Except Error (Option Block) × Reader :=
  match r.readHeader with
  | (.error e, r) => (.error e, r)
  | (.ok _, r) => r.nextSection

end Reader

end CarSlice.Archive
