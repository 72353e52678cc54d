import CarSlice.Cbor
import CarSlice.Cid
import CarSlice.Error

/-!
# Archive headers

The header of an archive is a CBOR map with the archive's version and the CIDs
of its roots. `decode` reads the map and `encodeBody` writes one. Other keys are
passed over; when a key comes again, the last version counts and the roots add
up.
-/

namespace CarSlice.Archive

/-- The header of an archive. -/
structure Header where
  version : Nat
  roots : List Cid
  /-- The length and the body exactly as they were read. -/
  frame : Bytes := []
  deriving Repr, DecidableEq

namespace Header

/-- The key of the roots. -/
def rootsKey : Text := utf8 "roots"

/-- The key of the version. -/
def versionKey : Text := utf8 "version"

/-- The version of the archives that are understood. -/
def supportedVersion : Nat := 1

/-! ## Writing -/

/-- A link to a binary CID: tagged bytes behind a zero byte. -/
def encodeRoot (cid : Bytes) : Bytes :=
  Cbor.Head.encode ⟨.tag, Cbor.linkTag⟩ ++ Cbor.encodeBytes (0 :: cid)

/-- The body of a header with the given binary CIDs as roots. -/
def encodeBody (roots : List Bytes) (version : Nat) : Bytes :=
  Cbor.Head.encode ⟨.map, 2⟩ ++
    (Cbor.encodeText rootsKey ++
      (Cbor.Head.encode ⟨.array, roots.length⟩ ++ roots.flatMap encodeRoot)) ++
    (Cbor.encodeText versionKey ++ Cbor.Head.encode ⟨.unsigned, version⟩)

/-! ## Reading -/

/-- The CID in the bytes of a link, which hold a zero byte and nothing else. -/
def rootOfLink (link : Bytes) : Except HeaderFault Cid :=
  match link with
  | 0 :: encoded =>
    match Cid.decode? encoded with
    | some (cid, []) => .ok cid
    | _ => .error .badRootCid
  | _ => .error .badRoot

/-- Reads a root. -/
def readRoot (s : Bytes) : Except HeaderFault (Cid × Bytes) :=
  match Cbor.head? s with
  | some (⟨.tag, tag⟩, s) =>
    if tag = Cbor.linkTag then
      match Cbor.bytes? s with
      | some (link, rest) => (rootOfLink link).map fun cid => (cid, rest)
      | none => .error .badRoot
    else .error .badRoot
  | _ => .error .badRoot

/-- Reads a number of roots. -/
def readRoots : Nat → Bytes → Except HeaderFault (List Cid × Bytes)
  | 0, s => .ok ([], s)
  | n + 1, s => do
    let (cid, s) ← readRoot s
    let (more, s) ← readRoots n s
    .ok (cid :: more, s)

/-- Reads the array of roots. -/
def readRootsArray (s : Bytes) : Except HeaderFault (List Cid × Bytes) :=
  match Cbor.head? s with
  | some (⟨.array, count⟩, s) => readRoots count s
  | _ => .error .missingRoots

/-- What an entry of the map says. -/
inductive Entry where
  | version (version : Nat)
  | roots (roots : List Cid)
  /-- An entry with another key. -/
  | other
  deriving Repr, DecidableEq

/-- The version that an entry gives. -/
def Entry.version? : Entry → Option Nat
  | .version n => some n
  | _ => none

/-- The roots that an entry gives. -/
def Entry.cids : Entry → List Cid
  | .roots cids => cids
  | _ => []

/-- Reads one entry of the map. -/
def readEntry (s : Bytes) : Except HeaderFault (Entry × Bytes) :=
  match Cbor.text? s with
  | none => .error .notMap
  | some (key, s) =>
    if key = versionKey then
      match Cbor.unsigned? s with
      | some (version, s) => .ok (.version version, s)
      | none => .error .missingVersion
    else if key = rootsKey then
      (readRootsArray s).map fun (cids, s) => (.roots cids, s)
    else
      match Cbor.skip? Cbor.defaultDepth s with
      | some s => .ok (.other, s)
      | none => .error .notMap

/-- Reads a number of entries. -/
def readEntries : Nat → Bytes → Except HeaderFault (List Entry × Bytes)
  | 0, s => .ok ([], s)
  | n + 1, s => do
    let (entry, s) ← readEntry s
    let (more, s) ← readEntries n s
    .ok (entry :: more, s)

/-- The header that entries make up. Of several versions the last counts, and the
roots add up. -/
def ofEntries (entries : List Entry) : Except HeaderFault Header :=
  match (entries.filterMap Entry.version?).getLast? with
  | none => .error .missingVersion
  | some version =>
    let roots := entries.flatMap Entry.cids
    if version ≠ supportedVersion then .error .unsupportedVersion
    else if roots.isEmpty then .error .missingRoots
    else .ok { version, roots }

/-- Reads the body of a header, which must be one map and nothing else. -/
def decode (body : Bytes) : Except HeaderFault Header :=
  match Cbor.head? body with
  | some (⟨.map, count⟩, s) =>
    match readEntries count s with
    | .ok (entries, []) => ofEntries entries
    | .ok (_, _ :: _) => .error .notMap
    | .error e => .error e
  | _ => .error .notMap

end Header

end CarSlice.Archive
