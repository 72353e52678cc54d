import CarSlice.Archive.Block
import CarSlice.Protobuf

/-!
# UnixFS nodes

A file that is spread over blocks is a tree. An inner block is a dag-pb node
whose links name the children and whose data message says how many bytes of the
file each child holds. `Node.decode?` reads such a node, and `Content.ofBlock`
decides for any block what it contributes to a file: the metadata of a node, or
plain bytes.
-/

namespace CarSlice.UnixFs

/-- What a node stands for. -/
inductive NodeKind where
  | raw
  | directory
  | file
  | metadata
  | symlink
  | hamtShard
  deriving Repr, DecidableEq

/-- The kind with a number in the data message. -/
def NodeKind.ofNumber? : Nat → Option NodeKind
  | 0 => some .raw
  | 1 => some .directory
  | 2 => some .file
  | 3 => some .metadata
  | 4 => some .symlink
  | 5 => some .hamtShard
  | _ => none

/-- The name of a kind. -/
def NodeKind.name : NodeKind → Text
  | .raw => utf8 "raw"
  | .directory => utf8 "directory"
  | .file => utf8 "file"
  | .metadata => utf8 "metadata"
  | .symlink => utf8 "symlink"
  | .hamtShard => utf8 "hamt-shard"

/-- The metadata of a node. -/
structure Node where
  kind : NodeKind
  /-- How many bytes of the file each child holds, in the order of the links. -/
  childSizes : List Nat
  linkCount : Nat
  /-- How many bytes of the file the node itself holds. -/
  inlineSize : Nat
  /-- How many bytes of the file the node says it spans. -/
  filesize : Option Nat
  deriving Repr, DecidableEq

namespace Node

/-- Whether the node holds its bytes itself: a file or raw node without links. -/
def isInlineLeaf (n : Node) : Bool :=
  n.linkCount == 0 && (n.kind == .file || n.kind == .raw)

/-- Whether every link has a size. -/
def sizesMatchLinks (n : Node) : Bool :=
  n.childSizes.length == n.linkCount

/-- How many bytes of the file the node spans by the sizes of its parts. -/
def contentSize (n : Node) : Nat :=
  n.childSizes.foldl satAdd n.inlineSize

/-- How many bytes of the file the node spans by its own account, if it gives
one. -/
def declaredSize (n : Node) : Nat :=
  n.filesize.getD n.contentSize

/-- Whether the node's own account, if it gives one, agrees with its parts. -/
def filesizeAgrees (n : Node) : Bool :=
  n.filesize.all (· == n.contentSize)

end Node

/-! ## The data message -/

/-- What a field of a data message says. -/
inductive Entry where
  | kind (kind : NodeKind)
  | inlineSize (size : Nat)
  | filesize (size : Nat)
  | childSizes (sizes : List Nat)
  /-- Hash type, fanout, mode and time say nothing about sizes. -/
  | other
  deriving Repr, DecidableEq

/-- The entry of a field, if the field is written as it must be. -/
def Entry.ofField? (field : Protobuf.Field) : Option Entry :=
  match field.number, field.value with
  | 1, .varint n => (NodeKind.ofNumber? n).map .kind
  | 1, _ => none
  | 2, .delimited bytes => some (.inlineSize bytes.length)
  | 2, _ => none
  | 3, .varint n => some (.filesize n)
  | 3, _ => none
  | 4, .varint n => some (.childSizes [n])
  | 4, .delimited bytes =>
    match Protobuf.unpack bytes with
    | (sizes, true) => some (.childSizes sizes)
    | (_, false) => none
  | 4, _ => none
  | _, _ => some .other

/-- The kind that an entry gives. -/
def Entry.kind? : Entry → Option NodeKind
  | .kind k => some k
  | _ => none

/-- The size of the node's own bytes that an entry gives. -/
def Entry.inlineSize? : Entry → Option Nat
  | .inlineSize n => some n
  | _ => none

/-- The size of the file that an entry gives. -/
def Entry.filesize? : Entry → Option Nat
  | .filesize n => some n
  | _ => none

/-- The sizes of children that an entry gives. -/
def Entry.sizes : Entry → List Nat
  | .childSizes ns => ns
  | _ => []

/-- The entries of a data message, which must give a kind. -/
def entries? (data : Bytes) : Option (List Entry) :=
  let message := Protobuf.split data
  if message.valid then
    (message.fields.mapM Entry.ofField?).filter fun entries =>
      entries.any fun entry => entry.kind?.isSome
  else none

/-! ## The node -/

/-- Whether a message is a link: it must name a block in field 1. -/
def isLink (link : Bytes) : Bool :=
  let message := Protobuf.split link
  message.valid && message.fields.any fun field => field.number == 1 && field.value.wire == 2

/-- What a field of a dag-pb node holds. -/
inductive Part where
  | link
  | data (entries : List Entry)

/-- The part of a field, if the field is one that a node may have. -/
def Part.ofField? (field : Protobuf.Field) : Option Part :=
  match field.number, field.value with
  | 1, .delimited bytes => (entries? bytes).map .data
  | 2, .delimited bytes => if isLink bytes then some .link else none
  | _, _ => none

/-- Whether a part is a link. -/
def Part.isLink : Part → Bool
  | .link => true
  | .data _ => false

/-- The entries of a part. -/
def Part.entries : Part → List Entry
  | .link => []
  | .data entries => entries

/-- The node that parts make up. Of several kinds and sizes the last counts, and
the sizes of children add up. A node without data has no kind and is none. -/
def Node.ofParts? (parts : List Part) : Option Node :=
  let entries := parts.flatMap Part.entries
  (entries.filterMap Entry.kind?).getLast?.map fun kind =>
    { kind
      childSizes := entries.flatMap Entry.sizes
      linkCount := parts.countP Part.isLink
      inlineSize := (entries.filterMap Entry.inlineSize?).getLast?.getD 0
      filesize := (entries.filterMap Entry.filesize?).getLast? }

/-- Reads the payload of a dag-pb block that holds a UnixFS node. -/
def Node.decode? (payload : Bytes) : Option Node :=
  let message := Protobuf.split payload
  if message.valid then (message.fields.mapM Part.ofField?).bind Node.ofParts? else none

/-! ## Contents of blocks -/

/-- What a block contributes to a file. -/
inductive Content where
  /-- A node with metadata. -/
  | node (node : Node)
  /-- So many bytes, and no metadata. -/
  | bytes (size : Nat)
  deriving Repr, DecidableEq

/-- What a payload contributes under a codec. A dag-pb payload that is no node
counts as plain bytes. -/
def Content.ofPayload (tag : Codec.Tag) (payload : Bytes) : Content :=
  if tag = .dagPb then
    match Node.decode? payload with
    | some n => .node n
    | none => .bytes payload.length
  else .bytes payload.length

/-- What a block contributes. -/
def Content.ofBlock (block : Archive.Block) : Content :=
  .ofPayload block.cid.tag block.payload

end CarSlice.UnixFs
