import CarSlice.Bytes

/-!
# CBOR items

The strict form that DAG-CBOR allows: every length is definite, and additional
information 28 to 31 is refused.

Each reader takes one thing from the front of a byte string and gives what
follows it, or nothing. `skip?` passes over a whole item of any kind up to a
nesting depth. `Cursor` runs these readers one after the other over a buffer and
stays where it is when one of them fails.
-/

namespace CarSlice.Cbor

/-- The kinds of item. -/
inductive Major where
  | unsigned
  | negative
  | bytes
  | text
  | array
  | map
  | tag
  | simple
  deriving Repr, DecidableEq

/-- The number of a kind, as the top three bits of an item's first byte hold it. -/
def Major.code : Major → Nat
  | .unsigned => 0
  | .negative => 1
  | .bytes => 2
  | .text => 3
  | .array => 4
  | .map => 5
  | .tag => 6
  | .simple => 7

/-- The kind with a number below eight. -/
def Major.ofCode : Nat → Major
  | 0 => .unsigned
  | 1 => .negative
  | 2 => .bytes
  | 3 => .text
  | 4 => .array
  | 5 => .map
  | 6 => .tag
  | _ => .simple

/-- The beginning of an item: its kind and its number, length, count or tag. -/
structure Head where
  major : Major
  argument : Nat
  deriving Repr, DecidableEq

/-- The tag of a link to a CID. -/
def linkTag : Nat := 42

/-! ## Writing -/

/-- The shortest form of a head. -/
def Head.encode (head : Head) : Bytes :=
  let first (additional : Nat) : UInt8 := UInt8.ofNat (32 * head.major.code + additional)
  if head.argument < 24 then [first head.argument]
  else if head.argument < 0x100 then first 24 :: bigEndian 1 head.argument
  else if head.argument < 0x10000 then first 25 :: bigEndian 2 head.argument
  else if head.argument < 0x100000000 then first 26 :: bigEndian 4 head.argument
  else first 27 :: bigEndian 8 head.argument

/-- A text item. -/
def encodeText (s : Text) : Bytes :=
  Head.encode ⟨.text, s.length⟩ ++ s

/-- A byte string item. -/
def encodeBytes (s : Bytes) : Bytes :=
  Head.encode ⟨.bytes, s.length⟩ ++ s

/-! ## Reading -/

/-- Reads the head of an item, of any width. -/
def head? : Bytes → Option (Head × Bytes)
  | [] => none
  | first :: rest =>
    let major := Major.ofCode (first.toNat / 32)
    let additional := first.toNat % 32
    if additional < 24 then some (⟨major, additional⟩, rest)
    else if additional ≤ 27 then
      (takeExactly? (1 <<< (additional - 24)) rest).map fun (value, rest) =>
        (⟨major, bigEndianValue value⟩, rest)
    else none

/-- Reads an unsigned integer. -/
def unsigned? (s : Bytes) : Option (Nat × Bytes) :=
  match head? s with
  | some (⟨.unsigned, value⟩, rest) => some (value, rest)
  | _ => none

/-- Reads the head of an item of the given kind, and as many bytes as it names. -/
def payload? (major : Major) (s : Bytes) : Option (Bytes × Bytes) :=
  match head? s with
  | some (head, rest) =>
    if head.major = major then takeExactly? head.argument rest else none
  | none => none

/-- Reads a text item. -/
def text? (s : Bytes) : Option (Text × Bytes) :=
  payload? .text s

/-- Reads a byte string item. -/
def bytes? (s : Bytes) : Option (Bytes × Bytes) :=
  payload? .bytes s

/-- Applies a step a number of times, and stops at the first failure. -/
def times {α : Type} (step : α → Option α) : Nat → α → Option α
  | 0, a => some a
  | n + 1, a =>
    match step a with
    | some a => times step n a
    | none => none

/-- Passes over an item that holds at most `levels` levels of items, itself
included. A map holds twice as many items as its count says. -/
def skipWithin : Nat → Bytes → Option Bytes
  | 0, _ => none
  | levels + 1, s =>
    match head? s with
    | none => none
    | some (head, rest) =>
      match head.major with
      | .unsigned | .negative | .simple => some rest
      | .bytes | .text => (takeExactly? head.argument rest).map Prod.snd
      | .array => times (skipWithin levels) head.argument rest
      | .map => times (skipWithin levels) (2 * head.argument) rest
      | .tag => skipWithin levels rest

/-- Passes over an item in which every item is enclosed by at most `maxDepth`
arrays, maps and tags. -/
def skip? (maxDepth : Nat) (s : Bytes) : Option Bytes :=
  skipWithin (maxDepth + 1) s

/-! ## A place in a buffer -/

/-- The nesting depth that is allowed unless said otherwise. -/
def defaultDepth : Nat := 16

/-- What is left of a buffer and how much of it was read. -/
structure Cursor where
  unread : Bytes
  offset : Nat := 0
  maxDepth : Nat := defaultDepth

namespace Cursor

/-- Moves to what follows an item. -/
def moveTo (c : Cursor) (rest : Bytes) : Cursor :=
  { c with unread := rest, offset := c.offset + (c.unread.length - rest.length) }

/-- Runs a reader and moves behind what it read; a reader that fails moves
nothing. -/
def take {α : Type} (c : Cursor) (reader : Bytes → Option (α × Bytes)) : Option α × Cursor :=
  match reader c.unread with
  | some (a, rest) => (some a, c.moveTo rest)
  | none => (none, c)

/-- The head of the next item, without moving. -/
def peekHead (c : Cursor) : Option Head :=
  (head? c.unread).map Prod.fst

/-- Reads the head of the next item. -/
def head (c : Cursor) : Option Head × Cursor :=
  c.take head?

/-- Reads an unsigned integer. -/
def unsigned (c : Cursor) : Option Nat × Cursor :=
  c.take unsigned?

/-- Reads a text item. -/
def text (c : Cursor) : Option Text × Cursor :=
  c.take text?

/-- Reads a byte string item. -/
def bytes (c : Cursor) : Option Bytes × Cursor :=
  c.take bytes?

/-- Passes over the next item. -/
def skip (c : Cursor) : Option Unit × Cursor :=
  c.take fun s => (skip? c.maxDepth s).map fun rest => ((), rest)

/-- Whether everything was read. -/
def atEnd (c : Cursor) : Bool :=
  c.unread.isEmpty

end Cursor

end CarSlice.Cbor
