import CarSlice.Varint

/-!
# Protobuf messages

A message is a row of fields. `split` takes a message apart without a
schema: it finds the fields, their numbers and their values, and stops at the
first that is malformed. Groups are not known.
-/

namespace CarSlice.Protobuf

/-- The value of a field, by the way it is written. -/
inductive Value where
  | varint (n : Nat)
  | fixed64 (bytes : Bytes)
  | delimited (bytes : Bytes)
  | fixed32 (bytes : Bytes)
  deriving Repr, DecidableEq

/-- The number of a way of writing values. -/
def Value.wire : Value → Nat
  | .varint _ => 0
  | .fixed64 _ => 1
  | .delimited _ => 2
  | .fixed32 _ => 5

/-- A field of a message. -/
structure Field where
  number : Nat
  value : Value
  deriving Repr, DecidableEq

/-- The largest number a field may have. -/
def maxFieldNumber : Nat := 0x1FFFFFFF

/-- How many fields a message may have unless said otherwise. -/
def defaultMaxFields : Nat := 64 * 1024

/-! ## One field -/

/-- Takes as many bytes as the length in front of them says. -/
def delimited? (s : Bytes) : Option (Bytes × Bytes) :=
  match Varint.read? s with
  | some (length, s) => takeExactly? length s
  | none => none

/-- Reads a value that is written in a given way. -/
def value? (wire : Nat) (s : Bytes) : Option (Value × Bytes) :=
  match wire with
  | 0 => (Varint.read? s).map fun (n, s) => (.varint n, s)
  | 1 => (takeExactly? 8 s).map fun (bytes, s) => (.fixed64 bytes, s)
  | 2 => (delimited? s).map fun (bytes, s) => (.delimited bytes, s)
  | 5 => (takeExactly? 4 s).map fun (bytes, s) => (.fixed32 bytes, s)
  | _ => none

/-- Reads a field: a key that holds number and way of writing, and the value. -/
def field? (s : Bytes) : Option (Field × Bytes) :=
  match Varint.read? s with
  | none => none
  | some (key, s) =>
    let number := key / 8
    if number = 0 ∨ maxFieldNumber < number then none
    else (value? (key % 8) s).map fun (value, s) => ({ number := number, value := value }, s)

/-! ## Whole messages -/

/-- What was found in a message. -/
structure Message where
  /-- The fields up to the end or to the first that is malformed. -/
  fields : List Field
  /-- Whether the fields make up the whole message. -/
  valid : Bool
  deriving Repr, DecidableEq

/-- Splits a message that may have at most `room` more fields, behind the fields
that were found in front of it, the last one first. -/
def splitOnto (found : List Field) (room : Nat) (s : Bytes) : Message :=
  match room, s with
  | _, [] => { fields := found.reverse, valid := true }
  | 0, _ => { fields := found.reverse, valid := false }
  | room + 1, s =>
    match field? s with
    | some (field, s) => splitOnto (field :: found) room s
    | none => { fields := found.reverse, valid := false }

/-- Splits a message that may have at most `maxFields` fields. -/
def splitWithin (maxFields : Nat) (s : Bytes) : Message :=
  splitOnto [] maxFields s

/-- Splits a message. -/
def split (s : Bytes) : Message :=
  splitWithin defaultMaxFields s

/-- How many bytes of a message the fields account for: all of them, or none if
it is malformed. -/
def Message.consumed (m : Message) (s : Bytes) : Nat :=
  if m.valid then s.length else 0

/-! ## Packed numbers -/

/-- Reads numbers one after the other behind those that were read before, the
last one first. The answer is the numbers and whether they make up everything. -/
def unpackOnto (found : List Nat) (s : Bytes) : List Nat × Bool :=
  if s.isEmpty then (found.reverse, true)
  else
    match _h : Varint.read? s with
    | some (n, rest) => unpackOnto (n :: found) rest
    | none => (found.reverse, false)
termination_by s.length
decreasing_by exact Varint.read?_length _h

/-- The numbers of a packed field, up to the end or to the first malformed one,
and whether there was none of the latter. -/
def unpack (s : Bytes) : List Nat × Bool :=
  unpackOnto [] s

end CarSlice.Protobuf
