import CarSlice.Layout

/-!
# Selecting the blocks of a range

A selection goes over placements in order and says of each whether its block is
needed for a range of the file. It counts down the bytes before the start and
before the end of the range; every placement takes its length off both.

If the range ends where the file ends, only the end of the file's tree satisfies
the selection, so that children without bytes at the end are kept. A mismatch
turns it into passing everything through, since blocks that were dropped cannot
be called back.
-/

namespace CarSlice

/-- Where a selection stands. -/
inductive Phase where
  /-- Nothing was dropped and no byte of the range was seen. -/
  | awaitingStructure
  /-- Blocks before the range are dropped. -/
  | discarding
  /-- Blocks of the range are kept. -/
  | emitting
  /-- The range is complete. -/
  | satisfied
  /-- Everything is kept. -/
  | passthrough
  deriving Repr, DecidableEq

/-- The name of a phase. -/
def Phase.name : Phase → Text
  | .awaitingStructure => utf8 "awaiting_structure"
  | .discarding => utf8 "discarding"
  | .emitting => utf8 "emitting"
  | .satisfied => utf8 "satisfied"
  | .passthrough => utf8 "passthrough"

/-- What becomes of a block. -/
inductive Decision where
  | emit
  | drop
  deriving Repr, DecidableEq

/-- A range that is being selected. -/
structure Selection where
  /-- How many bytes are left before the start of the range. -/
  startRemaining : Nat
  /-- How many bytes are left before the end of the range. -/
  endRemaining : Nat
  /-- Whether the range ends where the file ends. -/
  endsWithFile : Bool
  phase : Phase := .awaitingStructure
  /-- Whether a mismatch came after the selection had begun. -/
  lateMismatch : Bool := false
  deriving Repr, DecidableEq

namespace Selection

/-- The selection of the range from `start` to `stop` in a file whose size may be
known. -/
def ofRange (start stop : Nat) (fileSize : Option Nat) : Selection :=
  { startRemaining := start, endRemaining := stop, endsWithFile := fileSize == some stop }

/-- Whether the range is complete. -/
def isSatisfied (s : Selection) : Bool :=
  s.phase == .satisfied

/-- Whether the end of the range ends the work. -/
def exitsEarly (s : Selection) : Bool :=
  s.phase != .passthrough

/-- Keeps everything from here on. -/
def passThrough (s : Selection) : Selection :=
  { s with phase := .passthrough }

/-- The tree of the file is complete: no more bytes of it can come. -/
def fileComplete (s : Selection) : Selection :=
  if s.phase = .passthrough then s else { s with phase := .satisfied }

/-- Takes a length off both counts. -/
def consume (s : Selection) (length : Nat) : Selection :=
  { s with
    startRemaining := s.startRemaining - length
    endRemaining := s.endRemaining - length }

/-- Whether a block of the given length lies before the start of the range. -/
def isBefore (s : Selection) (length : Nat) : Bool :=
  0 < s.startRemaining && length ≤ s.startRemaining

/-- Counts a block of the range and notices the end of the range. -/
def emitSpan (s : Selection) (length : Nat) : Selection :=
  let s :=
    if !s.endsWithFile && s.endRemaining ≤ length then { s with phase := .satisfied } else s
  s.consume length

/-- Decides on a block that spans so many bytes of the file. -/
def decideSpan (s : Selection) (length : Nat) (isStructural : Bool) : Decision × Selection :=
  if s.phase = .awaitingStructure ∨ s.phase = .discarding then
    if s.isBefore length then
      if isStructural then (.emit, s.consume length)
      else (.drop, { s with phase := .discarding }.consume length)
    else if isStructural && length == 0 then (.emit, s)
    else (.emit, { s with phase := .emitting }.emitSpan length)
  else (.emit, s.emitSpan length)

/-- Decides on a placement. -/
def decide (s : Selection) (placement : Placement) : Decision × Selection :=
  match s.phase with
  | .passthrough => (.emit, s)
  | .satisfied => (.drop, s)
  | _ =>
    match placement with
    | .mismatch .. =>
      (.emit, { s with lateMismatch := s.phase != .awaitingStructure, phase := .passthrough })
    | .detached _ => (.drop, s)
    | .structural i => s.decideSpan i.length true
    | .leaf i => s.decideSpan i.length false

end Selection

end CarSlice
