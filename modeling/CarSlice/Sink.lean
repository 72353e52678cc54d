import CarSlice.Error

/-!
# Sinks for bytes

A sink takes a write whole or refuses it whole. It may have a budget of bytes: a
`guarded` sink refuses what is larger than the budget left and goes on, a
`stream` fails at such a write and stays failed.
-/

namespace CarSlice

/-- How a sink behaves when it cannot take a write. -/
inductive SinkKind where
  /-- It can always take a write. -/
  | memory
  /-- It refuses the write and says why. -/
  | guarded (reason : Text)
  /-- It fails for good. If `failsOnFlush`, a flush makes it fail too. -/
  | stream (failsOnFlush : Bool)
  deriving Repr, DecidableEq

/-- A sink for bytes. -/
structure Sink where
  kind : SinkKind
  /-- How many bytes it still takes; none is no limit. -/
  budget : Option Nat := none
  failed : Bool := false
  /-- The writes it took, the last one first. -/
  taken : List Bytes := []
  deriving Repr, DecidableEq

namespace Sink

/-- A sink that takes everything. -/
def unlimited : Sink :=
  { kind := .memory }

/-- The writes that the sink took, in order. -/
def writes (s : Sink) : List Bytes :=
  s.taken.reverse

/-- The bytes that reached the sink. -/
def output (s : Sink) : Bytes :=
  s.writes.flatten

/-- Whether a write of `n` bytes fits the budget. -/
def fits (s : Sink) (n : Nat) : Bool :=
  match s.budget with
  | none => true
  | some left => n ≤ left

/-- Takes a write. -/
def take (s : Sink) (bytes : Bytes) : Sink :=
  { s with budget := s.budget.map (· - bytes.length), taken := bytes :: s.taken }

/-- One write. -/
def write (s : Sink) (bytes : Bytes) : Except Error Unit × Sink :=
  match s.kind with
  | .memory => (.ok (), s.take bytes)
  | .guarded reason =>
    if s.fits bytes.length then (.ok (), s.take bytes)
    else (.error (.sinkFailed (some reason)), s)
  | .stream _ =>
    if !s.failed && s.fits bytes.length then (.ok (), s.take bytes)
    else (.error (.sinkFailed none), { s with failed := true })

/-- Passes on what may be held back. -/
def flush (s : Sink) : Except Error Unit × Sink :=
  match s.kind with
  | .memory | .guarded _ => (.ok (), s)
  | .stream failsOnFlush =>
    if s.failed || failsOnFlush then (.error (.sinkFailed none), { s with failed := true })
    else (.ok (), s)

end Sink

end CarSlice
