import CarSlice.Error

/-!
# Byte ranges

A request names the bytes of a file from a start up to an end, the end itself
not included. A range without an end reaches to the end of the file; which
offset that is shows when the file's size is known (`resolve`).
-/

namespace CarSlice

/-- A range of bytes of a file. -/
structure ByteRange where
  start : Nat
  /-- The offset behind the last byte; none for the end of the file. -/
  stop : Option Nat
  ordered : ∀ stop' ∈ stop, start ≤ stop'
  deriving DecidableEq

namespace ByteRange

/-- The range between two offsets, which must be in order. -/
def between (start stop : Nat) : Except Error ByteRange :=
  if h : start ≤ stop then
    .ok { start, stop := some stop, ordered := by simpa using h }
  else .error (.startAfterEnd start stop)

/-- The range from an offset to the end of the file. -/
def openEnded (start : Nat) : ByteRange :=
  { start, stop := none, ordered := by simp }

/-- Whether a range that ends at `stop` lies in a file of `size` bytes. An empty
file has only the empty range at its beginning. -/
def liesIn (start stop size : Nat) : Bool :=
  (start < size || (size == 0 && start == 0)) && stop ≤ size && start ≤ stop

/-- The end of a range in a file of the given size. -/
def resolve (range : ByteRange) (size : Nat) : Except Error Nat :=
  let stop := range.stop.getD size
  if liesIn range.start stop size then .ok stop
  else .error (.outsideFile range.start range.stop size)

/-- The text of a range. -/
def toText (range : ByteRange) : Text :=
  rangeText range.start range.stop

end ByteRange

end CarSlice
