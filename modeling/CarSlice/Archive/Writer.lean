import CarSlice.Archive.Block
import CarSlice.Archive.Header
import CarSlice.Sink

/-!
# Writing an archive

A writer passes header and blocks on exactly as they were framed. Nothing is
encoded again, so what it writes verifies against the same CIDs. The header
comes first and only once.
-/

namespace CarSlice.Archive

/-- A writer and what it has written. -/
structure Writer where
  sink : Sink
  headerWritten : Bool := false
  bytesWritten : Nat := 0
  blocksWritten : Nat := 0
  deriving Repr, DecidableEq

namespace Writer

/-- Passes bytes to the sink and counts them. -/
def emit (w : Writer) (bytes : Bytes) : Except Error Unit × Writer :=
  match w.sink.write bytes with
  | (.error e, sink) => (.error e, { w with sink })
  | (.ok (), sink) =>
    (.ok (), { w with sink, bytesWritten := satAdd w.bytesWritten bytes.length })

/-- Writes the frame of the header. -/
def writeHeader (w : Writer) (frame : Bytes) : Except Error Unit × Writer :=
  if w.headerWritten then (.error .headerTwice, w)
  else
    match w.emit frame with
    | (.error e, w) => (.error e, w)
    | (.ok (), w) => (.ok (), { w with headerWritten := true })

/-- Writes the frame of a block. -/
def writeBlock (w : Writer) (frame : Bytes) : Except Error Unit × Writer :=
  if w.headerWritten then
    match w.emit frame with
    | (.error e, w) => (.error e, w)
    | (.ok (), w) => (.ok (), { w with blocksWritten := w.blocksWritten + 1 })
  else (.error .blockBeforeHeader, w)

/-- Flushes the sink. -/
def flush (w : Writer) : Except Error Unit × Writer :=
  match w.sink.flush with
  | (result, sink) => (result, { w with sink })

end Writer

end CarSlice.Archive
