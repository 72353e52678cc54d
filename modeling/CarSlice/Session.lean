import CarSlice.Archive.Reader
import CarSlice.Archive.Writer
import CarSlice.ByteRange
import CarSlice.Event
import CarSlice.Selection

/-!
# Sessions

A session passes one archive from a source to a sink and keeps only the blocks
that a range of its file needs. The root is read, and the range checked against
the file, before anything is written; the root itself is always written, since
every other block is verified from it. An archive that is not one file is passed
through unchanged.

`step` handles one block and `run` all that are left. `published` is everything
the session has said, in order. A failure ends the session and closes the
source.
-/

namespace CarSlice

open Archive (Block Header Reader ReaderOptions Writer)
open UnixFs (Content)

/-- The counts of a session, and how it ended. What is not counted block by block
is filled in when the session finishes. -/
structure Stats where
  blocksIn : Nat := 0
  blocksOut : Nat := 0
  blocksDiscarded : Nat := 0
  bytesIn : Nat := 0
  bytesOut : Nat := 0
  unverifiedBlocks : Nat := 0
  phase : Phase := .awaitingStructure
  lateMismatch : Bool := false
  incompleteFile : Bool := false
  cancelled : Bool := false
  sourceClosed : Bool := false
  deriving Repr, DecidableEq

/-- A session. -/
structure Session where
  reader : Reader
  writer : Writer
  request : ByteRange
  layout : Layout
  /-- The selection, once the root was placed. -/
  selection : Option Selection := none
  /-- The end of the range, once the size of the file was known. -/
  resolvedEnd : Option Nat := none
  stats : Stats := {}
  cancelRequested : Bool := false
  started : Bool := false
  finished : Bool := false
  /-- What the session has said, the last event first. -/
  said : List Event := []
  deriving DecidableEq

namespace Session

/-- A session that has not begun. -/
def new (source : Source) (sink : Sink) (request : ByteRange) (options : ReaderOptions)
    (retainsLayout : Bool) : Session :=
  { reader := { source := source, options := options }
    writer := { sink := sink }
    request
    layout := { retains := retainsLayout } }

/-- Where the selection stands. -/
def phase (s : Session) : Phase :=
  match s.selection with
  | some selection => selection.phase
  | none => .awaitingStructure

/-- The source of a session. -/
def source (s : Session) : Source :=
  s.reader.source

/-- The sink of a session. -/
def sink (s : Session) : Sink :=
  s.writer.sink

/-- Closes the source. -/
def closeSource (s : Session) : Session :=
  { s with reader := { s.reader with source := s.reader.source.close } }

/-- Asks for an end before the next step. -/
def cancel (s : Session) : Session :=
  { s with cancelRequested := true }

/-! ## Events -/

/-- Says something. -/
def publish (s : Session) (e : Event) : Session :=
  { s with said := e :: s.said }

/-- Everything the session has said, in order. -/
def published (s : Session) : List Event :=
  s.said.reverse

/-- A block could not be verified. -/
def unverifiedEvent (block : Block) : Event :=
  { severity := .debug
    category := .integrity
    id := utf8 "digest_unverified"
    message := utf8 "Block hash function not supported for verification"
    fields := [.text "cid" block.cid.toText, .number "hash_code" block.cid.hashCode] }

/-- Something is amiss with the archive. -/
def warningEvent (s : Session) (id message : String) (reason : Text) : Event :=
  { severity := .warning
    id := utf8 id
    message := utf8 message
    fields := [.text "reason" reason, .number "blocks_in" s.stats.blocksIn] }

/-- The phase changed. -/
def phaseEvent (s : Session) (before : Phase) : Event :=
  { severity := .debug
    id := utf8 "range_phase"
    message := utf8 "Range filter phase changed"
    fields :=
      [.text "from" before.name, .text "to" s.phase.name,
        .number "blocks_in" s.stats.blocksIn] ++
      s.layout.last.toList.map fun i => .number "file_offset" i.stop }

/-- The session ended well. -/
def completeEvent (s : Session) : Event :=
  { severity := .info
    category := .telemetry
    id := utf8 "range_session_complete"
    message := utf8 "Range session finished"
    fields :=
      [.text "range" s.request.toText, .text "phase" s.stats.phase.name,
        .number "blocks_in" s.stats.blocksIn, .number "blocks_out" s.stats.blocksOut,
        .number "bytes_in" s.stats.bytesIn, .number "bytes_out" s.stats.bytesOut] ++
      if s.stats.cancelled then
        [{ key := utf8 "cancelled", value := utf8 "true", numeric := true }]
      else [] }

/-- The session failed. -/
def failedEvent (e : Error) : Event :=
  { severity := .error
    id := utf8 "range_session_failed"
    message := e.message
    fields := .number "code" e.code :: e.context.map (.text "context") }

/-- Warns of an archive that is passed through because it is not one file. -/
def warnNotOneFile (s : Session) (reason : Mismatch) : Session :=
  s.publish <| s.warningEvent "range_passthrough"
    "Archive is not a single file DAG; forwarding unchanged" reason.text

/-- Warns of blocks that contradict what earlier blocks were dropped for. -/
def warnLate (s : Session) (reason : Mismatch) : Session :=
  s.publish <| s.warningEvent "range_late_mismatch"
    "DAG metadata contradicted after filtering started; forwarding remaining blocks" reason.text

/-- Warns of an archive without blocks. -/
def warnEmpty (s : Session) : Session :=
  s.publish <| s.warningEvent "range_passthrough" "Archive holds no blocks" (utf8 "empty archive")

/-- Warns of an archive that ended inside its file. -/
def warnIncomplete (s : Session) : Session :=
  s.publish <| s.warningEvent "range_incomplete_dag"
    "Archive ended before the file DAG was complete" (utf8 "open frames " ++ decimal s.layout.depth)

/-! ## Ends -/

/-- Ends a session that failed. -/
def fail (s : Session) (e : Error) : Session :=
  let s := { s.closeSource with finished := true, stats := { s.stats with sourceClosed := true } }
  s.publish (failedEvent e)

/-- Closes the source if nothing more of it is wanted. -/
def releaseSource (s : Session) : Session :=
  if s.stats.cancelled || s.phase == .satisfied then
    { s.closeSource with stats := { s.stats with sourceClosed := true } }
  else s

/-- The counts that are filled in at the end. -/
def finalStats (s : Session) : Stats :=
  { s.stats with
    phase := s.phase
    lateMismatch := s.selection.any (·.lateMismatch)
    bytesIn := s.reader.bytesConsumed
    bytesOut := s.writer.bytesWritten
    unverifiedBlocks := s.reader.unverified }

/-- Flushes the sink if anything was written. -/
def flush (s : Session) : Except Error Unit × Session :=
  if s.writer.headerWritten then
    match s.writer.flush with
    | (result, writer) => (result, { s with writer })
  else (.ok (), s)

/-- Ends a session. If the flush fails, the session is ended but has not said
so. -/
def finish (s : Session) : Except Error Unit × Session :=
  match ({ s with finished := true }.releaseSource).flush with
  | (.error e, s) => (.error e, s)
  | (.ok (), s) =>
    let s := { s with stats := s.finalStats }
    (.ok (), s.publish s.completeEvent)

/-! ## Blocks -/

/-- Reads a block and counts it. -/
def readBlock (s : Session) : Except Error (Option Block) × Session :=
  match s.reader.next with
  | (.error e, reader) => (.error e, { s with reader })
  | (.ok none, reader) => (.ok none, { s with reader })
  | (.ok (some block), reader) =>
    let isNew := reader.unverified != s.reader.unverified
    let s := { s with reader, stats := { s.stats with blocksIn := s.stats.blocksIn + 1 } }
    (.ok (some block), if isNew then s.publish (unverifiedEvent block) else s)

/-- Writes the header. -/
def writeHeader (s : Session) (header : Header) : Except Error Unit × Session :=
  match s.writer.writeHeader header.frame with
  | (result, writer) => (result, { s with writer })

/-- Writes a block and counts it. -/
def writeBlock (s : Session) (block : Block) : Except Error Unit × Session :=
  match s.writer.writeBlock block.frame with
  | (.error e, writer) => (.error e, { s with writer })
  | (.ok (), writer) =>
    (.ok (), { s with writer, stats := { s.stats with blocksOut := s.stats.blocksOut + 1 } })

/-- Takes note of a complete file. -/
def noteComplete (s : Session) : Session :=
  if s.layout.isComplete then { s with selection := s.selection.map (·.fileComplete) } else s

/-- Tells of a change of phase. -/
def notePhase (s : Session) (before : Phase) : Session :=
  if s.phase = before then s else s.publish (s.phaseEvent before)

/-- Ends the session if the range is complete. -/
def finishIfSatisfied (s : Session) : Except Error Unit × Session :=
  if s.phase = .satisfied then s.finish else (.ok (), s)

/-- What follows on every block that was handled in a given phase. -/
def settle (s : Session) (before : Phase) : Except Error Unit × Session :=
  (s.noteComplete.notePhase before).finishIfSatisfied

/-- Passes everything through from the beginning. -/
def passThrough (s : Session) : Session :=
  { s with selection := some (Selection.ofRange 0 0 none).passThrough }

/-- What the layout makes of the root, which must be the block that the header
names first. -/
def placeRoot (s : Session) (header : Header) (block : Block) : Placement × Layout :=
  if header.roots.head?.map (·.bytes) = some block.cid.bytes then
    s.layout.place (.ofBlock block)
  else (.mismatch 0 .notHeaderRoot, s.layout)

/-- Decides what to do with the archive by its root. -/
def selectByRoot (s : Session) (header : Header) (block : Block) : Except Error Unit × Session :=
  match s.placeRoot header block with
  | (.mismatch _ reason, layout) =>
    (.ok (), ({ s with layout }.passThrough).warnNotOneFile reason)
  | (placement, layout) =>
    let s := { s with layout }
    let size := layout.fileSize.getD 0
    match s.request.resolve size with
    | .error e => (.error e, s)
    | .ok stop =>
      let selection := Selection.ofRange s.request.start stop (some size)
      (.ok (),
        { s with resolvedEnd := some stop, selection := some (selection.decide placement).2 })

/-- Handles the root: header and root are written once the range is known to lie
in the file. -/
def processRoot (s : Session) (header : Header) (block : Block) : Except Error Unit × Session :=
  match s.selectByRoot header block with
  | (.error e, s') => (.error e, s')
  | (.ok (), s') =>
    match s'.writeHeader header with
    | (.error e, s') => (.error e, s')
    | (.ok (), s') =>
      match s'.writeBlock block with
      | (.error e, s') => (.error e, s')
      | (.ok (), s') => s'.settle s.phase

/-- Warns if the placement of a block was a mismatch. -/
def warnOfMismatch (s : Session) (placement : Placement) : Session :=
  match placement with
  | .mismatch _ reason =>
    if s.selection.any (·.lateMismatch) then s.warnLate reason else s.warnNotOneFile reason
  | _ => s

/-- Writes a block or drops it. -/
def carryOut (s : Session) (decision : Decision) (block : Block) : Except Error Unit × Session :=
  match decision with
  | .emit => s.writeBlock block
  | .drop =>
    (.ok (), { s with stats := { s.stats with blocksDiscarded := s.stats.blocksDiscarded + 1 } })

/-- Places a block and does with it what the selection decides. -/
def selectBlock (s : Session) (selection : Selection) (block : Block) :
    Except Error Unit × Session :=
  match s.layout.place (.ofBlock block) with
  | (placement, layout) =>
    match selection.decide placement with
    | (decision, selection) =>
      match { s with layout, selection := some selection }.carryOut decision block with
      | (.error e, s) => (.error e, s)
      | (.ok (), s) => (.ok (), s.warnOfMismatch placement)

/-- Writes a block or drops it, as the selection decides. -/
def handleBlock (s : Session) (block : Block) : Except Error Unit × Session :=
  match s.selection with
  | none => s.writeBlock block
  | some selection =>
    if selection.phase = .passthrough then s.writeBlock block else s.selectBlock selection block

/-- Handles a block behind the root. -/
def processBlock (s : Session) (block : Block) : Except Error Unit × Session :=
  match s.handleBlock block with
  | (.error e, s') => (.error e, s')
  | (.ok (), s') => s'.settle s.phase

/-! ## Steps -/

/-- Reads header and root and handles them. -/
def begin (s : Session) : Except Error Unit × Session :=
  match s.reader.readHeader with
  | (.error e, reader) => (.error e, { s with reader })
  | (.ok header, reader) =>
    match { s with reader }.readBlock with
    | (.error e, s) => (.error e, s)
    | (.ok (some block), s) => s.processRoot header block
    | (.ok none, s) =>
      match s.passThrough.writeHeader header with
      | (.error e, s) => (.error e, s)
      | (.ok (), s) => s.warnEmpty.finish

/-- Handles header and root, unless that was done. -/
def start (s : Session) : Except Error Unit × Session :=
  if s.started then (.ok (), s)
  else
    match { s with started := true }.begin with
    | (.error e, s) => (.error e, s.fail e)
    | (.ok (), s) => (.ok (), s)

/-- Ends a session at the end of its archive. -/
def endOfArchive (s : Session) : Except Error Unit × Session :=
  if s.phase ≠ .passthrough ∧ s.layout.isIncomplete then
    ({ s with stats := { s.stats with incompleteFile := true } }.warnIncomplete).finish
  else s.finish

/-- Handles the next block behind the root. -/
def advance (s : Session) : Except Error Unit × Session :=
  match s.readBlock with
  | (.error e, s) => (.error e, s)
  | (.ok none, s) => s.endOfArchive
  | (.ok (some block), s) => s.processBlock block

/-- Ends a session that was cancelled. -/
def stop (s : Session) : Except Error Unit × Session :=
  { s with started := true, stats := { s.stats with cancelled := true } }.finish

/-- Handles at most one block behind the root. The answer is whether there is
more to do. -/
def step (s : Session) : Except Error Bool × Session :=
  if s.finished then (.ok false, s)
  else if s.cancelRequested then
    match s.stop with
    | (.error e, s) => (.error e, s)
    | (.ok (), s) => (.ok false, s)
  else if s.started then
    match s.advance with
    | (.error e, s) => (.error e, s.fail e)
    | (.ok (), s) => (.ok !s.finished, s)
  else
    match s.start with
    | (.error e, s) => (.error e, s)
    | (.ok (), s) => (.ok !s.finished, s)

end Session

end CarSlice
