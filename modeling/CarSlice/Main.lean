import CarSlice.Command
import CarSlice.Event.Log
import CarSlice.Event.Timestamp
import Std.Time.DateTime.Timestamp

/-!
# The program

Reads the arguments, the environment and the input, lets `CarSlice.Command` do
the work, and writes what it reports.
-/

namespace CarSlice.Program

/-- A text for the system. Text that is not UTF-8 names nothing there. -/
def forSystem (s : Text) : String :=
  (String.fromUTF8? ⟨s.toArray⟩).getD ""

/-- The variables of the environment that the program looks at. -/
def variableNames : List String :=
  ["CR_MAX_HEADER_SIZE", "CR_MAX_SECTION_SIZE", "CR_ZERO_LENGTH_AS_EOF", "CR_VERIFY_DIGESTS",
    "CR_LOG_LEVEL", "CR_LOG_PATH"]

/-- Reads the environment. -/
def readEnvironment : IO Environment := do
  let values ← variableNames.filterMapM fun name => do
    return (← IO.getEnv name).map fun value => (utf8 name, utf8 value)
  return { values := values }

/-- Reads a stream to its end. -/
def readAll (stream : IO.FS.Stream) : IO Bytes := do
  let mut all := ByteArray.empty
  repeat
    let piece ← stream.read 65536
    if piece.isEmpty then
      break
    all := all ++ piece
  return all.toList

/-- Opens a path, if that can be done. -/
def open? (path : Text) (mode : IO.FS.Mode) : IO (Option IO.FS.Handle) := do
  try
    return some (← IO.FS.Handle.mk (forSystem path) mode)
  catch _ =>
    return none

/-- What can be read from a file; nothing can be read from a folder. -/
def readOpened (handle : IO.FS.Handle) : IO Opened := do
  try
    return .file (← handle.readBinToEnd).toList
  catch _ =>
    return .folder

/-- Writes bytes to a stream. -/
def put (stream : IO.FS.Stream) (bytes : Bytes) : IO Unit := do
  stream.write ⟨bytes.toArray⟩
  stream.flush

/-- The present time. -/
def now : IO Text := do
  let time ← Std.Time.Timestamp.now
  return Timestamp.toText (time.toNanosecondsSinceUnixEpoch.val.toNat / 1000)

/-- Writes events to the log. -/
def logEvents (env : Environment) (events : List Event) : IO Unit := do
  let timestamp ← now
  let wanted := ((Logger.ofEnvironment env fun _ => true).logAll timestamp events).1
  if wanted.isEmpty then
    return
  let handle ←
    match Logger.pathOf env with
    | some path => open? path .append
    | none => pure none
  let lines := ((Logger.ofEnvironment env fun _ => handle.isSome).logAll timestamp events).1
  put (← IO.getStderr) (consoleText lines)
  match handle, fileText? lines with
  | some handle, some written => handle.write ⟨written.toArray⟩
  | _, _ => return

/-- Writes what a run reports and gives its exit code. -/
def deliver (env : Environment) (report : Command.Report) : IO UInt32 := do
  logEvents env report.events
  put (← IO.getStdout) report.stdout
  put (← IO.getStderr) report.stderr
  return UInt32.ofNat report.exitCode

/-- Opens the output of a task, if it has one that is a file. -/
def openOutput? (task : Command.Task) : IO (Option IO.FS.Handle) := do
  match task with
  | .filter output _ => if Command.isDash output then return none else open? output .write
  | .list => return none

/-- Does a task on an input, from opening the files to writing the archive. -/
def perform (input : Text) (task : Command.Task) (settings : Settings) (start : Event) :
    IO Command.Report := do
  if Command.isDash input then
    let output ← openOutput? task
    finish output (some (.file (← readAll (← IO.getStdin))))
  else
    match ← open? input .read with
    | none => finish none none
    | some handle =>
      let output ← openOutput? task
      finish output (some (← readOpened handle))
where
  finish (output : Option IO.FS.Handle) (opened : Option Opened) : IO Command.Report := do
    let report := Command.carryOut input task settings start opened fun _ => output.isSome
    match output, report.archive with
    | some handle, some archive => handle.write ⟨archive.toArray⟩
    | _, _ => pure ()
    return report

end CarSlice.Program

/-- Runs the tool. -/
def main (arguments : List String) : IO UInt32 := do
  let env ← CarSlice.Program.readEnvironment
  match CarSlice.Command.Plan.ofArguments (arguments.map CarSlice.utf8) env with
  | .answer report => CarSlice.Program.deliver env report
  | .read input task settings start =>
    CarSlice.Program.deliver env (← CarSlice.Program.perform input task settings start)
