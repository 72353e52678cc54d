import CarSlice.Event.Json
import CarSlice.Settings

/-!
# The log

A logger writes events from a threshold of severity upwards, one line each, to a
file or to the console. A line that would be too long is replaced by a short one
that says how long it was. The file is opened when the first line is written; if
that fails, the console says so once and gets the lines instead.
-/

namespace CarSlice

/-- Something a logger writes, without the line end. -/
inductive LogLine where
  | console (line : Text)
  | file (line : Text)
  deriving Repr, DecidableEq

/-- The longest line, in bytes without the line end. -/
def maxLogLine : Nat := 16 * 1024

/-- The event that stands for one whose line is too long. -/
def Event.truncated (e : Event) (length : Nat) : Event :=
  { e with message := utf8 "event truncated", fields := [.number "original_bytes" length] }

/-- The line for an event. The clock is read once more for a line that stands for
one that is too long. -/
def Event.logLine (e : Event) (timestamp later : Text) : Text :=
  let line := e.toJson timestamp
  if maxLogLine < line.length then (e.truncated line.length).toJson later else line

/-- The file of a logger. -/
structure LogFile where
  path : Text
  /-- Whether the file can be opened for writing. -/
  canOpen : Bool
  deriving Repr, DecidableEq

/-- A logger. -/
structure Logger where
  threshold : Severity := .info
  /-- Where the lines go; none for the console. -/
  logFile : Option LogFile := none
  /-- Whether the console was told that the file cannot be opened. -/
  complained : Bool := false
  deriving Repr, DecidableEq

namespace Logger

/-- The threshold that the environment sets: that of `CR_LOG_LEVEL`, or `info` if
it names none. -/
def thresholdOf (env : Environment) : Severity :=
  ((env.get? "CR_LOG_LEVEL").bind Severity.ofName?).getD .info

/-- The path that the environment sets. -/
def pathOf (env : Environment) : Option Text :=
  (env.get? "CR_LOG_PATH").filter (!·.isEmpty)

/-- The logger that the environment asks for. -/
def ofEnvironment (env : Environment) (canOpen : Text → Bool) : Logger :=
  { threshold := thresholdOf env
    logFile := (pathOf env).map fun path => { path, canOpen := canOpen path } }

/-- What the console is told when the file cannot be opened. -/
def complaint : Text :=
  utf8 "\x7b\"event\":\"logger_error\",\"message\":\"failed to open log file\"\x7d"

/-- Writes a line. -/
def writeLine (l : Logger) (line : Text) : List LogLine × Logger :=
  match l.logFile with
  | none => ([.console line], l)
  | some file =>
    if file.canOpen then ([.file line], l)
    else if l.complained then ([.console line], l)
    else ([.console complaint, .console line], { l with complained := true })

/-- Writes an event, if it is serious enough. -/
def log (l : Logger) (timestamp later : Text) (e : Event) : List LogLine × Logger :=
  if e.severity.rank < l.threshold.rank then ([], l)
  else l.writeLine (e.logLine timestamp later)

/-- Writes events in order, all at one time. -/
def logAll (l : Logger) (timestamp : Text) : List Event → List LogLine × Logger
  | [] => ([], l)
  | e :: rest =>
    match l.log timestamp timestamp e with
    | (lines, l) =>
      match l.logAll timestamp rest with
      | (more, l) => (lines ++ more, l)

end Logger

/-- What of some lines the console got. -/
def consoleText (lines : List LogLine) : Text :=
  lines.flatMap fun
    | .console line => line ++ [ascii '\n']
    | .file _ => []

/-- What of some lines the file got, if any reached it. -/
def fileText? (lines : List LogLine) : Option Text :=
  let written := lines.filterMap fun
    | .file line => some (line ++ [ascii '\n'])
    | .console _ => none
  if written.isEmpty then none else some written.flatten

end CarSlice
