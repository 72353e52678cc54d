import CarSlice.Directory
import CarSlice.Query
import CarSlice.Session.Run
import CarSlice.Settings

/-!
# The command line

The tool has two commands: `filter` passes an archive on and keeps only the
blocks of a range, `ls` lists the blocks of an archive and where in the file they
lie. `Plan.ofArguments` decides what the arguments ask for, `Plan.carryOut` does
it once the input is open, and `runIn` does both in a working directory. Input
and output may be a dash for the standard streams.

The exit code is 0 for success, 64 for a request that cannot be served, and 74
for everything that goes wrong with the archive or the files.
-/

namespace CarSlice.Command

open Archive (Block Reader)
open UnixFs (Content)

/-! ## Reports -/

/-- What a run leaves behind. -/
structure Report where
  exitCode : Nat
  stdout : Text := []
  stderr : Text := []
  /-- The archive that was written, if the run got as far as writing one. -/
  archive : Option Bytes := none
  /-- What the run said, in order. -/
  events : List Event := []

/-- One line of text. -/
def line (s : Text) : Text :=
  s ++ [ascii '\n']

/-- How to call the tool. -/
def usage : Text :=
  line (utf8 "Usage:") ++
  line (utf8
    ("  car-range filter --in=<path|-> --out=<path|-> (--range=<start:end> | --query=<query>)" ++
      " [--verify]")) ++
  line (utf8 "  car-range ls --in=<path|-> [--verify]")

/-- What an error looks like on the error stream. -/
def errorText (e : Error) : Text :=
  line (utf8 "Error: " ++ e.message) ++ e.context.flatMap fun s => line (utf8 "  " ++ s)

/-- The exit code for an error. -/
def exitCodeOf (e : Error) : Nat :=
  if e.domain = .validation then 64 else 74

/-- The report of a run that ended with an error. -/
def Report.ofError (e : Error) : Report :=
  { exitCode := exitCodeOf e, stderr := errorText e }

/-! ## Arguments -/

/-- The options of both commands. -/
structure Options where
  input : Option Text := none
  output : Option Text := none
  range : Option Text := none
  query : Option Text := none
  verify : Bool := false

/-- What follows the given beginning of a text. -/
def after? (beginning : String) (s : Text) : Option Text :=
  if (utf8 beginning).isPrefixOf s then some (s.drop (utf8 beginning).length) else none

/-- Adds an option. Of several with the same name the last one counts. -/
def Options.add? (o : Options) (argument : Text) : Option Options :=
  if let some path := after? "--in=" argument then some { o with input := some path }
  else if let some path := after? "--out=" argument then some { o with output := some path }
  else if let some range := after? "--range=" argument then some { o with range := some range }
  else if let some query := after? "--query=" argument then some { o with query := some query }
  else if argument == utf8 "--verify" then some { o with verify := true }
  else none

/-- The options that the arguments give. -/
def Options.ofArguments? (arguments : List Text) : Option Options :=
  arguments.foldlM Options.add? {}

/-- The settings of a run. -/
def Options.settings (o : Options) (env : Environment) : Settings :=
  let settings := Settings.ofEnvironment env
  { settings with
    options :=
      { settings.options with
        verifyDigests := o.verify || settings.options.verifyDigests } }

/-- The query that asks for the range of the options. -/
def Options.queryText? (o : Options) : Option Text :=
  match o.range, o.query with
  | some range, none => some (utf8 "bytes=" ++ range)
  | none, some query => some query
  | _, _ => none

/-- The event that a command begins with. -/
def Options.startEvent (o : Options) (command : String) : Event :=
  { severity := .debug
    category := .lifecycle
    id := utf8 "car_range_start"
    message := utf8 command
    fields :=
      { key := utf8 "input", value := o.input.getD (utf8 "-"), privacy := .hashed } ::
      o.range.toList.map (.text "range") }

/-! ## Plans -/

/-- What a run has to do. -/
inductive Task where
  | filter (output : Text) (request : ByteRange)
  | list

/-- What the arguments ask for. -/
inductive Plan where
  /-- Nothing is opened; this is all there is to report. -/
  | answer (report : Report)
  /-- An archive is to be read. -/
  | read (input : Text) (task : Task) (settings : Settings) (start : Event)

/-- What `filter` has to do. -/
def planFilter (o : Options) (env : Environment) : Plan :=
  match o.input, o.output, o.queryText? with
  | some input, some output, some query =>
    match Query.parseRange query with
    | .error e => .answer (.ofError e)
    | .ok none =>
      .answer
        { exitCode := 64
          stderr := line (utf8
            "Validation error: no bytes or entity-bytes parameter in query.") }
    | .ok (some request) =>
      .read input (.filter output request) (o.settings env) (o.startEvent "filter")
  | _, _, _ => .answer { exitCode := 64, stdout := usage }

/-- What `ls` has to do. -/
def planList (o : Options) (env : Environment) : Plan :=
  match o.input, o.output, o.range, o.query with
  | some input, none, none, none => .read input .list (o.settings env) (o.startEvent "ls")
  | _, _, _, _ => .answer { exitCode := 64, stdout := usage }

/-- What the arguments behind the program's name ask for. The options are read
before the command is looked at. -/
def Plan.ofArguments (arguments : List Text) (env : Environment) : Plan :=
  match arguments.map untilZero with
  | [] => .answer { exitCode := 64, stdout := usage }
  | command :: arguments =>
    match Options.ofArguments? arguments with
    | none => .answer { exitCode := 64, stdout := usage }
    | some options =>
      if command = utf8 "filter" then planFilter options env
      else if command = utf8 "ls" then planList options env
      else .answer { exitCode := 64, stdout := usage }

/-! ## Filtering -/

/-- The summary of a run that went well. -/
def summary (request : ByteRange) (stats : Stats) : Text :=
  line <|
    utf8 "range " ++ request.toText ++ utf8 ": " ++ decimal stats.blocksOut ++ utf8 " of " ++
      decimal stats.blocksIn ++ utf8 " blocks, " ++ decimal stats.bytesOut ++
      utf8 " bytes written, phase " ++ stats.phase.name

/-- Filters an archive. -/
def filterArchive (source : Source) (request : ByteRange) (settings : Settings) : Report :=
  let sink : Sink := { kind := .stream false }
  match (Session.new source sink request settings.options settings.retainsLayout).run with
  | (.ok (), s) =>
    { exitCode := 0
      stderr := summary request s.stats
      archive := some s.sink.output
      events := s.published }
  | (.error e, s) =>
    { Report.ofError e with archive := some s.sink.output, events := s.published }

/-! ## Listing -/

/-- What a block contributes, in a listing. -/
def describe : Content → Text
  | .bytes _ => utf8 "opaque"
  | .node node =>
    node.kind.name ++ utf8 " links=" ++ decimal node.linkCount ++
      match node.filesize with
      | some size => utf8 " filesize=" ++ decimal size
      | none => []

/-- Where a block lies, in a listing. -/
def describePlacement : Placement → Text
  | .leaf i | .structural i =>
    ascii '[' :: decimal i.start ++ ascii ',' :: decimal i.stop ++ [ascii ')']
  | .mismatch _ reason => utf8 "mismatch: " ++ reason.text
  | .detached _ => utf8 "detached"

/-- The row of a block. -/
def row (index : Nat) (block : Block) (placement : Placement) : Text :=
  line <| [ascii '\t'].intercalate
    [decimal index, block.cid.toText, Codec.name block.cid.codec, decimal block.payload.length,
      describe (.ofBlock block), describePlacement placement]

/-- The rows of the blocks that are left, the number of blocks before them being
`index`, and the reader and layout behind them. -/
def rows (r : Reader) (l : Layout) (index : Nat) : Text × Except Error (Reader × Layout) :=
  match _h : r.next with
  | (.error e, _) => ([], .error e)
  | (.ok none, r) => ([], .ok (r, l))
  | (.ok (some block), r) =>
    match l.place (.ofBlock block) with
    | (placement, l) =>
      match rows r l (index + 1) with
      | (text, result) => (row index block placement ++ text, result)
termination_by r.remaining
decreasing_by exact Reader.remaining_next_lt _h

/-- The lines about a header. -/
def headerLines (header : Archive.Header) : Text :=
  line (utf8 "version: " ++ decimal header.version) ++
    header.roots.flatMap fun root => line (utf8 "root: " ++ root.toText)

/-- The lines at the end of a listing. -/
def closingLines (r : Reader) (l : Layout) : Text :=
  (match l.fileSize with
    | some size =>
      line (utf8 "file size: " ++ decimal size ++
        if l.isComplete then [] else utf8 " (incomplete)")
    | none => []) ++
  if r.unverified = 0 then [] else line (utf8 "unverified blocks: " ++ decimal r.unverified)

/-- Lists an archive. What was listed before an error is kept. -/
def listArchive (source : Source) (settings : Settings) : Report :=
  let r : Reader := { source, options := settings.options }
  match r.readHeader with
  | (.error e, _) => Report.ofError e
  | (.ok header, r) =>
    match rows r {} 0 with
    | (text, .ok (r, l)) =>
      { exitCode := 0, stdout := headerLines header ++ text ++ closingLines r l }
    | (text, .error e) => { Report.ofError e with stdout := headerLines header ++ text }

/-! ## Carrying out a plan -/

/-- A path that stands for a standard stream. -/
def isDash (path : Text) : Bool :=
  path == [ascii '-']

/-- The source over an input that was opened. Reading a folder fails. -/
def sourceOf : Opened → Source
  | .file bytes => .ofStream bytes
  | .folder => .ofBrokenStream []

/-- Does a task on an input; an archive for the standard output goes there. -/
def Task.run (task : Task) (settings : Settings) (input : Opened) : Report :=
  match task with
  | .list => listArchive (sourceOf input) settings
  | .filter output request =>
    let report := filterArchive (sourceOf input) request settings
    if isDash output then
      { report with stdout := report.archive.getD [], archive := none }
    else report

/-- Whether a task has an output that cannot be opened, given what can. -/
def Task.blocked? (task : Task) (canOpen : Text → Bool) : Option Error :=
  match task with
  | .list => none
  | .filter output _ =>
    if isDash output || canOpen output then none else some (.openFailed .output output)

/-- Does a task. The input is opened first, then the output, and only then the
archive is read. -/
def carryOut (input : Text) (task : Task) (settings : Settings) (start : Event)
    (opened : Option Opened) (canOpen : Text → Bool) : Report :=
  let report :=
    match opened with
    | none => Report.ofError (.openFailed .input input)
    | some opened =>
      match task.blocked? canOpen with
      | some e => Report.ofError e
      | none => task.run settings opened
  { report with events := start :: report.events }

/-- Whether a task writes the file that a path leads to; opening it for writing
empties it. -/
def Task.overwrites (task : Task) (path : Text) : Bool :=
  match task with
  | .list => false
  | .filter output _ =>
    !isDash output && !isDash path && Target.ofPath output == Target.ofPath path

/-- What opening an input gives in a directory. -/
def openIn (d : Directory) (stdin : Bytes) (input : Text) (task : Task) : Option Opened :=
  if isDash input then some (.file stdin)
  else
    match d.openInput? input with
    | some (.file bytes) => some (.file (if task.overwrites input then [] else bytes))
    | opened => opened

/-- The directory after a task has left its archive there. -/
def leaveIn (d : Directory) (task : Task) (report : Report) : Directory :=
  match task, report.archive with
  | .filter output _, some archive => d.write output archive
  | _, _ => d

/-- Runs the tool in a working directory. -/
def runIn (d : Directory) (env : Environment) (stdin : Bytes) (arguments : List Text) :
    Report × Directory :=
  match Plan.ofArguments arguments env with
  | .answer report => (report, d)
  | .read input task settings start =>
    let report :=
      carryOut input task settings start (openIn d stdin input task) Directory.canOpenOutput
    (report, leaveIn d task report)

end CarSlice.Command
