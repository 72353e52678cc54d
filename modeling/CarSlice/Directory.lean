import CarSlice.Bytes

/-!
# A working directory

Plain files in one directory, enough to say what opening a path gives. The
directory lies in the folder for temporary files, and around it is what every
system has: the root, the folder of devices, and in it the null device, which is
empty and takes everything.

`Target.ofPath` says what a path leads to, one part of the path at a time. A
folder can be opened for reading, though nothing can be read from it.
-/

namespace CarSlice

/-- What a path leads to when it is opened for reading. -/
inductive Opened where
  | file (bytes : Bytes)
  | folder
  deriving Repr, DecidableEq

/-- The files of a directory. -/
structure Directory where
  files : List (Text × Bytes)

/-! ## Paths -/

/-- The longest name of a file, in bytes. -/
def maxFileName : Nat := 255

/-- The longest path, in bytes. -/
def maxPath : Nat := 4095

/-- What a path means. -/
inductive Target where
  | folder
  /-- A file in the working directory, whether it exists or not. -/
  | entry (name : Text)
  /-- A temporary file outside of the working directory. It can be written, and
  none was there before. -/
  | temporary
  | nullDevice
  /-- A file that cannot exist. -/
  | nowhere
  deriving Repr, DecidableEq

/-- The folders that are known. -/
inductive Folder where
  | root
  | devices
  | temporary
  /-- The working directory. -/
  | working
  deriving Repr, DecidableEq

namespace Folder

/-- The folder that a folder lies in. The root lies in itself. -/
def above : Folder → Folder
  | .root | .devices | .temporary => .root
  | .working => .temporary

/-- The folder with a name in a folder. -/
def enter? (folder : Folder) (name : Text) : Option Folder :=
  if folder = .root ∧ name = utf8 "dev" then some .devices
  else if folder = .root ∧ name = utf8 "tmp" then some .temporary
  else none

/-- What a name that is no folder means in a folder. -/
def file (folder : Folder) (name : Text) : Target :=
  if maxFileName < name.length then .nowhere
  else
    match folder with
    | .root => .nowhere
    | .devices => if name = utf8 "null" then .nullDevice else .nowhere
    | .temporary => .temporary
    | .working => .entry name

/-- What the parts of a path lead to from a folder. Only the last part may name a
file; an empty part stays where it is, as a single dot does. -/
def follow (folder : Folder) : List Text → Target
  | [] => .folder
  | part :: rest =>
    if part.isEmpty || part == utf8 "." then folder.follow rest
    else if part == utf8 ".." then folder.above.follow rest
    else
      match folder.enter? part with
      | some inner => inner.follow rest
      | none => if rest.isEmpty then folder.file part else .nowhere

end Folder

/-- What a path means. A path that begins with a slash starts at the root, every
other one in the working directory; an empty path and one that is too long lead
nowhere. -/
def Target.ofPath (path : Text) : Target :=
  if path.isEmpty || maxPath < path.length then .nowhere
  else
    let start : Folder := if path.head? == some (ascii '/') then .root else .working
    start.follow (splitOn (ascii '/') path)

/-! ## Opening and writing -/

namespace Directory

/-- Opens a path for reading. -/
def openInput? (d : Directory) (path : Text) : Option Opened :=
  match Target.ofPath path with
  | .folder => some .folder
  | .entry name => (d.files.lookup name).map .file
  | .nullDevice => some (.file [])
  | .temporary | .nowhere => none

/-- Whether a path can be opened for writing. A file that it leads to exists
afterwards. -/
def canOpenOutput (path : Text) : Bool :=
  match Target.ofPath path with
  | .entry _ | .temporary | .nullDevice => true
  | .folder | .nowhere => false

/-- Puts bytes into a file. -/
def put (d : Directory) (name : Text) (bytes : Bytes) : Directory :=
  { files := (name, bytes) :: d.files.filter fun file => file.1 != name }

/-- Writes a file that was opened by its path. What is written outside of the
directory changes nothing in it. -/
def write (d : Directory) (path : Text) (bytes : Bytes) : Directory :=
  match Target.ofPath path with
  | .entry name => d.put name bytes
  | _ => d

/-- The files that are not among those of an earlier directory. -/
def newSince (d earlier : Directory) : List (Text × Bytes) :=
  d.files.filter fun file => (earlier.files.lookup file.1).isNone

end Directory

end CarSlice
