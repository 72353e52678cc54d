import CarSlice.Archive.Reader

/-!
# Settings

What can be set from outside: the limits and checks of the reader, and whether
the layout of the file is kept. Environment variables are laid over the defaults;
a value that is malformed is ignored.
-/

namespace CarSlice

open Archive (ReaderOptions)

/-- The environment of a process: names and values. -/
structure Environment where
  values : List (Text × Text) := []

/-- The value of a variable, up to its first zero byte. -/
def Environment.get? (env : Environment) (name : String) : Option Text :=
  (env.values.lookup (utf8 name)).map untilZero

/-- The settings of a session. -/
structure Settings where
  options : ReaderOptions := {}
  /-- Whether the layout of the file is kept. -/
  retainsLayout : Bool := false
  deriving Repr, DecidableEq

namespace Settings

/-- A size in bytes, which is not zero. -/
def size? (value : Text) : Option Nat :=
  (number? value).filter (· != 0)

/-- A switch. -/
def flag? (value : Text) : Option Bool :=
  if value ∈ [utf8 "1", utf8 "true", utf8 "yes", utf8 "on"] then some true
  else if value ∈ [utf8 "0", utf8 "false", utf8 "no", utf8 "off"] then some false
  else none

/-- The defaults with the environment laid over them. -/
def ofEnvironment (env : Environment) : Settings :=
  let defaults : ReaderOptions := {}
  { options :=
      { maxHeaderSize :=
          ((env.get? "CR_MAX_HEADER_SIZE").bind size?).getD defaults.maxHeaderSize
        maxSectionSize :=
          ((env.get? "CR_MAX_SECTION_SIZE").bind size?).getD defaults.maxSectionSize
        emptyEndsArchive :=
          ((env.get? "CR_ZERO_LENGTH_AS_EOF").bind flag?).getD defaults.emptyEndsArchive
        verifyDigests :=
          ((env.get? "CR_VERIFY_DIGESTS").bind flag?).getD defaults.verifyDigests } }

end Settings

end CarSlice
