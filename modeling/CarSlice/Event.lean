import CarSlice.Bytes

/-!
# Events

What a running program says about itself: a severity, a category, an identifier,
a message and named fields. A field may be kept out of logs or be replaced by a
hash there.
-/

namespace CarSlice

/-- How serious an event is, the least serious first. -/
inductive Severity where
  | debug
  | info
  | warning
  | error
  | critical
  deriving Repr, DecidableEq

namespace Severity

/-- All severities in order. -/
def all : List Severity :=
  [debug, info, warning, error, critical]

/-- The place of a severity in the order. -/
def rank : Severity → Nat
  | debug => 0
  | info => 1
  | warning => 2
  | error => 3
  | critical => 4

/-- The name of a severity. -/
def name : Severity → Text
  | debug => utf8 "debug"
  | info => utf8 "info"
  | warning => utf8 "warning"
  | error => utf8 "error"
  | critical => utf8 "critical"

/-- The severity with exactly this name. -/
def ofName? (s : Text) : Option Severity :=
  all.find? (·.name == s)

end Severity

/-- What an event is about. -/
inductive Category where
  | telemetry
  | lifecycle
  | integrity
  | diagnostics
  deriving Repr, DecidableEq

/-- The name of a category. -/
def Category.name : Category → Text
  | .telemetry => utf8 "telemetry"
  | .lifecycle => utf8 "lifecycle"
  | .integrity => utf8 "integrity"
  | .diagnostics => utf8 "diagnostics"

/-- How a value may appear in a log. -/
inductive Privacy where
  /-- As it is. -/
  | plain
  /-- Not at all. -/
  | redacted
  /-- As the beginning of its hash. -/
  | hashed
  deriving Repr, DecidableEq

/-- A named value of an event. -/
structure EventField where
  key : Text
  value : Text
  privacy : Privacy := .plain
  /-- Whether the value is a JSON number or literal. -/
  numeric : Bool := false
  deriving Repr, DecidableEq

namespace EventField

/-- A field with a text. -/
def text (key : String) (value : Text) : EventField :=
  { key := utf8 key, value }

/-- A field with a number. -/
def number (key : String) (value : Nat) : EventField :=
  { key := utf8 key, value := decimal value, numeric := true }

end EventField

/-- An event. -/
structure Event where
  severity : Severity := .info
  category : Category := .diagnostics
  id : Text := []
  message : Text := []
  fields : List EventField := []
  deriving Repr, DecidableEq

end CarSlice
