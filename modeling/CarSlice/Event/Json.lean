import CarSlice.Event
import CarSlice.Sha2

/-!
# Events as JSON

An event is written as one JSON object on one line: its time, severity and
category, identifier and message unless they are empty, and then its fields in
order. Values that are not plain are never written: a redacted value is replaced
by a mark, a hashed one by the beginning of its SHA-256.
-/

namespace CarSlice.Json

/-! ## Strings -/

/-- How a byte is written inside a JSON string. Bytes from 128 on stand for
themselves. -/
def escapeByte (b : UInt8) : Text :=
  if b = 0x5C then utf8 "\\\\"
  else if b = 0x22 then utf8 "\\\""
  else if b = 0x08 then utf8 "\\b"
  else if b = 0x0C then utf8 "\\f"
  else if b = 0x0A then utf8 "\\n"
  else if b = 0x0D then utf8 "\\r"
  else if b = 0x09 then utf8 "\\t"
  else if b < 0x20 then utf8 "\\u00" ++ hex [b]
  else [b]

/-- The contents of a JSON string that stands for a text. -/
def escape (s : Text) : Text :=
  s.flatMap escapeByte

/-- The JSON string that stands for a text. -/
def quote (s : Text) : Text :=
  ascii '"' :: escape s ++ [ascii '"']

/-- A member of a JSON object, without the comma in front of it. -/
def member (key value : Text) : Text :=
  quote key ++ ascii ':' :: value

end CarSlice.Json

namespace CarSlice

/-- The SHA-256 of a text in hexadecimal, and nothing for the empty text. -/
def fingerprint (s : Text) : Text :=
  if s.isEmpty then [] else hex (Sha2.sha256 s)

namespace EventField

/-- What is written for the value of a field. -/
def shown (f : EventField) : Text :=
  match f.privacy with
  | .plain => f.value
  | .redacted => utf8 "[REDACTED]"
  | .hashed => utf8 "sha256:" ++ (fingerprint f.value).take 16

/-- The value of a field in JSON. Only a plain value can be a number. -/
def json (f : EventField) : Text :=
  if f.numeric && f.privacy == .plain then f.shown else Json.quote f.shown

end EventField

namespace Event

/-- The members of an event that are not fields, in order. -/
def headMembers (e : Event) (timestamp : Text) : List Text :=
  [Json.member (utf8 "ts") (Json.quote timestamp),
   Json.member (utf8 "severity") (ascii '"' :: e.severity.name ++ [ascii '"']),
   Json.member (utf8 "category") (ascii '"' :: e.category.name ++ [ascii '"'])] ++
  (if e.id.isEmpty then [] else [Json.member (utf8 "event_id") (Json.quote e.id)]) ++
  (if e.message.isEmpty then [] else [Json.member (utf8 "message") (Json.quote e.message)])

/-- All members of an event in order. -/
def members (e : Event) (timestamp : Text) : List Text :=
  e.headMembers timestamp ++ e.fields.map fun f => Json.member f.key f.json

/-- The JSON object of an event, without a line end. -/
def toJson (e : Event) (timestamp : Text) : Text :=
  ascii '{' :: [ascii ','].intercalate (e.members timestamp) ++ [ascii '}']

end Event

end CarSlice
