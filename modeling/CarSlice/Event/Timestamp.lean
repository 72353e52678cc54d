import CarSlice.Bytes

/-!
# Timestamps

The time of an event in UTC, to the microsecond, in the form
`2024-05-31T09:07:03.000042Z`. `Timestamp.toText` writes it from the
microseconds since the beginning of 1970.
-/

namespace CarSlice

/-- A day of the calendar. -/
structure Day where
  year : Nat
  month : Nat
  day : Nat
  deriving Repr, DecidableEq

/-- The day that is so many days after the first of January 1970. Years are
counted from March here, so that a leap day ends its year. -/
def Day.ofNumber (days : Nat) : Day :=
  let shifted := days + 719468
  let era := shifted / 146097
  let dayOfEra := shifted % 146097
  let yearOfEra :=
    (dayOfEra - dayOfEra / 1460 + dayOfEra / 36524 - dayOfEra / 146096) / 365
  let dayOfYear := dayOfEra - (365 * yearOfEra + yearOfEra / 4 - yearOfEra / 100)
  let monthFromMarch := (5 * dayOfYear + 2) / 153
  let month := if monthFromMarch < 10 then monthFromMarch + 3 else monthFromMarch - 9
  { year := yearOfEra + 400 * era + if month ≤ 2 then 1 else 0
    month
    day := dayOfYear - (153 * monthFromMarch + 2) / 5 + 1 }

namespace Timestamp

/-- A number in decimal with at least `width` digits. -/
def padded (width n : Nat) : Text :=
  List.replicate (width - (decimal n).length) (ascii '0') ++ decimal n

/-- The text of a time, given in microseconds since the beginning of 1970. -/
def toText (micros : Nat) : Text :=
  let seconds := micros / 1000000
  let day := Day.ofNumber (seconds / 86400)
  padded 4 day.year ++ ascii '-' :: padded 2 day.month ++ ascii '-' :: padded 2 day.day ++
    ascii 'T' :: padded 2 (seconds / 3600 % 24) ++ ascii ':' :: padded 2 (seconds / 60 % 60) ++
    ascii ':' :: padded 2 (seconds % 60) ++ ascii '.' :: padded 6 (micros % 1000000) ++ [ascii 'Z']

end Timestamp

end CarSlice
