import StructuredOutput.Number.Layout

/-!
Moments in universal time, counted in seconds from the start of 1970: the calendar date, the time of
day, and their text.
-/

namespace StructuredOutput

open Text

/-- A calendar date and a time of day. -/
structure Moment where
  year : Int
  month : Nat
  day : Nat
  hour : Nat
  minute : Nat
  second : Nat
  micro : Nat
  deriving DecidableEq

/-- Why a moment has no text. -/
inductive MomentFault where
  /-- The text has four digits for the year. -/
  | year (value : Int)
  /-- The year is beyond the calendar. -/
  | calendar
  /-- The seconds are beyond the clock. -/
  | clock
  deriving DecidableEq

/-- What is said of a year that does not fit. -/
def MomentFault.message? : MomentFault → Option String
  | .year value => some s!"year {value} is out of range"
  | _ => none

namespace Moment

/-- The date of a day, counted from the start of 1970. Years are taken to begin in March, so that
the leap day is the last one; 400 of them have 146097 days. -/
def date (days : Int) : Int × Nat × Nat :=
  let shifted := days + 719468
  let era := Int.fdiv shifted 146097
  let inEra := (shifted - era * 146097).toNat
  let years := (inEra - inEra / 1460 + inEra / 36524 - inEra / 146096) / 365
  let inYear := inEra - (365 * years + years / 4 - years / 100)
  let march := (5 * inYear + 2) / 153
  let day := inYear - (153 * march + 2) / 5 + 1
  let month := if march < 10 then march + 3 else march - 9
  (era * 400 + years + (if month ≤ 2 then 1 else 0), month, day)

/-- Seconds from here on are beyond the clock. -/
def secondLimit : Int := 0x8000000000000000

/-- Years that are so far from 1900 are beyond the calendar. -/
def yearLimit : Int := 0x80000000

/-- The moment of a number of seconds and microseconds. -/
def ofSeconds (seconds : Int) (micro : Nat) : Except MomentFault Moment :=
  if seconds < -secondLimit ∨ secondLimit ≤ seconds then .error .clock
  else
    let days := Int.fdiv seconds 86400
    let rest := (seconds - days * 86400).toNat
    let (year, month, day) := date days
    if year - 1900 < -yearLimit ∨ yearLimit ≤ year - 1900 then .error .calendar
    else .ok ⟨year, month, day, rest / 3600, rest / 60 % 60, rest % 60, micro⟩

/-- The whole seconds up to a point in time. -/
def floorSeconds (t : Double) : Int :=
  Int.fdiv t.signedUnits unitsPerOne

/-- The second of a point in time. -/
def second? (t : Double) : Except MomentFault Moment := ofSeconds (floorSeconds t) 0

/-- The microsecond nearest to a point in time: its fraction is multiplied by a million as a double,
and a half is rounded to the even neighbour. -/
def micro? (t : Double) : Except MomentFault Moment :=
  let millionths := roundUnits (t.units % unitsPerOne * 1000000) 1
  let part : Int := (roundHalfEven millionths unitsPerOne : Nat)
  let total := t.truncate * 1000000 + (if t.negative then -part else part)
  ofSeconds (Int.fdiv total 1000000) (Int.emod total 1000000).toNat

/-- Two digits. -/
def two (n : Nat) : List Char := zeroPadded 2 n

/-- Month, day and time of day, with a mark between the two. -/
def withinYear (m : Moment) (mark : Char) : List Char :=
  '-' :: two m.month ++ '-' :: two m.day ++ mark :: two m.hour ++ ':' :: two m.minute
    ++ ':' :: two m.second

/-- The text with a blank between date and time. -/
def plainText (m : Moment) : List Char := integerText m.year ++ m.withinYear ' '

/-- The text with the offset from universal time. Microseconds are left out if there are none. -/
def offsetText (m : Moment) : Except MomentFault (List Char) :=
  if 1 ≤ m.year ∧ m.year ≤ 9999 then
    let fraction := if m.micro = 0 then [] else '.' :: zeroPadded 6 m.micro
    .ok (zeroPadded 4 m.year.toNat ++ m.withinYear 'T' ++ fraction ++ "+00:00".toList)
  else .error (.year m.year)

end Moment

end StructuredOutput
