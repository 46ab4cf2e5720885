import QueryTree.Text

/-!
# Timestamps

The calendar comes from a library that is only relied on: it is not a part of this
one, and what values need of it is written out here as it is documented. A point in
time is a number of seconds since the start of 1970 in universal time, in the
Gregorian calendar extended to all years. A leap second shares the number of the
second before it, and is written as the second 60. Text is read as a date and a
time of RFC 3339 with `T`, `t` or a space between them, with an optional fraction of
a second, and with an offset whose minus may also be the mathematical sign.
Fractions of a second are not kept, for they are not written. A timestamp is written
in universal time, with a sign before a year outside 0 to 9999. What is proved of
values without all of this is proved for any `Value.Forms`.
-/

namespace QueryTree

/-- A second in universal time. -/
structure Timestamp where
  /-- The seconds since the start of 1970. -/
  seconds : Int
  /-- Whether the second is the leap second after the one counted. -/
  leap : Bool
deriving DecidableEq, Repr

/-- A day of the calendar. -/
structure Date where
  year : Int
  month : Nat
  day : Nat
deriving DecidableEq, Repr

namespace Date

/-- Every fourth year is a leap year, but of the centuries only every fourth. -/
def isLeapYear (year : Int) : Bool :=
  year % 4 == 0 && (year % 100 != 0 || year % 400 == 0)

/-- The number of days of a month, and zero for what is no month. -/
def daysInMonth (year : Int) (month : Nat) : Nat :=
  match month with
  | 1 | 3 | 5 | 7 | 8 | 10 | 12 => 31
  | 4 | 6 | 9 | 11 => 30
  | 2 => if isLeapYear year then 29 else 28
  | _ => 0

/-- Whether the day exists. -/
def isValid (d : Date) : Bool :=
  1 ≤ d.day && d.day ≤ daysInMonth d.year d.month

/-- The days from the first of March of the year zero to the start of 1970. -/
def epochDays : Int := 719468

/-- The days from the start of 1970 to a date. Years are counted from March here,
so that a leap day ends its year. -/
def toDays (d : Date) : Int :=
  let year := if d.month ≤ 2 then d.year - 1 else d.year
  let month : Int := if d.month ≤ 2 then d.month + 9 else d.month - 3
  365 * year + year / 4 - year / 100 + year / 400 + (153 * month + 2) / 5 + d.day - 1 - epochDays

/-- The date so many days after the start of 1970. -/
def ofDays (days : Int) : Date :=
  let shifted := days + epochDays
  let era := shifted / 146097
  let dayOfEra := shifted % 146097
  let yearOfEra :=
    (dayOfEra - dayOfEra / 1460 + dayOfEra / 36524 - dayOfEra / 146096) / 365
  let dayOfYear := dayOfEra - (365 * yearOfEra + yearOfEra / 4 - yearOfEra / 100)
  let month := (5 * dayOfYear + 2) / 153
  let day := dayOfYear - (153 * month + 2) / 5 + 1
  let calendarMonth := if month < 10 then month + 3 else month - 9
  { year := yearOfEra + era * 400 + if calendarMonth ≤ 2 then 1 else 0
    month := calendarMonth.toNat
    day := day.toNat }

end Date

namespace Timestamp

/-- The number of seconds of a day. -/
def secondsPerDay : Int := 86400

/-- A second by date and time of day. -/
def ofCivil (date : Date) (hour minute second : Nat) (leap : Bool) : Timestamp where
  seconds := date.toDays * secondsPerDay + 3600 * hour + 60 * minute + second
  leap := leap

/-- A year in at least four digits. Outside the years 0 to 9999 it has a sign. -/
def yearText (year : Int) : Text :=
  let sign := if year < 0 then ['-'] else if 9999 < year then ['+'] else []
  sign ++ Text.ofNatPadded 4 year.natAbs

/-- The timestamp written out, as in `2016-01-02 03:04:05+0000`. -/
def toText (t : Timestamp) : Text :=
  let date := Date.ofDays (t.seconds / secondsPerDay)
  let time := (t.seconds % secondsPerDay).toNat
  let two := Text.ofNatPadded 2
  yearText date.year ++ '-' :: two date.month ++ '-' :: two date.day ++
    ' ' :: two (time / 3600) ++ ':' :: two (time / 60 % 60) ++
    ':' :: two (time % 60 + if t.leap then 1 else 0) ++ "+0000".toList

/-- Reads an offset from universal time, in minutes to the east. -/
def readOffset : Text → Option Int
  | ['Z'] | ['z'] => some 0
  | [sign, h₁, h₂, ':', m₁, m₂] => do
    let hours ← Text.digits? [h₁, h₂]
    let minutes ← Text.digits? [m₁, m₂]
    if hours < 24 && minutes < 60 then
      let total : Int := 60 * hours + minutes
      if sign == '+' then some total
      else if sign == '-' || sign == '\u2212' then some (-total)
      else none
    else none
  | _ => none

/-- Drops a fraction of a second, which has at least one digit. -/
def dropFraction : Text → Option Text
  | '.' :: t => if t.head?.any Char.isDigit then some (t.dropWhile Char.isDigit) else none
  | t => some t

/-- The timestamp that a text denotes: a date, a time and an offset. A second may
be a leap second in any minute. -/
def ofText? : Text → Option Timestamp
  | y₁ :: y₂ :: y₃ :: y₄ :: '-' :: o₁ :: o₂ :: '-' :: d₁ :: d₂ :: separator ::
      h₁ :: h₂ :: ':' :: m₁ :: m₂ :: ':' :: s₁ :: s₂ :: rest => do
    let year ← Text.digits? [y₁, y₂, y₃, y₄]
    let month ← Text.digits? [o₁, o₂]
    let day ← Text.digits? [d₁, d₂]
    let hour ← Text.digits? [h₁, h₂]
    let minute ← Text.digits? [m₁, m₂]
    let second ← Text.digits? [s₁, s₂]
    let offset ← readOffset (← dropFraction rest)
    let date : Date := { year := year, month := month, day := day }
    if ['T', 't', ' '].contains separator && date.isValid && hour < 24 && minute < 60 &&
        second ≤ 60 then
      let civil := ofCivil date hour minute (min second 59) (second == 60)
      some { civil with seconds := civil.seconds - 60 * offset }
    else none
  | _ => none

end Timestamp

end QueryTree
