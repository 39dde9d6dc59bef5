/-!
# Calendar dates

Dates of the proleptic Gregorian calendar within the supported range of years. A date carries the
proof that it exists, so the 30th of February is not one. Dates are counted in days from
1970-01-01, the count being a formula over cycles of four hundred years.

## Main definitions

* `Date` — dates
* `Date.next?`, `Date.previous?` — the neighbours of a date
* `Date.dayNumber`, `Date.ofDayNumber?` — the count of days and its inverse
-/

namespace KeyLedger

/-- Whether a year has a 29th of February. -/
def isLeapYear (year : Int) : Bool :=
  year % 4 == 0 && (year % 100 != 0 || year % 400 == 0)

/-- The number of days of a month; there are none in a month that does not exist. -/
def daysInMonth (year : Int) : Nat → Nat
  | 1 | 3 | 5 | 7 | 8 | 10 | 12 => 31
  | 4 | 6 | 9 | 11 => 30
  | 2 => if isLeapYear year then 29 else 28
  | _ => 0

/-- The dates that exist. -/
def IsDate (year : Int) (month day : Nat) : Prop :=
  -262143 ≤ year ∧ year ≤ 262142 ∧ 1 ≤ day ∧ day ≤ daysInMonth year month

instance (year : Int) (month day : Nat) : Decidable (IsDate year month day) := by
  unfold IsDate; infer_instance

/-- A calendar date. -/
structure Date where
  /-- The year, astronomically numbered: the year 0 precedes the year 1. -/
  year : Int
  /-- The month, from 1. -/
  month : Nat
  /-- The day of the month, from 1. -/
  day : Nat
  /-- The date exists. -/
  valid : IsDate year month day
deriving DecidableEq

namespace Date

/-- The date with the given parts, if it exists. -/
def of? (year : Int) (month day : Nat) : Option Date :=
  if h : IsDate year month day then some ⟨year, month, day, h⟩ else none

/-- The day after, unless the range of years ends. -/
def next? (d : Date) : Option Date :=
  if d.day < daysInMonth d.year d.month then of? d.year d.month (d.day + 1)
  else if d.month < 12 then of? d.year (d.month + 1) 1
  else of? (d.year + 1) 1 1

/-- The day before, unless the range of years ends. -/
def previous? (d : Date) : Option Date :=
  if 1 < d.day then of? d.year d.month (d.day - 1)
  else if 1 < d.month then of? d.year (d.month - 1) (daysInMonth d.year (d.month - 1))
  else of? (d.year - 1) 12 31

/-! ### Counting days -/

/-- The days of a cycle of four hundred years. -/
def daysPerCycle : Int := 146097

/-- The days from 0000-03-01 to 1970-01-01. -/
def epochShift : Int := 719468

/-- The number of days from 1970-01-01. Years are taken to begin in March, so that the day added in
a leap year is the last of its year. -/
def dayNumber (d : Date) : Int :=
  let year := if d.month ≤ 2 then d.year - 1 else d.year
  let cycle := Int.fdiv year 400
  let yearOfCycle := year - cycle * 400
  let month : Int := if d.month ≤ 2 then d.month + 9 else d.month - 3
  let dayOfYear := (153 * month + 2) / 5 + d.day - 1
  let dayOfCycle := yearOfCycle * 365 + yearOfCycle / 4 - yearOfCycle / 100 + dayOfYear
  cycle * daysPerCycle + dayOfCycle - epochShift

/-- The date that is the given number of days from 1970-01-01, if the range of years has it. -/
def ofDayNumber? (n : Int) : Option Date :=
  let shifted := n + epochShift
  let cycle := Int.fdiv shifted daysPerCycle
  let dayOfCycle := shifted - cycle * daysPerCycle
  let yearOfCycle :=
    (dayOfCycle - dayOfCycle / 1460 + dayOfCycle / 36524 - dayOfCycle / 146096) / 365
  let dayOfYear := dayOfCycle - (365 * yearOfCycle + yearOfCycle / 4 - yearOfCycle / 100)
  let month := (5 * dayOfYear + 2) / 153
  let day := dayOfYear - (153 * month + 2) / 5 + 1
  let year := yearOfCycle + cycle * 400
  if month < 10 then of? year (month + 3).toNat day.toNat
  else of? (year + 1) (month - 9).toNat day.toNat

end Date

end KeyLedger
