/-!
# Dates

Dates of the proleptic Gregorian calendar, in the years for which every second fits the range of
the timestamps. A date is valid by construction. Days are numbered from the first of January
1970; the numbering and its inverse go through cycles of 400, 100, 4 and 1 years.
-/

namespace Stencil

namespace Calendar

/-- The first year of the calendar. -/
def minYear : Int := -262143

/-- The last year of the calendar. -/
def maxYear : Int := 262142

/-- Whether a year has a 29th of February. -/
def isLeap (year : Int) : Bool := year % 4 = 0 && (year % 100 ≠ 0 || year % 400 = 0)

/-- The number of days of a month; none outside the year. -/
def daysInMonth (year : Int) (month : Nat) : Nat :=
  match month with
  | 1 => 31
  | 2 => if isLeap year then 29 else 28
  | 3 => 31
  | 4 => 30
  | 5 => 31
  | 6 => 30
  | 7 => 31
  | 8 => 31
  | 9 => 30
  | 10 => 31
  | 11 => 30
  | 12 => 31
  | _ => 0

/-- The days of a year before a month. -/
def daysBeforeMonth (year : Int) (month : Nat) : Nat :=
  (List.range (month - 1)).foldl (fun n i => n + daysInMonth year (i + 1)) 0

/-- The days from the first of January of the year one to that of another year. -/
def daysBeforeYear (year : Int) : Int :=
  let past := year - 1
  365 * past + past / 4 - past / 100 + past / 400

/-- Whether a year, a month and a day make a date. -/
def Valid (year : Int) (month day : Nat) : Prop :=
  minYear ≤ year ∧ year ≤ maxYear ∧ 1 ≤ day ∧ day ≤ daysInMonth year month

instance (year : Int) (month day : Nat) : Decidable (Valid year month day) :=
  inferInstanceAs (Decidable (_ ∧ _ ∧ _ ∧ _))

/-- The year and the day within it, from zero, of a number of days since the year one. -/
def yearOfDays (days : Int) : Int × Nat :=
  let era := days / 146097
  let days := (days % 146097).toNat
  let century := min (days / 36524) 3
  let days := days - 36524 * century
  let leapCycle := days / 1461
  let days := days - 1461 * leapCycle
  let rest := min (days / 365) 3
  (400 * era + (100 * century + 4 * leapCycle + rest + 1 : Nat), days - 365 * rest)

/-- The month and the day within it, from one, of a day within a row of months, from zero. -/
def monthOfDays (year : Int) (month : Nat) : (months : Nat) → (days : Nat) → Nat × Nat
  | 0, days => (month, days + 1)
  | months + 1, days =>
    if days < daysInMonth year month then (month, days + 1)
    else monthOfDays year (month + 1) months (days - daysInMonth year month)

end Calendar

open Calendar

/-- A date. -/
structure Date where
  /-- The year; there is a year zero. -/
  year : Int
  /-- The month, from one. -/
  month : Nat
  /-- The day, from one. -/
  day : Nat
  /-- The calendar has the date. -/
  valid : Valid year month day
  deriving DecidableEq

namespace Date

/-- The date of a year, a month and a day, if there is one. -/
def of? (year : Int) (month day : Nat) : Option Date :=
  if h : Valid year month day then some ⟨year, month, day, h⟩ else none

/-- The day within the year, from zero. -/
def dayOfYear (d : Date) : Nat := daysBeforeMonth d.year d.month + d.day - 1

/-- The number of days since the first of January 1970. -/
def dayNumber (d : Date) : Int := daysBeforeYear d.year + d.dayOfYear - daysBeforeYear 1970

/-- The date of a number of days since the first of January 1970. -/
def ofDayNumber? (n : Int) : Option Date :=
  let (year, days) := yearOfDays (n + daysBeforeYear 1970)
  let (month, day) := monthOfDays year 1 11 days
  of? year month day

/-- The day before, if the calendar has it. -/
def previous? (d : Date) : Option Date := ofDayNumber? (d.dayNumber - 1)

/-- The length of a month, by the day before the first of the next month. The calendar ends with a
month of 31 days, which has no next. -/
def monthLength (year : Int) (month : Nat) : Nat :=
  let next := if month = 12 then of? (year + 1) 1 1 else of? year (month + 1) 1
  match next.bind previous? with
  | some d => d.day
  | none => 31

/-- The day of the week; Monday is zero. -/
def weekday (d : Date) : Nat := ((d.dayNumber + 3) % 7).toNat

/-- The number of ISO weeks of a year: a week belongs to the year that holds its Thursday. -/
def isoWeeks (year : Int) : Nat :=
  let january := ((daysBeforeYear year) % 7).toNat
  if january = 3 || (january = 2 && isLeap year) then 53 else 52

/-- The ISO week. -/
def isoWeek (d : Date) : Nat :=
  let week := (d.dayOfYear + 10 - d.weekday) / 7
  if week = 0 then isoWeeks (d.year - 1)
  else if week > isoWeeks d.year then 1
  else week

/-- The date a number of months later, on the last day of a month that is too short. -/
def addMonths? (d : Date) (n : Int) : Option Date :=
  let months := 12 * d.year + (d.month - 1 : Nat) + n
  let year := months / 12
  let month := (months % 12).toNat + 1
  of? year month (min d.day (daysInMonth year month))

end Date

end Stencil
