import Stencil.Calendar.Date

/-!
# Points in time

A date with a time of day, without a time zone. A leap second is the last second of its minute
with a second or more of nanoseconds. Adding a positive time to it counts from the start of the
last second, and adding a negative one from the end of the leap second; adding nothing keeps it.
-/

namespace Stencil

/-- A date and a time of day. -/
structure DateTime where
  /-- The date. -/
  date : Date
  /-- The seconds since midnight. -/
  second : Nat
  /-- The nanoseconds since the start of the second. -/
  nano : Nat
  /-- The second lies in the day. -/
  second_lt : second < 86400
  /-- The nanoseconds lie in the second, or in the leap second after it. -/
  nano_lt : nano < 2000000000
  deriving DecidableEq

namespace DateTime

/-- The point in time of a date, a second of the day and a nanosecond, if there is one. -/
def of? (date : Date) (second nano : Nat) : Option DateTime :=
  if h : second < 86400 ∧ nano < 2000000000 then some ⟨date, second, nano, h.1, h.2⟩ else none

/-- The start of a day. -/
def midnight (date : Date) : DateTime := ⟨date, 0, 0, by decide, by decide⟩

/-- The point in time of a date and a time on a clock that also shows leap seconds. -/
def ofClock? (date : Date) (hour minute second nano : Nat) : Option DateTime :=
  if hour < 24 ∧ minute < 60 ∧ second ≤ 60 ∧ nano < 1000000000 then
    if second = 60 then of? date (3600 * hour + 60 * minute + 59) (nano + 1000000000)
    else of? date (3600 * hour + 60 * minute + second) nano
  else none

/-- The hour of the day. -/
def hour (t : DateTime) : Nat := t.second / 3600

/-- The minute of the hour. -/
def minute (t : DateTime) : Nat := t.second / 60 % 60

/-- The second of the minute. -/
def secondOfMinute (t : DateTime) : Nat := t.second % 60

/-- The second of the minute that a clock shows, which is 60 in a leap second. -/
def clockSecond (t : DateTime) : Nat := t.secondOfMinute + t.nano / 1000000000

/-- The hour on a clock face of twelve hours. -/
def hour12 (t : DateTime) : Nat := if t.hour % 12 = 0 then 12 else t.hour % 12

/-- The seconds since the start of 1970. -/
def timestamp (t : DateTime) : Int := 86400 * t.date.dayNumber + t.second

/-- The point in time a number of seconds and nanoseconds after the start of 1970. -/
def ofTimestamp? (seconds : Int) (nano : Nat) : Option DateTime :=
  (Date.ofDayNumber? (seconds / 86400)).bind fun date => of? date (seconds % 86400).toNat nano

/-- Adds seconds. -/
def addSeconds? (t : DateTime) (n : Int) : Option DateTime :=
  if n = 0 then some t
  else if t.nano < 1000000000 then ofTimestamp? (t.timestamp + n) t.nano
  else if 0 < n then ofTimestamp? (t.timestamp + n) (t.nano - 1000000000)
  else ofTimestamp? (t.timestamp + 1 + n) (t.nano - 1000000000)

/-- Adds months and keeps the time of day. -/
def addMonths? (t : DateTime) (n : Int) : Option DateTime :=
  (t.date.addMonths? n).map fun date => { t with date := date }

end DateTime

end Stencil
