import Stencil.Calendar.DateTime
import Stencil.Decimal.Integer

/-!
# Writing dates

A date format is a text of which some letters stand for parts of the date. All other characters
stand for themselves, and so does a letter after a backslash.
-/

namespace Stencil.Calendar

/-- The names of the days of the week, from Monday. -/
def weekdayNames : List String :=
  ["Monday", "Tuesday", "Wednesday", "Thursday", "Friday", "Saturday", "Sunday"]

/-- The names of the months. -/
def monthNames : List String :=
  ["January", "February", "March", "April", "May", "June", "July", "August", "September",
   "October", "November", "December"]

/-- The name of a day of the week, from Monday as zero. -/
def weekdayName (n : Nat) : Text := (weekdayNames.getD n "").toList

/-- The name of a month, from January as one. -/
def monthName (n : Nat) : Text := (monthNames.getD (n - 1) "").toList

/-- A year in at least four digits, with a sign unless four are enough. -/
def yearText (year : Int) : Text :=
  if 0 ≤ year ∧ year ≤ 9999 then Decimal.padded 4 year.toNat
  else (if year < 0 then '-' else '+') :: Decimal.padded 4 year.natAbs

/-- The date as year, month and day. -/
def dateText (d : Date) : Text :=
  yearText d.year ++ '-' :: Decimal.padded 2 d.month ++ '-' :: Decimal.padded 2 d.day

/-- The time of day as a clock shows it. -/
def clockText (t : DateTime) : Text :=
  Decimal.padded 2 t.hour ++ ':' :: Decimal.padded 2 t.minute ++
    ':' :: Decimal.padded 2 t.clockSecond

/-- The plain notation of a point in time, which is read back as the same. -/
def plainText (t : DateTime) : Text := dateText t.date ++ ' ' :: clockText t

/-- The notation of the internet timestamp, in universal time. -/
def stampText (t : DateTime) : Text := dateText t.date ++ 'T' :: clockText t ++ "+00:00".toList

/-- The notation of mail headers, in universal time. -/
def mailText (t : DateTime) : Text :=
  (weekdayName t.date.weekday).take 3 ++ ", ".toList ++ Decimal.padded 2 t.date.day ++
    ' ' :: (monthName t.date.month).take 3 ++ ' ' :: yearText t.date.year ++
    ' ' :: clockText t ++ " +0000".toList

/-- What a character of a format stands for. -/
def formatField (t : DateTime) (c : Char) : Text :=
  let d := t.date
  match c with
  | 'd' => Decimal.padded 2 d.day
  | 'D' => (weekdayName d.weekday).take 3
  | 'j' => Decimal.natText d.day
  | 'l' => weekdayName d.weekday
  | 'N' => Decimal.natText (d.weekday + 1)
  | 'w' => Decimal.natText ((d.weekday + 1) % 7)
  | 'z' => Decimal.natText d.dayOfYear
  | 'W' => Decimal.padded 2 d.isoWeek
  | 'F' => monthName d.month
  | 'm' => Decimal.padded 2 d.month
  | 'M' => (monthName d.month).take 3
  | 'n' => Decimal.natText d.month
  | 't' => Decimal.natText (Date.monthLength d.year d.month)
  | 'L' => if (Date.of? d.year 2 29).isSome then ['1'] else ['0']
  | 'Y' => Decimal.intText d.year
  | 'y' => Decimal.padded 2 (d.year % 100).toNat
  | 'a' => if t.hour < 12 then ['a', 'm'] else ['p', 'm']
  | 'A' => if t.hour < 12 then ['A', 'M'] else ['P', 'M']
  | 'g' => Decimal.natText t.hour12
  | 'G' => Decimal.natText t.hour
  | 'h' => Decimal.padded 2 t.hour12
  | 'H' => Decimal.padded 2 t.hour
  | 'i' => Decimal.padded 2 t.minute
  | 's' => Decimal.padded 2 t.secondOfMinute
  | 'U' => Decimal.intText t.timestamp
  | 'c' => stampText t
  | 'r' => mailText t
  | c => [c]

/-- Writes a point in time by a format. -/
def write (t : DateTime) : (format : Text) → Text
  | [] => []
  | '\\' :: c :: format => c :: write t format
  | c :: format => if c = '\\' then write t format else formatField t c ++ write t format

end Stencil.Calendar
