import Stencil.Calendar.DateTime
import Stencil.Decimal.Integer

/-!
# Reading dates

Two kinds of notation are read. The internet timestamp has fields of fixed width and states an
offset from universal time; the local time it shows is kept. The lenient notations are given by
patterns: a field may be preceded by blanks and may be short, a year may carry a sign and then
have any length, and a blank in a pattern stands for any number of blanks.
-/

namespace Stencil.Calendar

/-- The parts of a date and time as they are read. -/
structure Fields where
  /-- The year. -/
  year : Int := 0
  /-- The month. -/
  month : Nat := 0
  /-- The day. -/
  day : Nat := 0
  /-- The hour. -/
  hour : Nat := 0
  /-- The minute. -/
  minute : Nat := 0
  /-- The second, which may be a leap second. -/
  second : Nat := 0
  /-- The nanosecond. -/
  nano : Nat := 0

/-- The point in time that the fields name. -/
def Fields.toDateTime? (f : Fields) : Option DateTime :=
  (Date.of? f.year f.month f.day).bind fun date =>
    DateTime.ofClock? date f.hour f.minute f.second f.nano

/-- Reads digits: at least one, and no more than `most`. -/
def readDigits (most : Nat) (s : Text) : Option (Nat × Text) :=
  let digits := (s.takeWhile isDigit).take most
  if digits.isEmpty then none else some (Decimal.natOfDigits digits, s.drop digits.length)

/-- Reads a year: four digits at most, unless it carries a sign. -/
def readYear (s : Text) : Option (Int × Text) :=
  match s with
  | '-' :: s => (readDigits s.length s).map fun (n, rest) => (-(n : Int), rest)
  | '+' :: s => (readDigits s.length s).map fun (n, rest) => ((n : Int), rest)
  | s => (readDigits 4 s).map fun (n, rest) => ((n : Int), rest)

/-- An element of a lenient notation. -/
inductive Element where
  /-- The year. -/
  | year
  /-- The month, in up to two digits. -/
  | month
  /-- The day, in up to two digits. -/
  | day
  /-- The hour, in up to two digits. -/
  | hour
  /-- The minute, in up to two digits. -/
  | minute
  /-- The second, in up to two digits. -/
  | second
  /-- A character that must be there. -/
  | mark (c : Char)
  /-- Any number of blanks. -/
  | blanks

/-- Reads one element into the fields. -/
def Element.read (e : Element) (f : Fields) (s : Text) : Option (Fields × Text) :=
  let field (put : Nat → Fields) := (readDigits 2 s.trimStart).map fun (n, rest) => (put n, rest)
  match e with
  | .year => (readYear s.trimStart).map fun (n, rest) => ({ f with year := n }, rest)
  | .month => field fun n => { f with month := n }
  | .day => field fun n => { f with day := n }
  | .hour => field fun n => { f with hour := n }
  | .minute => field fun n => { f with minute := n }
  | .second => field fun n => { f with second := n }
  | .mark c => (s.dropPrefix? [c]).map fun rest => (f, rest)
  | .blanks => some (f, s.trimStart)

/-- Reads a whole text by a notation. -/
def readBy : List Element → Fields → Text → Option Fields
  | [], f, s => if s.isEmpty then some f else none
  | e :: rest, f, s => (e.read f s).bind fun (f, s) => readBy rest f s

/-- Year, month and day. -/
def dayNotation : List Element := [.year, .mark '-', .month, .mark '-', .day]

/-- Hour and minute. -/
def minuteNotation : List Element := [.hour, .mark ':', .minute]

/-- Hour, minute and second. -/
def secondNotation : List Element := minuteNotation ++ [.mark ':', .second]

/-- The lenient notations, in the order in which they are tried. -/
def notations : List (List Element) :=
  [dayNotation ++ [.blanks] ++ secondNotation, dayNotation ++ [.mark 'T'] ++ secondNotation,
   dayNotation ++ [.blanks] ++ minuteNotation, dayNotation]

/-- Reads digits of a fixed number. -/
def readFixed (width : Nat) (s : Text) : Option (Nat × Text) :=
  let digits := s.take width
  if digits.length = width && digits.all isDigit then
    some (Decimal.natOfDigits digits, s.drop width)
  else none

/-- Reads the fraction of a second as nanoseconds; digits after the ninth do not count. -/
def readNano (s : Text) : Option (Nat × Text) :=
  match s with
  | '.' :: s =>
    let digits := s.takeWhile isDigit
    let counted := digits.take 9
    if digits.isEmpty then none
    else some (Decimal.natOfDigits counted * Nat.pow 10 (9 - counted.length), s.dropWhile isDigit)
  | s => some (0, s)

/-- The minus sign, which may stand for the hyphen in front of an offset. -/
def minusSign : Char := Char.ofNat 0x2212

/-- Reads the offset from universal time, in minutes, up to the end of the text. -/
def readOffset (s : Text) : Option Int :=
  match s with
  | [] => none
  | c :: s =>
    if c = 'Z' || c = 'z' then (if s.isEmpty then some 0 else none)
    else if c = '+' || c = '-' || c = minusSign then do
      let (hours, s) ← readFixed 2 s
      let s ← s.dropPrefix? [':']
      let (minutes, s) ← readFixed 2 s
      if s.isEmpty && hours < 24 && minutes < 60 then
        let offset : Int := 60 * hours + minutes
        some (if c = '+' then offset else -offset)
      else none
    else none

/-- Reads an internet timestamp: its local time and its offset in minutes. -/
def readStamp (s : Text) : Option (Fields × Int) := do
  let (year, s) ← readFixed 4 s
  let s ← s.dropPrefix? ['-']
  let (month, s) ← readFixed 2 s
  let s ← s.dropPrefix? ['-']
  let (day, s) ← readFixed 2 s
  let s ← (s.dropPrefix? ['T']).or ((s.dropPrefix? ['t']).or (s.dropPrefix? [' ']))
  let (hour, s) ← readFixed 2 s
  let s ← s.dropPrefix? [':']
  let (minute, s) ← readFixed 2 s
  let s ← s.dropPrefix? [':']
  let (second, s) ← readFixed 2 s
  let (nano, s) ← readNano s
  let offset ← readOffset s
  return (⟨year, month, day, hour, minute, second, nano⟩, offset)

/-- Reads a point in time in any of the notations. -/
def read? (s : Text) : Option DateTime :=
  match (readStamp s).bind fun (f, _) => f.toDateTime? with
  | some t => some t
  | none => notations.findSome? fun n => (readBy n {} s).bind (·.toDateTime?)

end Stencil.Calendar
