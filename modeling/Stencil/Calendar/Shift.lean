import Stencil.Error
import Stencil.Text.Case
import Stencil.Calendar.DateTime

/-!
# Shifting dates

A modifier is a row of words: names of days near today, or signed amounts each followed by a
unit of time, with or without a blank between. Case does not matter, and neither does a plural.
The shifts are made one after the other.
-/

namespace Stencil.Calendar

/-- A unit of time in modifiers. -/
inductive Unit where
  /-- A number of months. -/
  | months (n : Int)
  /-- A number of seconds. -/
  | seconds (n : Int)
  deriving DecidableEq, Repr

/-- The unit of a name in the singular. -/
def Unit.ofName? (name : String) : Option Unit :=
  match name with
  | "year" => some (.months 12)
  | "month" => some (.months 1)
  | "week" => some (.seconds 604800)
  | "day" => some (.seconds 86400)
  | "hour" => some (.seconds 3600)
  | "minute" | "min" => some (.seconds 60)
  | "second" | "sec" => some (.seconds 1)
  | _ => none

/-- The singular of a name: without any `s` at its end. -/
def singular (name : Text) : Text := (name.reverse.dropWhile (· = 's')).reverse

/-- The most months that a date is shifted by. -/
def maxMonths : Nat := Nat.pow 2 32 - 1

/-- The most seconds that a point in time is shifted by: durations have 64 bits of milliseconds. -/
def maxSeconds : Nat := (Nat.pow 2 63 - 1) / 1000

/-- An amount of a unit of so many months or seconds. The product must have 64 bits, and its size is
limited. -/
def total? (most : Nat) (amount n : Int) : Option Int :=
  ((Decimal.toInt64? (amount * n)).map (·.toInt)).filter (·.natAbs ≤ most)

/-- Shifts a point in time by an amount of a unit. -/
def shift (t : DateTime) (amount : Int) (name : Text) : Except FilterError DateTime :=
  let shifted (r : Option DateTime) :=
    match r with
    | some t => .ok t
    | none => .error (.shiftOutOfRange amount (String.ofList name))
  let unit := String.ofList (singular name)
  match Unit.ofName? unit with
  | some (.months n) => shifted ((total? maxMonths amount n).bind t.addMonths?)
  | some (.seconds n) => shifted ((total? maxSeconds amount n).bind t.addSeconds?)
  | none => .error (.unknownUnit unit)

/-- The sign and digits in front of a word, and the rest of it. -/
def splitAmount (word : Text) : Text × Text :=
  let sign := word.take (match word with
    | '+' :: _ => 1
    | '-' :: _ => 1
    | _ => 0)
  let rest := word.drop sign.length
  (sign ++ rest.takeWhile isDigit, rest.dropWhile isDigit)

/-- Makes the shifts of a row of words; errors show the modifier as it was given. -/
def shiftByWords (modifier : String) : DateTime → List Text → Except FilterError DateTime
  | t, [] => .ok t
  | t, word :: rest =>
    match String.ofList word with
    | "now" => shiftByWords modifier t rest
    | "today" | "midnight" => shiftByWords modifier (.midnight t.date) rest
    | "tomorrow" => do
      shiftByWords modifier (← shift (.midnight t.date) 1 "day".toList) rest
    | "yesterday" => do
      shiftByWords modifier (← shift (.midnight t.date) (-1) "day".toList) rest
    | _ =>
      let (digits, unit) := splitAmount word
      match Decimal.readInt64? digits with
      | none => .error (.invalidModifier modifier)
      | some amount =>
        if unit.isEmpty then
          match rest with
          | [] => .error (.missingUnit modifier)
          | unit :: rest => do
            shiftByWords modifier (← shift t amount.toInt unit) rest
        else do
          shiftByWords modifier (← shift t amount.toInt unit) rest

/-- Shifts a point in time by a modifier. -/
def modify (t : DateTime) (modifier : String) : Except FilterError DateTime :=
  shiftByWords modifier t (Text.words (Text.lower modifier.toList))

end Stencil.Calendar
