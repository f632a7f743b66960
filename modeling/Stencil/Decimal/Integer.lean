import Stencil.Text.Basic

/-!
# Decimal integers

Reading and writing integers in decimal. A number is read only as a whole: digits alone, after
at most one sign, and within the range asked for.
-/

namespace Stencil.Decimal

/-- The digits of a natural number. -/
def natText (n : Nat) : Text := Nat.toDigits 10 n

/-- An integer in decimal, with a sign only if it is negative. -/
def intText : Int → Text
  | .ofNat n => natText n
  | .negSucc n => '-' :: natText (n + 1)

/-- A number padded with zeros to a width. -/
def padded (width n : Nat) : Text :=
  let digits := natText n
  List.replicate (width - digits.length) '0' ++ digits

/-- The value of a digit. -/
def digitValue (c : Char) : Nat := c.toNat - '0'.toNat

/-- The value of a row of digits. -/
def natOfDigits (s : Text) : Nat := s.foldl (fun n c => 10 * n + digitValue c) 0

/-- Reads a nonempty row of digits. -/
def readNat? (s : Text) : Option Nat :=
  if s.isEmpty || !s.all isDigit then none else some (natOfDigits s)

/-- Reads an integer with an optional sign. -/
def readInt? : Text → Option Int
  | '+' :: s => (readNat? s).map fun n => (n : Int)
  | '-' :: s => (readNat? s).map fun n => -(n : Int)
  | s => (readNat? s).map fun n => (n : Int)

/-- The 64-bit integer of a value in its range. -/
def toInt64? (n : Int) : Option Int64 :=
  if Int64.minValue.toInt ≤ n ∧ n ≤ Int64.maxValue.toInt then some (Int64.ofInt n) else none

/-- Reads a signed 64-bit integer. -/
def readInt64? (s : Text) : Option Int64 := (readInt? s).bind toInt64?

/-- Reads an integer that fits in 32 bits with its sign. -/
def readInt32? (s : Text) : Option Int :=
  (readInt? s).filter fun n => Int32.minValue.toInt ≤ n && n ≤ Int32.maxValue.toInt

/-- Reads an unsigned 64-bit integer, which may carry a plus sign. -/
def readUInt64? (s : Text) : Option Nat :=
  (readNat? ((s.dropPrefix? ['+']).getD s)).filter fun n => n < UInt64.size

end Stencil.Decimal
