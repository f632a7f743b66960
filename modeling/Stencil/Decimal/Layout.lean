import Stencil.Decimal.Shortest

/-!
# Number text

How a double is written once its digits are known, and how a decimal is read. Two layouts share
the digits: the plain one, which never uses an exponent and marks no whole number, and the
interchange one, which does both.
-/

namespace Stencil.Decimal

/-- The choices that a number format makes. -/
structure Layout where
  /-- What follows a whole number written without an exponent. -/
  wholeMark : Text
  /-- Which exponents of the leading digit are written out with zeros. -/
  positional : Int → Bool

/-- Whole numbers look like integers, and no exponent is ever written. -/
def Layout.plain : Layout := ⟨[], fun _ => true⟩

/-- Whole numbers end in `.0`, and an exponent stands for more than four zeros after the point
or for whole numbers of more than sixteen digits. -/
def Layout.interchange : Layout := ⟨['.', '0'], fun e => -5 ≤ e && e < 16⟩

/-- The digits of a decimal without trailing zeros; a zero keeps its one digit. -/
def significant (n : Nat) : Text :=
  match ((natText n).reverse.dropWhile (· = '0')).reverse with
  | [] => ['0']
  | digits => digits

/-- Writes digits of which the first has the exponent `lead`, all zeros included. -/
def Layout.positionalText (l : Layout) (digits : Text) (lead : Int) : Text :=
  if lead < 0 then ['0', '.'] ++ List.replicate (-lead - 1).toNat '0' ++ digits
  else
    let whole := lead.toNat + 1
    if digits.length ≤ whole then
      digits ++ List.replicate (whole - digits.length) '0' ++ l.wholeMark
    else digits.take whole ++ '.' :: digits.drop whole

/-- Writes digits of which the first has the exponent `lead`, with that exponent. -/
def exponentText (digits : Text) (lead : Int) : Text :=
  let fraction := digits.drop 1
  let mantissa := digits.take 1 ++ if fraction.isEmpty then [] else '.' :: fraction
  mantissa ++ ['e'] ++ (if 0 ≤ lead then '+' :: intText lead else intText lead)

/-- Writes a decimal, negated or not. -/
def Layout.decimalText (l : Layout) (negative : Bool) (s : Scientific) : Text :=
  let lead := s.exponent + ((natText s.digits).length - 1 : Nat)
  let digits := significant s.digits
  let sign := if negative then ['-'] else []
  sign ++ if l.positional lead then l.positionalText digits lead else exponentText digits lead

/-- Writes a double. -/
def Layout.floatText (l : Layout) (f : Float) : Text :=
  match Binary.ofFloat f with
  | .nan => "NaN".toList
  | .infinite negative => if negative then "-inf".toList else "inf".toList
  | .finite negative 0 _ => l.decimalText negative ⟨0, 0⟩
  | .finite negative m q => l.decimalText negative (shortest m q)

/-- The double nearest to `digits * 10 ^ exponent`. -/
def Scientific.toFloat (s : Scientific) : Float :=
  Float.ofScientific s.digits (s.exponent < 0) s.exponent.natAbs

/-- Reads the exponent part of a number, which may be missing. -/
def readExponent? : Text → Option Int
  | [] => some 0
  | c :: s => if c = 'e' || c = 'E' then readInt? s else none

/-- Reads a number without its sign: digits with at most one point, and an exponent. -/
def readScientific? (s : Text) : Option Scientific :=
  let whole := s.takeWhile isDigit
  let rest := s.dropWhile isDigit
  let (fraction, rest) :=
    match rest with
    | '.' :: rest => (rest.takeWhile isDigit, rest.dropWhile isDigit)
    | rest => ([], rest)
  if whole.isEmpty && fraction.isEmpty then none
  else (readExponent? rest).map fun e => ⟨natOfDigits (whole ++ fraction), e - fraction.length⟩

/-- Reads a number as the nearest double. -/
def readFloat? : Text → Option Float
  | '+' :: s => (readScientific? s).map (·.toFloat)
  | '-' :: s => (readScientific? s).map fun n => -n.toFloat
  | s => (readScientific? s).map (·.toFloat)

end Stencil.Decimal
