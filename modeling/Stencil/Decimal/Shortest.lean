import Stencil.Decimal.Integer
import Stencil.Decimal.Binary

/-!
# The shortest decimal text of a double

Every real number closer to a double than to its neighbours reads back as that double. Of the
decimals in this interval the one with the fewest digits is written, and of those the nearest.
All comparisons are exact, on natural numbers.
-/

namespace Stencil.Decimal

/-- A positive fraction of natural numbers. -/
structure Ratio where
  /-- The numerator. -/
  num : Nat
  /-- The denominator. -/
  den : Nat

/-- The fraction `n * 2 ^ q`. -/
def Ratio.scaled (n : Nat) (q : Int) : Ratio := ⟨n * Nat.pow 2 q.toNat, Nat.pow 2 (-q).toNat⟩

/-- The exponent of the leading decimal digit of a positive fraction. -/
def Ratio.decimalExponent (r : Ratio) : Int :=
  if r.den ≤ r.num then ((natText (r.num / r.den)).length : Int) - 1
  else -((natText ((r.den - 1) / r.num)).length : Int)

/-- A positive double with the interval of numbers that read back as it. -/
structure Rounding where
  /-- The least number of the interval. -/
  low : Ratio
  /-- The double itself. -/
  value : Ratio
  /-- The greatest number of the interval. -/
  high : Ratio
  /-- Whether the ends belong to the interval. -/
  closed : Bool

/-- The interval around `m * 2 ^ q`. Below a power of two the neighbour is half as far away. -/
def Rounding.of (m : Nat) (q : Int) : Rounding where
  low := .scaled (4 * m - if m = Nat.pow 2 52 ∧ q > -1074 then 1 else 2) (q - 2)
  value := .scaled (4 * m) (q - 2)
  high := .scaled (4 * m + 2) (q - 2)
  closed := m % 2 = 0

/-- A decimal `digits * 10 ^ exponent`. -/
structure Scientific where
  /-- The significant digits as a number. -/
  digits : Nat
  /-- The exponent of the last digit. -/
  exponent : Int
  deriving DecidableEq, Repr

/-- The decimal as a fraction. -/
def Scientific.ratio (s : Scientific) : Ratio :=
  ⟨s.digits * Nat.pow 10 s.exponent.toNat, Nat.pow 10 (-s.exponent).toNat⟩

/-- Whether the decimal lies in the interval. -/
def Rounding.holds (i : Rounding) (s : Scientific) : Bool :=
  let r := s.ratio
  let left := i.low.num * r.den
  let right := i.high.num * r.den
  if i.closed then left ≤ r.num * i.low.den && r.num * i.high.den ≤ right
  else left < r.num * i.low.den && r.num * i.high.den < right

/-- The decimal with the last digit at `exponent` that lies in the interval, the nearer one if
both neighbours of the value do, and the even one if they are equally near. -/
def Rounding.onGrid? (i : Rounding) (exponent : Int) : Option Scientific :=
  let num := i.value.num * Nat.pow 10 (-exponent).toNat
  let den := i.value.den * Nat.pow 10 exponent.toNat
  let below := num / den
  let rest := num % den
  let lower := ⟨below, exponent⟩
  let upper := ⟨below + 1, exponent⟩
  if i.holds lower then
    if i.holds upper && (2 * rest > den || (2 * rest = den && below % 2 = 1)) then some upper
    else some lower
  else if i.holds upper then some upper
  else none

/-- The shortest decimal that reads back as `m * 2 ^ q`; seventeen digits always suffice. -/
def shortest (m : Nat) (q : Int) : Scientific :=
  let i := Rounding.of m q
  let lead := i.value.decimalExponent
  ((List.range 17).findSome? fun n => i.onGrid? (lead - (n : Nat))).getD ⟨m, q⟩

end Stencil.Decimal
