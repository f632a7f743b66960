import Stencil.Text.Basic

/-!
# Floating-point numbers taken apart

A double is a signed integer times a power of two, an infinity or not a number. The exact
algorithms on doubles (shortest decimal text, rounding to a whole number) work on this view.
-/

namespace Stencil.Decimal

/-- The value of a double. -/
inductive Binary where
  /-- Not a number. -/
  | nan
  /-- An infinity. -/
  | infinite (negative : Bool)
  /-- The number `mantissa * 2 ^ exponent`, negated if `negative`. -/
  | finite (negative : Bool) (mantissa : Nat) (exponent : Int)
  deriving DecidableEq, Repr

/-- Takes a double apart. The mantissa is below `2 ^ 53`, and at least `2 ^ 52` unless the
exponent is the least one, `-1074`. -/
def Binary.ofFloat (f : Float) : Binary :=
  let bits := f.toBits.toNat
  let negative := bits / Nat.pow 2 63 = 1
  let exponent : Nat := bits / Nat.pow 2 52 % Nat.pow 2 11
  let fraction := bits % Nat.pow 2 52
  if exponent = 2047 then
    if fraction = 0 then .infinite negative else .nan
  else if exponent = 0 then .finite negative fraction (-1074)
  else .finite negative (Nat.pow 2 52 + fraction) ((exponent : Int) - 1075)

/-- A double with the opposite sign, if asked for. -/
def signed (negative : Bool) (f : Float) : Float := if negative then -f else f

/-- The nearest whole number; a half goes away from zero. The sign is kept, also of a zero. -/
def roundHalfAway (f : Float) : Float :=
  match Binary.ofFloat f with
  | .finite negative m (.negSucc k) =>
    signed negative (Float.ofNat ((2 * m + Nat.pow 2 (k + 1)) / Nat.pow 2 (k + 2)))
  | _ => f

/-- The power by repeated squaring, each product rounded: the factor `acc` times the power
`base ^ n`. -/
def powerFrom (acc base : Float) : (fuel n : Nat) → Float
  | 0, _ => acc
  | fuel + 1, n =>
    let acc := if n % 2 = 1 then acc * base else acc
    if n / 2 = 0 then acc else powerFrom acc (base * base) fuel (n / 2)

/-- A power of ten. Negative powers are reciprocals of the positive ones. -/
def powerOfTen : Int → Float
  | .ofNat n => powerFrom 1 10 (n + 1) n
  | .negSucc n => 1 / powerFrom 1 10 (n + 2) (n + 1)

end Stencil.Decimal
