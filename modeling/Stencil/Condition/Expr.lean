import Stencil.Condition.Token
import Stencil.Value.Path

/-!
# Conditions and their truth

A condition compares and combines values. Comparisons are loose: if one side is a truth value or
null, both sides are compared by their truth; two sides that look like numbers are compared as
numbers; all others are compared as texts. A path that leads nowhere is false.
-/

namespace Stencil

/-- A condition. -/
inductive Expr where
  /-- A value written in the condition. -/
  | literal (v : Value)
  /-- The value at a path. -/
  | path (p : Text)
  /-- Negation. -/
  | not (e : Expr)
  /-- Comparison. -/
  | compare (l : Expr) (op : Comparison) (r : Expr)
  /-- Conjunction. -/
  | and (l r : Expr)
  /-- Disjunction. -/
  | or (l r : Expr)

/-- The order of texts, by the code points of their characters. -/
def Text.order : Text → Text → Ordering
  | [], [] => .eq
  | [], _ :: _ => .lt
  | _ :: _, [] => .gt
  | c :: s, d :: t => if c < d then .lt else if d < c then .gt else Text.order s t

/-- The order of truth values; false comes first. -/
def truthOrder : Bool → Bool → Ordering
  | false, true => .lt
  | true, false => .gt
  | _, _ => .eq

/-- The order of doubles. Not a number has none. -/
def floatOrder (f g : Float) : Option Ordering :=
  if f < g then some .lt else if f == g then some .eq else if g < f then some .gt else none

namespace Value

/-- Whether the value is compared by its truth. -/
def isLoose : Value → Bool
  | .bool _ => true
  | .null => true
  | _ => false

/-- The order of two values. -/
def order (l r : Value) : Option Ordering :=
  if l.isLoose || r.isLoose then some (truthOrder l.isTruthy r.isTruthy)
  else
    match l.number?, r.number? with
    | some f, some g => floatOrder f g
    | _, _ => some (Text.order l.text r.text)

/-- Whether two values are equal. -/
def looseEq (l r : Value) : Bool :=
  if l.isLoose || r.isLoose then l.isTruthy == r.isTruthy
  else
    match l.number?, r.number? with
    | some f, some g => f == g
    | _, _ => l.text = r.text

end Value

/-- Whether a comparison holds. -/
def Comparison.holds (op : Comparison) (l r : Value) : Bool :=
  match op with
  | .eq => l.looseEq r
  | .ne => !l.looseEq r
  | .lt => l.order r = some .lt
  | .gt => l.order r = some .gt
  | .le => l.order r = some .lt || l.order r = some .eq
  | .ge => l.order r = some .gt || l.order r = some .eq

namespace Expr

/-- The value of a condition. -/
def value (ctx : Context) : Expr → Value
  | .literal v => v
  | .path p => (ctx.resolve? p).getD (.bool false)
  | .not e => .bool !(e.value ctx).isTruthy
  | .compare l op r => .bool (op.holds (l.value ctx) (r.value ctx))
  | .and l r => .bool ((l.value ctx).isTruthy && (r.value ctx).isTruthy)
  | .or l r => .bool ((l.value ctx).isTruthy || (r.value ctx).isTruthy)

/-- Whether a condition holds. -/
def holds (e : Expr) (ctx : Context) : Bool := (e.value ctx).isTruthy

end Expr

end Stencil
