import Mathlib
import Stencil.Condition.Expr

/-!
# The comparisons agree with each other

Equality and order are decided apart from each other, by truth, as numbers or as texts. Both say
what one order says: two values are equal when the order finds them equal, exchanging the sides
turns the order around, and only a number that is not a number has no place in it. From this the six
comparisons are coherent.
-/

namespace Stencil

/-! ## The orders of truth values, of texts and of doubles -/

theorem truthOrder_swap (a b : Bool) : truthOrder b a = (truthOrder a b).swap := by
  cases a <;> cases b <;> rfl

theorem truthOrder_eq_iff (a b : Bool) : truthOrder a b = .eq ↔ a = b := by
  cases a <;> cases b <;> simp [truthOrder]

namespace Text

theorem order_swap (s t : Text) : Text.order t s = (Text.order s t).swap := by
  induction s generalizing t with
  | nil => cases t <;> rfl
  | cons c s ih =>
    cases t with
    | nil => rfl
    | cons d t =>
      obtain h | rfl | h := lt_trichotomy c d
      · simp [Text.order, h, lt_asymm h]
      · simp [Text.order, ih t]
      · simp [Text.order, h, lt_asymm h]

theorem order_eq_iff (s t : Text) : Text.order s t = .eq ↔ s = t := by
  induction s generalizing t with
  | nil => cases t <;> simp [Text.order]
  | cons c s ih =>
    cases t with
    | nil => simp [Text.order]
    | cons d t =>
      obtain h | rfl | h := lt_trichotomy c d
      · simp [Text.order, h, ne_of_lt h]
      · simp [Text.order, ih t]
      · simp [Text.order, h, lt_asymm h, ne_of_gt h]

end Text

section Doubles

open Float.Model (UnpackedFloat)

/-- Exchanging two doubles turns their order around. -/
theorem unpacked_compare_swap (x y : UnpackedFloat) :
    y.compare x = (x.compare y).map Ordering.swap := by
  rcases x with ⟨_ | _⟩ | _ | _ | ⟨_ | _, m, e, _⟩ <;>
    rcases y with ⟨_ | _⟩ | _ | _ | ⟨_ | _, n, k, _⟩ <;>
      first
      | rfl
      | simp [UnpackedFloat.compare, Ordering.swap_then, Nat.compare_swap, Int.compare_swap]

/-- Doubles are without an order when one of them is not a number, and only then. -/
theorem unpacked_compare_eq_none_iff (x y : UnpackedFloat) :
    x.compare y = none ↔ x.isNaN = true ∨ y.isNaN = true := by
  rcases x with ⟨_ | _⟩ | _ | _ | ⟨_ | _, m, e, _⟩ <;>
    rcases y with ⟨_ | _⟩ | _ | _ | ⟨_ | _, n, k, _⟩ <;>
      simp [UnpackedFloat.compare, UnpackedFloat.isNaN]

theorem float_lt_iff (f g : Float) :
    f < g ↔ f.toModel.unpack.compare g.toModel.unpack = some .lt := by
  change decide (UnpackedFloat.lt f.toModel.unpack g.toModel.unpack = true) = true ↔ _
  simp [UnpackedFloat.lt]

theorem float_beq_iff (f g : Float) :
    (f == g) = true ↔ f.toModel.unpack.compare g.toModel.unpack = some .eq := by
  change UnpackedFloat.beq _ _ = true ↔ _
  simp [UnpackedFloat.beq]

/-- The order of doubles is that of what they stand for. -/
theorem floatOrder_eq (f g : Float) :
    floatOrder f g = f.toModel.unpack.compare g.toModel.unpack := by
  have hswap := unpacked_compare_swap f.toModel.unpack g.toModel.unpack
  rcases h : f.toModel.unpack.compare g.toModel.unpack with _ | _ | _ | _ <;>
    simp [floatOrder, float_lt_iff, float_beq_iff, hswap, h]

theorem floatOrder_swap (f g : Float) : floatOrder g f = (floatOrder f g).map Ordering.swap := by
  rw [floatOrder_eq, floatOrder_eq]
  exact unpacked_compare_swap f.toModel.unpack g.toModel.unpack

theorem beq_eq_floatOrder (f g : Float) : (f == g) = decide (floatOrder f g = some .eq) := by
  rw [Bool.eq_iff_iff, decide_eq_true_iff, floatOrder_eq]
  exact float_beq_iff f g

/-- Doubles are without an order when one of them is not a number, and only then. -/
theorem floatOrder_eq_none_iff (f g : Float) :
    floatOrder f g = none ↔ f.isNaN = true ∨ g.isNaN = true := by
  rw [floatOrder_eq]
  exact unpacked_compare_eq_none_iff f.toModel.unpack g.toModel.unpack

end Doubles

/-! ## The order of values -/

namespace Value

/-- Two values of which both are numbers, or look like numbers, and one is not a number. -/
def Unordered (l r : Value) : Prop :=
  ∃ f g, l.number? = some f ∧ r.number? = some g ∧ (f.isNaN = true ∨ g.isNaN = true)

variable (l r : Value)

theorem number?_eq_none_of_isLoose {v : Value} (h : v.isLoose = true) : v.number? = none := by
  cases v <;> simp_all [isLoose, number?]

/-- Exchanging two values turns their order around. -/
theorem order_swap : r.order l = (l.order r).map Ordering.swap := by
  unfold order
  rw [Bool.or_comm]
  by_cases hloose : l.isLoose || r.isLoose
  · simp only [hloose, if_true, Option.map_some, truthOrder_swap l.isTruthy]
  · simp only [hloose]
    rcases l.number? with _ | f <;> rcases r.number? with _ | g
    case some.some => exact floatOrder_swap f g
    all_goals exact congrArg some (Text.order_swap l.text r.text)

/-- Two values are equal when the order finds them equal, and only then. -/
theorem looseEq_eq : l.looseEq r = decide (l.order r = some .eq) := by
  unfold looseEq order
  split
  · rw [Bool.eq_iff_iff]
    simp [truthOrder_eq_iff]
  · cases l.number? <;> cases r.number? <;> simp [beq_eq_floatOrder, Text.order_eq_iff]

/-- Only a number that is not a number has no order. -/
theorem order_eq_none_iff : l.order r = none ↔ l.Unordered r := by
  unfold order
  by_cases hloose : l.isLoose || r.isLoose
  · simp only [hloose, if_true, reduceCtorEq, false_iff]
    -- A side that is compared by its truth is no number.
    rintro ⟨f, g, hf, hg, -⟩
    obtain h | h := (Bool.or_eq_true _ _).mp hloose
    · simp [number?_eq_none_of_isLoose h] at hf
    · simp [number?_eq_none_of_isLoose h] at hg
  · simp only [hloose]
    rcases hl : l.number? with _ | f <;> rcases hr : r.number? with _ | g
    case some.some => simp [Unordered, hl, hr, floatOrder_eq_none_iff]
    all_goals simp [Unordered, hl, hr]

end Value

/-! ## The six comparisons -/

/-- **The six comparisons are coherent.** Of any two values, whatever their kinds: unequal is not
equal; at most is less or equal, and at least is greater or equal; exchanging the sides exchanges
less and greater and keeps equal; no two of less, equal and greater hold at once; and one of them
holds unless both sides are numbers, or look like numbers, and one is not a number. -/
theorem comparisons_coherent (l r : Value) :
    (Comparison.ne.holds l r = !Comparison.eq.holds l r) ∧
    (Comparison.le.holds l r = (Comparison.lt.holds l r || Comparison.eq.holds l r)) ∧
    (Comparison.ge.holds l r = (Comparison.gt.holds l r || Comparison.eq.holds l r)) ∧
    (Comparison.lt.holds l r = Comparison.gt.holds r l) ∧
    (Comparison.eq.holds l r = Comparison.eq.holds r l) ∧
    (¬(Comparison.lt.holds l r ∧ Comparison.eq.holds l r) ∧
      ¬(Comparison.lt.holds l r ∧ Comparison.gt.holds l r) ∧
      ¬(Comparison.eq.holds l r ∧ Comparison.gt.holds l r)) ∧
    ((Comparison.lt.holds l r ∨ Comparison.eq.holds l r ∨ Comparison.gt.holds l r) ↔
      ¬l.Unordered r) := by
  have hnone := l.order_eq_none_iff r
  rw [← hnone]
  -- Each comparison is a question about the one order, which has four answers.
  simp only [Comparison.holds, Value.looseEq_eq, l.order_swap r]
  rcases l.order r with _ | _ | _ | _ <;> simp

end Stencil
