import Stencil.Proofs.Condition.Comparison
import Stencil.Proofs.Condition.Written
import Stencil.Proofs.Decimal.Rounding

/-!
# Comparisons of integers

Numbers are compared as doubles, integers too. So two integers compare like the doubles nearest to
them, and that is how they compare themselves, unless they are different and have the same nearest
double: then they count as equal. No two integers up to `2 ^ 53` have the same nearest double.
-/

namespace Stencil

open Decimal (nearest nearest_mono nearest_eq_self represents_ofInt)

/-- What a comparison says of two integers. -/
def Comparison.ofInts (op : Comparison) (a b : Int) : Bool :=
  match op with
  | .eq => a = b
  | .ne => a ≠ b
  | .lt => a < b
  | .gt => b < a
  | .le => a ≤ b
  | .ge => b ≤ a

theorem natAbs_toInt_lt (n : Int64) : n.toInt.natAbs < 2 ^ 64 := by
  have hlow := n.le_toInt
  have hhigh := n.toInt_lt
  omega

/-- Integers are in the order of the doubles nearest to them. -/
theorem order_int (a b : Int64) :
    (Value.int a).order (.int b) = some (compare (nearest a.toInt) (nearest b.toInt)) := by
  have ha := represents_ofInt (natAbs_toInt_lt a)
  have hb := represents_ofInt (natAbs_toInt_lt b)
  change floatOrder (Float.ofInt a.toInt) (Float.ofInt b.toInt) = _
  rw [floatOrder_eq, ha.compare_eq hb]

/-- A comparison of values that are in the order of two integers. -/
theorem holds_of_order (op : Comparison) {l r : Value} {a b : Int}
    (h : l.order r = some (compare a b)) : op.holds l r = op.ofInts a b := by
  unfold Comparison.holds Comparison.ofInts
  rw [Value.looseEq_eq, h]
  rcases Int.lt_trichotomy a b with hab | hab | hab
  · rw [Int.compare_eq_lt.mpr hab]
    cases op <;> simp <;> omega
  · rw [Int.compare_eq_eq.mpr hab]
    cases op <;> simp <;> omega
  · rw [Int.compare_eq_gt.mpr hab]
    cases op <;> simp <;> omega

/-- Integers that are equal or have different nearest doubles compare like these. -/
theorem ofInts_nearest (op : Comparison) {a b : Int} (h : nearest a = nearest b → a = b) :
    op.ofInts (nearest a) (nearest b) = op.ofInts a b := by
  have hmono : ∀ {x y : Int}, nearest x < nearest y → x < y := by
    intro x y hlt
    by_contra hle
    exact absurd (nearest_mono (Int.not_lt.mp hle)) (Int.not_le.mpr hlt)
  unfold Comparison.ofInts
  rcases Int.lt_trichotomy (nearest a) (nearest b) with hlt | heq | hgt
  · have := hmono hlt
    cases op <;> simp <;> omega
  · obtain rfl := h heq
    cases op <;> simp
  · have := hmono hgt
    cases op <;> simp <;> omega

namespace Condition

/-- An operand that is an integer: written in digits, with a minus in front or not, or as a path
that leads to it. -/
inductive IntegerOperand (ctx : Context) : Text → Int64 → Prop
  /-- A literal. -/
  | literal {c : Char} {w : Text} {n : Int64} (hdigits : w.all isDigit = true)
      (hc : isDigit c = true ∨ c = '-' ∧ w ≠ []) (hvalue : Decimal.readInt64? (c :: w) = some n) :
      IntegerOperand ctx (c :: w) n
  /-- A path into the context. -/
  | path {p : Text} {n : Int64} (hp : IsPath p) (hword : p ∉ keywords)
      (hvalue : ctx.resolve? p = some (.int n)) : IntegerOperand ctx p n

variable {ctx : Context} {s t : Text} {a b n : Int64}

theorem IntegerOperand.head_ne (h : IntegerOperand ctx s n) : ∃ c t, s = c :: t ∧ c ≠ '=' := by
  cases h with
  | literal hdigits hc hvalue =>
    refine ⟨_, _, rfl, ?_⟩
    rintro rfl
    simp [isDigit] at hc
  | path hp hword _ => exact (Atom.path hp hword).head_ne

/-- An integer operand is one token, whose value is the integer. -/
theorem IntegerOperand.lexed (h : IntegerOperand ctx s n) :
    ∃ token e, Derives .operand [token] e ∧ e.value ctx = .int n ∧
      ∀ u, Follows u → Lexed s [token] u := by
  cases h with
  | literal hdigits hc hvalue =>
    exact ⟨_, _, .primary (.literal (.int n)), rfl,
      fun u hu => .digits hdigits hc hvalue hu.not_digit⟩
  | path hp hword hvalue =>
    obtain ⟨token, htoken, hlex⟩ := (Atom.path hp hword).lexed
    refine ⟨token, _, .primary htoken, ?_, hlex⟩
    rw [Expr.value, hvalue]
    rfl

/-- A comparison of two integer operands is read as one, with their values on its sides. -/
theorem parse_integers (op : Comparison) (hs : IntegerOperand ctx s a) (ht : IntegerOperand ctx t b)
    {g₁ g₂ g₃ g₄ : Text} (hg₁ : Blank g₁) (hg₂ : Blank g₂) (hg₃ : Blank g₃) (hg₄ : Blank g₄) :
    ∃ l r, Condition.parse (g₁ ++ ((s ++ (g₂ ++ (comparisonSign op ++ (g₃ ++ t)))) ++ g₄)) =
        .ok (.compare l op r) ∧ l.value ctx = .int a ∧ r.value ctx = .int b := by
  obtain ⟨token, l, hl, hlvalue, hlexl⟩ := hs.lexed
  obtain ⟨token', r, hr, hrvalue, hlexr⟩ := ht.lexed
  refine ⟨l, r, ?_, hlvalue, hrvalue⟩
  exact parse_of_lexed hg₁ hg₄ (.whole (.compare op hl hr)) fun u hu =>
    lexed_comparison op hg₂ hg₃ ht.head_ne hlexl (hlexr u hu)

end Condition

/-- **Integers are compared like the doubles nearest to them.** Wherever the two sides of a
comparison are integers, its truth is that of the comparison of these doubles; and it can be written
with literals and paths on either side and any blanks. So it is the comparison of the integers
themselves unless they are different and have the same nearest double, as no integers up to `2 ^ 53`
have. -/
theorem comparisons_of_integers (op : Comparison) (a b : Int64) (ctx : Context) :
    (∀ l r : Expr, l.value ctx = .int a → r.value ctx = .int b →
      (Expr.compare l op r).value ctx = .bool (op.ofInts (nearest a.toInt) (nearest b.toInt))) ∧
    (∀ s t g₁ g₂ g₃ g₄ : Text, Condition.IntegerOperand ctx s a → Condition.IntegerOperand ctx t b →
      Blank g₁ → Blank g₂ → Blank g₃ → Blank g₄ →
      ∃ e, Condition.parse
        (g₁ ++ ((s ++ (g₂ ++ (Condition.comparisonSign op ++ (g₃ ++ t)))) ++ g₄)) =
          .ok e ∧ e.holds ctx = op.ofInts (nearest a.toInt) (nearest b.toInt)) ∧
    ((nearest a.toInt = nearest b.toInt → a = b) →
      op.ofInts (nearest a.toInt) (nearest b.toInt) = op.ofInts a.toInt b.toInt) ∧
    (a.toInt.natAbs ≤ 2 ^ 53 → b.toInt.natAbs ≤ 2 ^ 53 →
      op.ofInts (nearest a.toInt) (nearest b.toInt) = op.ofInts a.toInt b.toInt) := by
  have hvalue : ∀ l r : Expr, l.value ctx = .int a → r.value ctx = .int b →
      (Expr.compare l op r).value ctx = .bool (op.ofInts (nearest a.toInt) (nearest b.toInt)) := by
    intro l r hl hr
    rw [Expr.value, hl, hr, holds_of_order op (order_int a b)]
  refine ⟨hvalue, ?_, fun h => ofInts_nearest op fun heq => congrArg Int64.toInt (h heq), ?_⟩
  · intro s t g₁ g₂ g₃ g₄ hs ht hg₁ hg₂ hg₃ hg₄
    obtain ⟨l, r, hparse, hl, hr⟩ := Condition.parse_integers op hs ht hg₁ hg₂ hg₃ hg₄
    refine ⟨_, hparse, ?_⟩
    rw [Expr.holds, hvalue l r hl hr, Value.isTruthy, Value.isEmpty, Bool.not_not]
  · intro ha hb
    rw [nearest_eq_self ha, nearest_eq_self hb]

/-- A literal with zeros in front, and a path to the largest integer. -/
theorem comparisons_of_integers_largest :
    ∃ e, Condition.parse "007< row.id".toList = .ok e ∧
      e.holds [("row", .object [("id", .int Int64.maxValue)])] = true := by
  have hpath : IsPath "row.id".toList :=
    ⟨'r', _, rfl, by decide, .step (w := ['o']) ⟨'o', by decide, by simp⟩
      (.step (w := ['w']) ⟨'w', by decide, by simp⟩
        (.step (w := ['.', 'i']) ⟨'i', by decide, by simp⟩
          (.step (w := ['d']) ⟨'d', by decide, by simp⟩ .nil)))⟩
  have hseven : Condition.IntegerOperand [("row", .object [("id", .int Int64.maxValue)])]
      "007".toList 7 := .literal (by decide) (.inl (by decide)) (by decide)
  have hlargest : Condition.IntegerOperand [("row", .object [("id", .int Int64.maxValue)])]
      "row.id".toList Int64.maxValue := .path hpath (by decide) rfl
  have hspace : Blank [' '] := by simp [Blank, isBlank]
  obtain ⟨e, hparse, hholds⟩ :=
    (comparisons_of_integers .lt 7 Int64.maxValue _).2.1 _ _ [] [] [' '] []
    hseven hlargest blank_nil blank_nil hspace blank_nil
  exact ⟨e, hparse, hholds.trans (by decide +kernel)⟩

/-- Two integers beyond `2 ^ 53` that are compared as equal. -/
theorem comparisons_of_integers_neighbours :
    ∃ e, Condition.parse "9007199254740993 == 9007199254740992".toList = .ok e ∧
      e.holds [] = true ∧
        Comparison.eq.ofInts (9007199254740993 : Int64).toInt (9007199254740992 : Int64).toInt =
          false := by
  have hodd : Condition.IntegerOperand [] "9007199254740993".toList 9007199254740993 :=
    .literal (by decide) (.inl (by decide)) (by decide)
  have heven : Condition.IntegerOperand [] "9007199254740992".toList 9007199254740992 :=
    .literal (by decide) (.inl (by decide)) (by decide)
  have hspace : Blank [' '] := by simp [Blank, isBlank]
  obtain ⟨l, r, hparse, hl, hr⟩ :=
    Condition.parse_integers .eq hodd heven blank_nil hspace hspace blank_nil
  refine ⟨_, hparse, ?_, by decide⟩
  rw [Expr.holds, Expr.value, hl, hr, holds_of_order .eq (order_int _ _)]
  have hsame : Comparison.eq.ofInts (nearest (9007199254740993 : Int64).toInt)
      (nearest (9007199254740992 : Int64).toInt) = true := by decide +kernel
  rw [hsame]
  rfl

end Stencil
