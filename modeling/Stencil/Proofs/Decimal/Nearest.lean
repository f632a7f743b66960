import Mathlib.Data.Nat.Log
import Mathlib.Tactic.Ring

/-!
# The nearest double to an integer

A double has 53 binary digits, so from `2 ^ 53` on the integers that are doubles lie apart, and all
others are rounded to the nearest one, to the even one of two. Rounding keeps the order of integers,
and keeps every integer of up to 53 digits as it is; of larger ones it makes neighbours one.
-/

namespace Stencil.Decimal

/-! ## Rounding a quotient -/

/-- The nearest integer to a quotient; the even one of two that are equally near. -/
def halfEven (a d : Nat) : Nat :=
  if 2 * (a % d) < d then a / d
  else if d < 2 * (a % d) then a / d + 1
  else a / d + a / d % 2

variable {a b d : Nat}

theorem div_le_halfEven (a d : Nat) : a / d ≤ halfEven a d := by
  unfold halfEven
  split_ifs <;> omega

theorem halfEven_le_div (a d : Nat) : halfEven a d ≤ a / d + 1 := by
  unfold halfEven
  split_ifs <;> omega

/-- A quotient without a remainder needs no rounding. -/
theorem halfEven_mul (q : Nat) (hd : 0 < d) : halfEven (q * d) d = q := by
  rw [halfEven, Nat.mul_mod_left, if_pos hd, Nat.mul_div_cancel q hd]

/-- Rounding depends on the quotient only. -/
theorem halfEven_scale (a d : Nat) {c : Nat} (hc : 0 < c) :
    halfEven (a * c) (d * c) = halfEven a d := by
  have hlt : ∀ x y, x * c < y * c ↔ x < y := fun x y => Nat.mul_lt_mul_right hc
  rw [halfEven, halfEven, Nat.mul_mod_mul_right, Nat.mul_div_mul_right a d hc, ← Nat.mul_assoc]
  simp only [hlt]

theorem halfEven_mono (h : a ≤ b) : halfEven a d ≤ halfEven b d := by
  by_cases hdiv : a / d = b / d
  · have hmod : a % d ≤ b % d := by
      have ha := Nat.div_add_mod a d
      have hb := Nat.div_add_mod b d
      rw [hdiv] at ha
      omega
    unfold halfEven
    rw [hdiv]
    split_ifs <;> omega
  · have hlt : a / d < b / d := lt_of_le_of_ne (Nat.div_le_div_right h) hdiv
    calc halfEven a d ≤ a / d + 1 := halfEven_le_div a d
      _ ≤ b / d := hlt
      _ ≤ halfEven b d := div_le_halfEven b d

/-- The rounded quotient is at most half a divisor off. -/
theorem halfEven_near (a : Nat) (hd : 0 < d) :
    2 * a ≤ 2 * (halfEven a d * d) + d ∧ 2 * (halfEven a d * d) ≤ 2 * a + d := by
  have ha := Nat.div_add_mod' a d
  have hr := Nat.mod_lt a hd
  unfold halfEven
  split_ifs with hlow hhigh
  · omega
  · rw [Nat.add_mul]
    omega
  · rcases Nat.mod_two_eq_zero_or_one (a / d) with hq | hq <;> rw [hq, Nat.add_mul] <;> omega

/-- No multiple of the divisor is nearer than the rounded one. -/
theorem halfEven_closest (a q : Nat) (hd : 0 < d) :
    ((halfEven a d * d : Nat) - (a : Int)).natAbs ≤ ((q * d : Nat) - (a : Int)).natAbs := by
  obtain ⟨hlow, hhigh⟩ := halfEven_near a hd
  rcases Nat.lt_trichotomy q (halfEven a d) with hq | rfl | hq
  · have hstep : q * d + d ≤ halfEven a d * d := by
      rw [← Nat.succ_mul]
      exact Nat.mul_le_mul_right d hq
    omega
  · exact le_rfl
  · have hstep : halfEven a d * d + d ≤ q * d := by
      rw [← Nat.succ_mul]
      exact Nat.mul_le_mul_right d hq
    omega

/-! ## Rounding an integer -/

/-- How far the doubles around a number lie apart, where they are integers. -/
def spacing (n : Nat) : Nat := 2 ^ (n.log2 - 52)

/-- The nearest double to a natural number; the even one of two that are equally near. -/
def nearestNat (n : Nat) : Nat := halfEven n (spacing n) * spacing n

/-- The nearest double to an integer; the even one of two that are equally near. -/
def nearest : Int → Int
  | .ofNat n => nearestNat n
  | .negSucc n => -nearestNat (n + 1)

/-- The first 53 binary digits of a number, rounded. -/
def significand (n : Nat) : Nat := halfEven (n * 2 ^ 52) (2 ^ n.log2)

variable {m n : Nat}

theorem spacing_pos (n : Nat) : 0 < spacing n := Nat.two_pow_pos _

/-- A number of up to 53 digits stays. -/
theorem nearestNat_of_log2_le (h : n.log2 ≤ 52) : nearestNat n = n := by
  have hone : spacing n = 1 := by rw [spacing, Nat.sub_eq_zero_of_le h, Nat.pow_zero]
  have hself := halfEven_mul n Nat.one_pos
  rw [Nat.mul_one] at hself
  rw [nearestNat, hone, hself, Nat.mul_one]

/-- The digits say the double, up to the place of the point. -/
theorem significand_mul (n : Nat) : significand n * 2 ^ n.log2 = nearestNat n * 2 ^ 52 := by
  rcases Nat.le_total 52 n.log2 with hlog | hlog
  · have hpow : 2 ^ n.log2 = spacing n * 2 ^ 52 := by
      rw [spacing, ← Nat.pow_add, Nat.sub_add_cancel hlog]
    rw [significand, nearestNat, hpow, halfEven_scale _ _ (Nat.two_pow_pos 52), Nat.mul_assoc]
  · -- the number has no more digits than fit
    have hpow : 2 ^ 52 = 2 ^ (52 - n.log2) * 2 ^ n.log2 := by
      rw [← Nat.pow_add, Nat.sub_add_cancel hlog]
    have hdigits : significand n = n * 2 ^ (52 - n.log2) := by
      rw [significand, hpow, ← Nat.mul_assoc, halfEven_mul _ (Nat.two_pow_pos _)]
    rw [hdigits, nearestNat_of_log2_le hlog, Nat.mul_assoc, ← hpow]

theorem significand_le (n : Nat) : significand n ≤ 2 ^ 53 := by
  have hpow : 2 ^ (n.log2 + 1) * 2 ^ 52 = 2 ^ 53 * 2 ^ n.log2 := by
    rw [← Nat.pow_add, ← Nat.pow_add]
    congr 1
    omega
  calc significand n ≤ halfEven (2 ^ (n.log2 + 1) * 2 ^ 52) (2 ^ n.log2) :=
        halfEven_mono (Nat.mul_le_mul_right _ Nat.lt_log2_self.le)
    _ = 2 ^ 53 := by rw [hpow, halfEven_mul _ (Nat.two_pow_pos _)]

theorem le_significand (hn : n ≠ 0) : 2 ^ 52 ≤ significand n :=
  calc 2 ^ 52 = halfEven (2 ^ 52 * 2 ^ n.log2) (2 ^ n.log2) :=
        (halfEven_mul _ (Nat.two_pow_pos _)).symm
    _ ≤ significand n := halfEven_mono (by
        rw [Nat.mul_comm]
        exact Nat.mul_le_mul_right _ (Nat.log2_self_le hn))

/-- Integers up to `2 ^ 53` are doubles. -/
theorem nearestNat_eq_self (h : n ≤ 2 ^ 53) : nearestNat n = n := by
  rcases Nat.lt_or_eq_of_le h with hlt | rfl
  · refine nearestNat_of_log2_le ?_
    by_cases hn : n = 0
    · rw [hn, Nat.log2_zero]
      exact Nat.zero_le 52
    · exact Nat.le_of_lt_succ ((Nat.log2_lt hn).mpr hlt)
  · decide +kernel

/-- Rounding keeps the order. -/
theorem nearestNat_mono (h : m ≤ n) : nearestNat m ≤ nearestNat n := by
  by_cases hm : m = 0
  · rw [hm, nearestNat_eq_self (Nat.zero_le _)]
    exact Nat.zero_le _
  have hn : n ≠ 0 := by omega
  have hlog : m.log2 ≤ n.log2 := (Nat.le_log2 hn).mpr (le_trans (Nat.log2_self_le hm) h)
  rcases Nat.lt_or_eq_of_le hlog with hlt | heq
  · -- a number with more digits is rounded to no less than the power of two below it
    refine Nat.le_of_mul_le_mul_right ?_ (Nat.two_pow_pos 52)
    rw [← significand_mul, ← significand_mul]
    calc significand m * 2 ^ m.log2 ≤ 2 ^ 53 * 2 ^ m.log2 :=
          Nat.mul_le_mul_right _ (significand_le m)
      _ = 2 ^ 52 * 2 ^ (m.log2 + 1) := by ring
      _ ≤ 2 ^ 52 * 2 ^ n.log2 := Nat.mul_le_mul_left _ (Nat.pow_le_pow_right Nat.two_pos hlt)
      _ ≤ significand n * 2 ^ n.log2 := Nat.mul_le_mul_right _ (le_significand hn)
  · have hspacing : spacing m = spacing n := by rw [spacing, spacing, heq]
    rw [nearestNat, nearestNat, hspacing]
    exact Nat.mul_le_mul_right _ (halfEven_mono h)

theorem nearest_eq_self {n : Int} (h : n.natAbs ≤ 2 ^ 53) : nearest n = n := by
  cases n with
  | ofNat n => exact congrArg Int.ofNat (nearestNat_eq_self h)
  | negSucc n =>
    have hself : nearestNat (n + 1) = n + 1 := nearestNat_eq_self h
    rw [nearest, hself, Int.negSucc_eq, Int.natCast_add, Int.cast_ofNat_Int]

theorem nearest_mono {a b : Int} (h : a ≤ b) : nearest a ≤ nearest b := by
  cases a with
  | ofNat m =>
    cases b with
    | ofNat n => exact Int.ofNat_le.mpr (nearestNat_mono (Int.ofNat_le.mp h))
    | negSucc n =>
      exact absurd h (Int.not_le.mpr ((Int.negSucc_lt_zero n).trans_le (Int.natCast_nonneg m)))
  | negSucc m =>
    cases b with
    | ofNat n =>
      rw [nearest, nearest]
      omega
    | negSucc n =>
      have hle : nearestNat (n + 1) ≤ nearestNat (m + 1) := nearestNat_mono (by omega)
      rw [nearest, nearest]
      omega

/-- An integer that is a double: up to 53 binary digits with zeros after them. -/
def IsDouble (n : Nat) : Prop := ∃ m k, m < 2 ^ 53 ∧ n = m * 2 ^ k

/-- No integer that is a double is nearer than the nearest. -/
theorem nearestNat_closest (n : Nat) (h : IsDouble m) :
    ((nearestNat n : Int) - n).natAbs ≤ ((m : Int) - n).natAbs := by
  rcases Nat.lt_or_ge 52 n.log2 with hlog | hlog
  swap
  · rw [nearestNat_of_log2_le hlog]
    simp
  obtain ⟨q, k, hq, rfl⟩ := h
  rcases Nat.lt_or_ge k (n.log2 - 52) with hk | hk
  swap
  · -- a multiple of the spacing
    have hmul : q * 2 ^ k = q * 2 ^ (k - (n.log2 - 52)) * spacing n := by
      rw [spacing, Nat.mul_assoc, ← Nat.pow_add, Nat.sub_add_cancel hk]
    rw [hmul]
    exact halfEven_closest n _ (spacing_pos n)
  · -- smaller than all multiples of the spacing near the number
    have hn : n ≠ 0 := by
      rintro rfl
      rw [Nat.log2_zero] at hlog
      omega
    have hfloor : 2 ^ 52 * spacing n ≤ n := by
      rw [spacing, ← Nat.pow_add, Nat.add_sub_cancel' hlog.le]
      exact Nat.log2_self_le hn
    have hsmall : q * 2 ^ k ≤ 2 ^ 52 * spacing n :=
      calc q * 2 ^ k ≤ 2 ^ 53 * 2 ^ k := Nat.mul_le_mul_right _ hq.le
        _ = 2 ^ 52 * 2 ^ (k + 1) := by ring
        _ ≤ 2 ^ 52 * spacing n := Nat.mul_le_mul_left _ (Nat.pow_le_pow_right Nat.two_pos hk)
    have hclosest := halfEven_closest n (2 ^ 52) (spacing_pos n)
    rw [nearestNat]
    omega

/-- A double stays. -/
theorem nearestNat_of_isDouble (h : IsDouble n) : nearestNat n = n := by
  have hclosest := nearestNat_closest n h
  omega

end Stencil.Decimal
