import Stencil.Decimal.Shortest
import Stencil.Proofs.Decimal.Digits
import Stencil.Proofs.Decimal.Double
import Mathlib.Algebra.Order.Field.Basic
import Mathlib.Data.Rat.Cast.Order
import Mathlib.Tactic.FieldSimp
import Mathlib.Tactic.Linarith
import Mathlib.Tactic.Positivity

/-!
# The shortest decimal reads back

The exact comparisons on natural numbers are comparisons of rational numbers. Read that way, the
shortest decimal of a double lies in the interval of the numbers that read back as the double:
seventeen digits are finer than any such interval. The intervals of two doubles have no number in
common, so the decimal tells doubles apart.
-/

namespace Stencil.Decimal

theorem pow_toNat_div (b : ℚ) (e : Int) :
    b ^ e.toNat / b ^ (-e).toNat = b ^ e := by
  cases e with
  | ofNat n => simp
  | negSucc n => simp [zpow_negSucc]

namespace Ratio

/-- The fraction as a rational number. -/
def toRat (r : Ratio) : ℚ := r.num / r.den

theorem toRat_scaled (n : Nat) (q : Int) : (scaled n q).toRat = n * 2 ^ q := by
  rw [← pow_toNat_div 2 q, toRat, scaled]
  simp [mul_div_assoc]

theorem den_scaled_pos (n : Nat) (q : Int) : 0 < (scaled n q).den := Nat.two_pow_pos _

theorem num_scaled_pos {n : Nat} (hn : 0 < n) (q : Int) : 0 < (scaled n q).num :=
  Nat.mul_pos hn (Nat.two_pow_pos _)

/-- A fraction is no less than the power of ten of its leading digit. -/
theorem pow_decimalExponent_le {r : Ratio} (hn : 0 < r.num) (hd : 0 < r.den) :
    (10 : ℚ) ^ r.decimalExponent ≤ r.toRat := by
  have hden : (0 : ℚ) < r.den := by exact_mod_cast hd
  rw [toRat, decimalExponent]
  split
  · rename_i hle
    have hfloor : 0 < r.num / r.den := Nat.div_pos hle hd
    have hlen : 0 < (natText (r.num / r.den)).length := List.length_pos_iff.mpr (natText_ne_nil _)
    have hpow : 10 ^ ((natText (r.num / r.den)).length - 1) * r.den ≤ r.num :=
      (Nat.le_div_iff_mul_le hd).mp (pow_length_natText_le hfloor)
    rw [show ((natText (r.num / r.den)).length : Int) - 1 =
      (((natText (r.num / r.den)).length - 1 : Nat) : Int) by omega, zpow_natCast,
      le_div_iff₀ hden]
    exact_mod_cast hpow
  · rename_i hlt
    -- the digits are those of the reciprocal, rounded up and less one
    have hceil : r.den - 1 < r.num * ((r.den - 1) / r.num + 1) := Nat.lt_mul_div_succ _ hn
    have hpow : (r.den - 1) / r.num + 1 ≤ 10 ^ (natText ((r.den - 1) / r.num)).length :=
      lt_pow_length_natText _
    have hle : r.den ≤ r.num * 10 ^ (natText ((r.den - 1) / r.num)).length :=
      le_trans (by omega) (Nat.mul_le_mul_left _ hpow)
    rw [zpow_neg, zpow_natCast, inv_eq_one_div, div_le_div_iff₀ (by positivity) hden, one_mul]
    exact_mod_cast hle

end Ratio

namespace Scientific

/-- The decimal as a rational number. -/
def toRat (s : Scientific) : ℚ := s.digits * 10 ^ s.exponent

theorem toRat_ratio (s : Scientific) : s.ratio.toRat = s.toRat := by
  rw [toRat, ← pow_toNat_div 10 s.exponent, Ratio.toRat, ratio]
  simp [mul_div_assoc]

theorem den_ratio_pos (s : Scientific) : 0 < s.ratio.den := Nat.pow_pos (by decide)

end Scientific

namespace Rounding

/-- A rational number lies in the interval. -/
def Contains (i : Rounding) (x : ℚ) : Prop :=
  if i.closed then i.low.toRat ≤ x ∧ x ≤ i.high.toRat else i.low.toRat < x ∧ x < i.high.toRat

/-- The comparisons on natural numbers decide whether a decimal lies in the interval. -/
theorem holds_iff {i : Rounding} (hl : 0 < i.low.den) (hh : 0 < i.high.den) (s : Scientific) :
    i.holds s = true ↔ i.Contains s.toRat := by
  have hl' : (0 : ℚ) < i.low.den := by exact_mod_cast hl
  have hh' : (0 : ℚ) < i.high.den := by exact_mod_cast hh
  have hs : (0 : ℚ) < s.ratio.den := by exact_mod_cast s.den_ratio_pos
  rw [holds, Contains, ← s.toRat_ratio, Ratio.toRat, Ratio.toRat, Ratio.toRat]
  split
  · rw [div_le_div_iff₀ hl' hs, div_le_div_iff₀ hs hh']
    simp only [Bool.and_eq_true, decide_eq_true_eq]
    norm_cast
  · rw [div_lt_div_iff₀ hl' hs, div_lt_div_iff₀ hs hh']
    simp only [Bool.and_eq_true, decide_eq_true_eq]
    norm_cast

/-- How far the interval reaches below a double, in quarters of its last place. -/
def reach (m : Nat) (q : Int) : Nat := if m = 2 ^ 52 ∧ q > -1074 then 1 else 2

theorem reach_le_two (m : Nat) (q : Int) : reach m q ≤ 2 := by
  rw [reach]
  split <;> omega

variable {m m' : Nat} {q q' : Int} {x : ℚ}

theorem toRat_low (hm : 0 < m) :
    (Rounding.of m q).low.toRat = (4 * m - reach m q) * 2 ^ (q - 2) := by
  have h := reach_le_two m q
  change (Ratio.scaled (4 * m - reach m q) (q - 2)).toRat = _
  rw [Ratio.toRat_scaled, Nat.cast_sub (by omega)]
  push_cast
  rfl

theorem toRat_value : (Rounding.of m q).value.toRat = 4 * m * 2 ^ (q - 2) := by
  change (Ratio.scaled (4 * m) (q - 2)).toRat = _
  rw [Ratio.toRat_scaled]
  push_cast
  rfl

theorem toRat_high : (Rounding.of m q).high.toRat = (4 * m + 2) * 2 ^ (q - 2) := by
  change (Ratio.scaled (4 * m + 2) (q - 2)).toRat = _
  rw [Ratio.toRat_scaled]
  push_cast
  rfl

/-- The interval of a double, in quarters of its last place. -/
theorem contains_iff (hm : 0 < m) :
    (Rounding.of m q).Contains x ↔
      if m % 2 = 0 then
        (4 * m - reach m q : ℚ) ≤ x / 2 ^ (q - 2) ∧ x / 2 ^ (q - 2) ≤ 4 * m + 2
      else (4 * m - reach m q : ℚ) < x / 2 ^ (q - 2) ∧ x / 2 ^ (q - 2) < 4 * m + 2 := by
  have hu : (0 : ℚ) < 2 ^ (q - 2) := zpow_pos (by norm_num) _
  rw [Contains, toRat_low hm, toRat_high, le_div_iff₀ hu, div_le_iff₀ hu, lt_div_iff₀ hu,
    div_lt_iff₀ hu]
  change (if decide (m % 2 = 0) = true then _ else _) ↔ _
  simp only [decide_eq_true_eq]

theorem Contains.bounds (hm : 0 < m) (h : (Rounding.of m q).Contains x) :
    (4 * m - reach m q : ℚ) ≤ x / 2 ^ (q - 2) ∧ x / 2 ^ (q - 2) ≤ 4 * m + 2 := by
  rw [contains_iff hm] at h
  split at h
  · exact h
  · exact ⟨h.1.le, h.2.le⟩

theorem contains_of_lt (hm : 0 < m) (hlow : (4 * m - reach m q : ℚ) < x / 2 ^ (q - 2))
    (hhigh : x / 2 ^ (q - 2) < 4 * m + 2) : (Rounding.of m q).Contains x := by
  rw [contains_iff hm]
  split
  · exact ⟨hlow.le, hhigh.le⟩
  · exact ⟨hlow, hhigh⟩

/-- The interval of a double lies below that of a greater one. -/
theorem Contains.not_of_lt (hc : Canonical m q) (hc' : Canonical m' q') (hm : 0 < m)
    (hlt : q < q' ∨ q = q' ∧ m < m') (h : (Rounding.of m q).Contains x) :
    ¬ (Rounding.of m' q').Contains x := by
  intro h'
  have hm53 := hc.mantissa_lt
  have hm' : 0 < m' := by
    have := hc'.normal
    have := hc.least_le
    omega
  rcases hlt with hq | ⟨rfl, hmm⟩
  · -- in a greater power of two the mantissa has its leading bit
    have hm52 : 2 ^ 52 ≤ m' := by
      have := hc'.normal
      have := hc.least_le
      omega
    have hreach : 2 ^ 54 ≤ 4 * m' - reach m' q' + 1 := by
      have := hc.least_le
      rw [reach]
      split <;> omega
    obtain ⟨d, rfl⟩ : ∃ d : Nat, q' = q + 1 + d := ⟨(q' - q - 1).toNat, by omega⟩
    have hlow := (h'.bounds hm').1
    have hscale : (2 : ℚ) ^ (q + 1 + d - 2) = 2 ^ (q - 2) * (2 * 2 ^ d) := by
      rw [show q + 1 + (d : Int) - 2 = (q - 2) + 1 + d by ring, zpow_add₀ (by norm_num),
        zpow_add₀ (by norm_num), zpow_one, zpow_natCast, mul_assoc]
    rw [hscale, ← div_div] at hlow
    set y := x / 2 ^ (q - 2) with hy
    have hpow : (1 : ℚ) ≤ 2 ^ d := one_le_pow₀ (by norm_num)
    have hy0 : (2 ^ 55 - 2 : ℚ) ≤ y := by
      have hle : (2 ^ 54 - 1 : ℚ) ≤ y / (2 * 2 ^ d) := by
        refine le_trans ?_ hlow
        have : (2 ^ 54 : ℚ) + reach m' (q + 1 + d) ≤ 4 * m' + 1 := by
          have : 2 ^ 54 + reach m' (q + 1 + d) ≤ 4 * m' + 1 := by
            have := reach_le_two m' (q + 1 + d)
            omega
          exact_mod_cast this
        linarith
      rw [le_div_iff₀ (by positivity)] at hle
      calc (2 ^ 55 - 2 : ℚ) = (2 ^ 54 - 1) * (2 * 1) := by norm_num
        _ ≤ (2 ^ 54 - 1) * (2 * 2 ^ d) :=
          mul_le_mul_of_nonneg_left (by linarith) (by norm_num)
        _ ≤ y := hle
    rw [contains_iff hm, ← hy] at h
    split at h
    · have hcast : (m : ℚ) ≤ 2 ^ 53 - 2 := by
        have : m + 2 ≤ 2 ^ 53 := by omega
        have : ((m + 2 : Nat) : ℚ) ≤ 2 ^ 53 := by exact_mod_cast this
        push_cast at this
        linarith
      linarith [h.2]
    · have hcast : (m : ℚ) ≤ 2 ^ 53 - 1 := by
        have : ((m + 1 : Nat) : ℚ) ≤ 2 ^ 53 := by exact_mod_cast hm53
        push_cast at this
        linarith
      linarith [h.2]
  · -- in the same power of two the ends meet only between neighbours, one of which is odd
    have hreach : reach m' q = 2 := by
      rw [reach, if_neg]
      rintro ⟨rfl, hq⟩
      have := hc.normal
      omega
    have hlow := (h'.bounds hm').1
    have hhigh := (h.bounds hm).2
    rw [hreach] at hlow
    push_cast at hlow
    have hnext : m' = m + 1 := by
      have : (m' : ℚ) ≤ m + 1 := by linarith
      have : m' ≤ m + 1 := by exact_mod_cast this
      omega
    rw [contains_iff hm] at h
    rw [contains_iff hm', hreach] at h'
    subst hnext
    push_cast at h' hlow
    split at h
    · rw [if_neg (by omega)] at h'
      linarith [h'.1, h.2]
    · linarith [h.2]

/-- Two doubles with a number in both intervals are the same. -/
theorem Contains.unique (hc : Canonical m q) (hc' : Canonical m' q') (hm : 0 < m) (hm' : 0 < m')
    (h : (Rounding.of m q).Contains x) (h' : (Rounding.of m' q').Contains x) :
    m = m' ∧ q = q' := by
  by_contra hne
  rcases lt_trichotomy q q' with hq | rfl | hq
  · exact h.not_of_lt hc hc' hm (.inl hq) h'
  · rcases lt_trichotomy m m' with hmm | rfl | hmm
    · exact h.not_of_lt hc hc' hm (.inr ⟨rfl, hmm⟩) h'
    · exact hne ⟨rfl, rfl⟩
    · exact h'.not_of_lt hc' hc hm' (.inr ⟨rfl, hmm⟩) h
  · exact h'.not_of_lt hc' hc hm' (.inl hq) h

/-! ## The search -/

theorem onGrid?_holds {i : Rounding} {e : Int} {s : Scientific} (h : i.onGrid? e = some s) :
    i.holds s = true := by
  simp only [onGrid?] at h
  split at h
  · split at h
    · obtain rfl := Option.some.inj h
      have hup : _ ∧ _ := Bool.and_eq_true _ _ ▸ ‹_ = true›
      exact hup.1
    · obtain rfl := Option.some.inj h
      assumption
  · split at h
    · obtain rfl := Option.some.inj h
      assumption
    · cases h

/-- The search on a grid succeeds if one of the two neighbours of the value lies in the interval. -/
theorem onGrid?_isSome {i : Rounding} {e : Int} (hd : 0 < i.value.den)
    (h : ∀ k : Nat, k * (10 : ℚ) ^ e ≤ i.value.toRat → i.value.toRat < (k + 1) * 10 ^ e →
      i.holds ⟨k, e⟩ = true ∨ i.holds ⟨k + 1, e⟩ = true) :
    (i.onGrid? e).isSome = true := by
  have hden : 0 < i.value.den * Nat.pow 10 e.toNat := Nat.mul_pos hd (Nat.pow_pos (by decide))
  have hscale : ∀ k : Nat, (k : ℚ) * 10 ^ e ≤ i.value.toRat ↔
      k * (i.value.den * Nat.pow 10 e.toNat) ≤ i.value.num * Nat.pow 10 (-e).toNat := by
    intro k
    have hd' : (0 : ℚ) < i.value.den := by exact_mod_cast hd
    rw [← pow_toNat_div, Ratio.toRat, ← mul_div_assoc, div_le_div_iff₀ (by positivity) hd',
      mul_right_comm, ← mul_assoc]
    exact_mod_cast Iff.rfl
  have hneighbour := h (i.value.num * Nat.pow 10 (-e).toNat / (i.value.den * Nat.pow 10 e.toNat))
    ((hscale _).mpr (Nat.div_mul_le_self _ _))
    (by
      rw [← not_le, ← Nat.cast_add_one, hscale, not_le]
      exact Nat.lt_mul_of_div_lt (Nat.lt_succ_self _) hden)
  simp only [onGrid?]
  rcases hneighbour with hlow | hup
  · rw [if_pos hlow]
    split <;> rfl
  · rw [if_pos hup]
    split
    · split <;> rfl
    · rfl

/-- Seventeen digits are finer than the interval of any double. -/
theorem onGrid?_seventeen (hc : Canonical m q) (hm : 0 < m) :
    ((Rounding.of m q).onGrid? ((Rounding.of m q).value.decimalExponent - 16)).isSome = true := by
  have hvden : 0 < (Rounding.of m q).value.den := Ratio.den_scaled_pos _ _
  have hvnum : 0 < (Rounding.of m q).value.num := Ratio.num_scaled_pos (by omega) _
  have hlead := Ratio.pow_decimalExponent_le hvnum hvden
  refine onGrid?_isSome hvden fun k hle hlt => ?_
  rw [holds_iff (Ratio.den_scaled_pos _ _) (Ratio.den_scaled_pos _ _),
    holds_iff (Ratio.den_scaled_pos _ _) (Ratio.den_scaled_pos _ _)]
  rw [toRat_value] at hle hlt hlead
  set lead := (Rounding.of m q).value.decimalExponent
  have hu : (0 : ℚ) < 2 ^ (q - 2) := zpow_pos (by norm_num) _
  -- in quarters of the last place, with neighbours `k * g` and `(k + 1) * g` on the grid
  set g := (10 : ℚ) ^ (lead - 16) / 2 ^ (q - 2) with hg
  have hgrid : g * 10 ^ 16 ≤ 4 * m := by
    rw [hg, div_mul_eq_mul_div, div_le_iff₀ hu]
    calc (10 : ℚ) ^ (lead - 16) * 10 ^ 16 = 10 ^ (lead - 16 + (16 : Nat)) := by
          rw [zpow_add₀ (by norm_num), zpow_natCast]
      _ = 10 ^ lead := by rw [Nat.cast_ofNat, sub_add_cancel]
      _ ≤ 4 * m * 2 ^ (q - 2) := hlead
  have hlow : (⟨k, lead - 16⟩ : Scientific).toRat / 2 ^ (q - 2) = k * g := by
    rw [hg, Scientific.toRat, mul_div_assoc]
  have hup : (⟨k + 1, lead - 16⟩ : Scientific).toRat / 2 ^ (q - 2) = (k + 1) * g := by
    rw [hg, Scientific.toRat, mul_div_assoc, Nat.cast_add_one]
  have hbelow : k * g ≤ 4 * m := by
    rw [hg, ← mul_div_assoc, div_le_iff₀ hu]
    exact hle
  have habove : 4 * m < (k + 1) * g := by
    rw [hg, ← mul_div_assoc, lt_div_iff₀ hu]
    exact hlt
  by_cases hpow : reach m q = 2
  · -- the neighbours are less than four quarters apart, so one is less than two quarters away
    have hm53 : (m : ℚ) < 2 ^ 53 := by exact_mod_cast hc.mantissa_lt
    have hg4 : g < 4 := by linarith
    by_cases hhalf : 4 * m - k * g < 2
    · refine .inl (contains_of_lt hm ?_ ?_)
      · rw [hlow, hpow]
        push_cast
        linarith
      · rw [hlow]
        linarith
    · refine .inr (contains_of_lt hm ?_ ?_)
      · rw [hup, hpow]
        push_cast
        linarith
      · rw [hup]
        linarith
  · -- at a power of two the grid is finer than two quarters, so the upper neighbour will do
    have hone : reach m q = 1 ∧ m = 2 ^ 52 := by
      rw [reach] at hpow ⊢
      split at hpow
      · rename_i h
        exact ⟨if_pos h, h.1⟩
      · exact absurd rfl hpow
    have hm52 : (m : ℚ) = 2 ^ 52 := by exact_mod_cast hone.2
    have hg2 : g < 2 := by linarith
    refine .inr (contains_of_lt hm ?_ ?_)
    · rw [hup, hone.1]
      push_cast
      linarith
    · rw [hup]
      linarith

/-- The shortest decimal of a double lies in its interval. -/
theorem contains_shortest (hc : Canonical m q) (hm : 0 < m) :
    (Rounding.of m q).Contains (shortest m q).toRat := by
  have hfound : ((List.range 17).findSome? fun n =>
      (Rounding.of m q).onGrid? ((Rounding.of m q).value.decimalExponent - (n : Nat))).isSome := by
    rw [List.findSome?_isSome_iff]
    exact ⟨16, by simp, onGrid?_seventeen hc hm⟩
  obtain ⟨s, hs⟩ := Option.isSome_iff_exists.mp hfound
  have hshort : shortest m q = s := by
    simp only [shortest, hs, Option.getD_some]
  obtain ⟨n, -, hn⟩ := List.exists_of_findSome?_eq_some hs
  rw [hshort, ← holds_iff (Ratio.den_scaled_pos _ _) (Ratio.den_scaled_pos _ _)]
  exact onGrid?_holds hn

end Rounding

/-- A double is known by its shortest decimal. -/
theorem shortest_injective {m m' : Nat} {q q' : Int} (hc : Canonical m q) (hc' : Canonical m' q')
    (hm : 0 < m) (hm' : 0 < m') (h : (shortest m q).toRat = (shortest m' q').toRat) :
    m = m' ∧ q = q' :=
  (Rounding.contains_shortest hc hm).unique hc hc' hm hm' (h ▸ Rounding.contains_shortest hc' hm')

end Stencil.Decimal
