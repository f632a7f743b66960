import Mathlib
import Stencil.Proofs.Decimal.Nearest

/-!
# Integers as doubles

An integer becomes the nearest double. What is cut off its digits is remembered in two bits, which
are enough to round the rest, however often it is cut; a digit that rounding adds is cut off once
more. The double comes out in the form with a full mantissa, in which doubles are in the order of
their exponents first and of their mantissas then, and that is the order of the integers they
represent.
-/

namespace Stencil.Decimal

open Float.Model
open Float.Model.UnpackedFloat

/-! ## Digits that are cut off -/

/-- The number `a` cut at the place value `d`, with `r` cut off and remembered in two bits: whether
it is half the place value or more, and whether it is neither nothing nor the half. -/
structure Cut (em : ExtendedMantissa) (a d r : Nat) : Prop where
  /-- What is left and what is cut off. -/
  eq : a = em.mantissa * d + r
  /-- Less than one unit is cut off. -/
  lt : r < d
  /-- The first bit. -/
  roundBit : em.roundBit = true ↔ d ≤ 2 * r
  /-- The second bit. -/
  stickyBit : em.stickyBit = true ↔ r ≠ 0 ∧ 2 * r ≠ d

variable {em : ExtendedMantissa} {a d r : Nat}

theorem cut_exact (a : Nat) : Cut (.ofMantissaAndAccuracy a .exact) a 1 0 where
  eq := (Nat.mul_one a).symm
  lt := Nat.one_pos
  roundBit := by simp [ExtendedMantissa.ofMantissaAndAccuracy]
  stickyBit := by simp [ExtendedMantissa.ofMantissaAndAccuracy]

/-- One more digit is cut off. -/
theorem Cut.shiftRightOne (h : Cut em a d r) :
    Cut em.shiftRightOne a (d * 2) (em.mantissa % 2 * d + r) := by
  have hlt := h.lt
  have hround := h.roundBit
  have hsticky := h.stickyBit
  have heq : a = em.mantissa / 2 * (d * 2) + (em.mantissa % 2 * d + r) := by
    calc a = (em.mantissa / 2 * 2 + em.mantissa % 2) * d + r := by
          rw [Nat.div_add_mod']
          exact h.eq
      _ = em.mantissa / 2 * (d * 2) + (em.mantissa % 2 * d + r) := by ring
  have hdigit := Nat.mod_two_eq_zero_or_one em.mantissa
  constructor
  · exact heq
  · rcases hdigit with hm | hm <;> rw [hm] <;> omega
  · rw [ExtendedMantissa.shiftRightOne, bne_iff_ne]
    rcases hdigit with hm | hm <;> rw [hm] <;> omega
  · -- the two bits say whether anything was cut off before
    rw [ExtendedMantissa.shiftRightOne, Bool.or_eq_true, hround, hsticky]
    rcases hdigit with hm | hm <;> rw [hm] <;> omega

/-- By induction on the number of digits that are cut off. -/
theorem cut_shiftRight (a k : Nat) :
    ∃ r, Cut (ExtendedMantissa.ofMantissaAndAccuracy a .exact >>> k) a (2 ^ k) r := by
  induction k with
  | zero => exact ⟨0, cut_exact a⟩
  | succ k ih =>
    obtain ⟨r, h⟩ := ih
    exact ⟨_, h.shiftRightOne⟩

theorem Cut.div_eq (h : Cut em a d r) : a / d = em.mantissa := by
  have hd : 0 < d := lt_of_le_of_lt (Nat.zero_le r) h.lt
  rw [h.eq, Nat.mul_comm, Nat.mul_add_div hd, Nat.div_eq_of_lt h.lt, Nat.add_zero]

theorem Cut.mod_eq (h : Cut em a d r) : a % d = r := by
  rw [h.eq, Nat.mul_add_mod_self_right, Nat.mod_eq_of_lt h.lt]

/-- The two bits are enough to round. -/
theorem Cut.roundedMantissa (h : Cut em a d r) : em.roundedMantissa = halfEven a d := by
  have hround := h.roundBit
  have hsticky := h.stickyBit
  rw [halfEven, h.div_eq, h.mod_eq]
  obtain ⟨m, round, sticky⟩ := em
  cases round <;> cases sticky <;>
    simp only [Bool.false_eq_true, true_iff, false_iff] at hround hsticky <;>
    simp only [ExtendedMantissa.roundedMantissa, ExtendedMantissa.accuracy,
      Accuracy.roundToNearestEven] <;>
    split_ifs <;> omega

theorem roundedMantissa_shiftRight (a k : Nat) :
    (ExtendedMantissa.ofMantissaAndAccuracy a .exact >>> k).roundedMantissa =
      halfEven a (2 ^ k) := by
  obtain ⟨r, h⟩ := cut_shiftRight a k
  exact h.roundedMantissa

theorem mantissa_shiftRight (a k : Nat) :
    (ExtendedMantissa.ofMantissaAndAccuracy a .exact >>> k).mantissa = a / 2 ^ k := by
  obtain ⟨r, h⟩ := cut_shiftRight a k
  exact h.div_eq.symm

/-! ## Doubles that represent integers -/

/-- The double is the integer, with all 53 digits of its mantissa in use. -/
inductive Represents : UnpackedFloat → Int → Prop
  /-- Zero of any sign. -/
  | zero (s : Sign) : Represents (.zero s) 0
  /-- A mantissa and the place of the point. -/
  | finite (s : Sign) {m j n : Nat} (hpos : 0 < m) (hlow : 2 ^ 52 ≤ m) (hhigh : m < 2 ^ 53)
      (hplace : j < 1024) (hvalue : m * 2 ^ j = n * 2 ^ 52) :
      Represents (.finite s m (j - 52) hpos) (s.apply n)

theorem log2_mul_two_pow {n : Nat} (k : Nat) (hn : n ≠ 0) : (n * 2 ^ k).log2 = n.log2 + k := by
  have hpos : n * 2 ^ k ≠ 0 := Nat.mul_ne_zero hn (Nat.two_pow_pos k).ne'
  refine (Nat.log2_eq_iff hpos).mpr ⟨?_, ?_⟩
  · rw [Nat.pow_add]
    exact Nat.mul_le_mul_right _ (Nat.log2_self_le hn)
  · rw [Nat.add_right_comm, Nat.pow_add]
    exact Nat.mul_lt_mul_of_pos_right Nat.lt_log2_self (Nat.two_pow_pos k)

/-- Cutting a number of at least 53 digits down to 53. -/
theorem shiftToTargetExponent_eq {m : Nat} {e : Int} (hm : 52 ≤ m.log2)
    (he : -1074 ≤ (m.log2 : Int) + e - 52) :
    shiftToTargetExponent Format.binary64 m e .exact =
      (ExtendedMantissa.ofMantissaAndAccuracy m .exact >>> (m.log2 - 52), m.log2 + e - 52) := by
  have htarget : Format.binary64.targetExponent (totalExponent m e) = m.log2 + e - 52 := by
    simp only [Format.targetExponent, totalExponent, Format.mantissaBits, Format.minExponent]
    omega
  have hshift : (((m.log2 : Int) + e - 52) - e).toNat = m.log2 - 52 := by omega
  rw [shiftToTargetExponent, htarget, shiftToExponent, hshift]
  congr 1
  omega

/-- Rounding a number of full precision gives the nearest double. The number is that of `n` with the
point shifted: `M` times `2 ^ (j - t)` is `n`. -/
theorem represents_roundWithAccuracy (s : Sign) {M j t n : Nat} (hn : n ≠ 0) (hsize : n.log2 < 1000)
    (hvalue : M * 2 ^ j = n * 2 ^ t) (hfull : 52 ≤ M.log2) :
    Represents (roundWithAccuracy Format.binary64 s M ((j : Int) - t) .exact)
      (s.apply (nearestNat n)) := by
  have hM : M ≠ 0 := by
    rintro rfl
    rw [Nat.log2_zero] at hfull
    omega
  have hlog : M.log2 + j = n.log2 + t := by
    rw [← log2_mul_two_pow j hM, hvalue, log2_mul_two_pow t hn]
  have hfirst := shiftToTargetExponent_eq (m := M) (e := (j : Int) - t) hfull (by omega)
  have hplace : (M.log2 : Int) + ((j : Int) - t) - 52 = (n.log2 : Int) - 52 := by omega
  have hlow := le_significand hn
  have hdigits : 52 ≤ (significand n).log2 := (Nat.le_log2 (by omega)).mpr hlow
  -- the digits that are left do not depend on where the point was
  have hrounded : (ExtendedMantissa.ofMantissaAndAccuracy M .exact >>>
      (M.log2 - 52)).roundedMantissa = significand n := by
    rw [roundedMantissa_shiftRight, significand, ← halfEven_scale M _ (Nat.two_pow_pos (52 + j)),
      ← halfEven_scale (n * 2 ^ 52) _ (Nat.two_pow_pos t)]
    congr 1
    · rw [Nat.pow_add, Nat.mul_left_comm, hvalue]
      ring
    · rw [← Nat.pow_add, ← Nat.pow_add]
      congr 1
      omega
  rw [roundWithAccuracy, hfirst, hplace]
  dsimp only
  rw [hrounded, shiftToTargetExponent_eq hdigits (by omega)]
  dsimp only
  rw [mantissa_shiftRight]
  have hvalue := significand_mul n
  rcases Nat.lt_or_eq_of_le (significand_le n) with hlt | hcarry
  · have hlog : (significand n).log2 = 52 :=
      Nat.le_antisymm (Nat.le_of_lt_succ ((Nat.log2_lt (by omega)).mpr hlt)) hdigits
    have hmantissa : significand n / 2 ^ ((significand n).log2 - 52) = significand n := by
      rw [hlog, Nat.sub_self, Nat.pow_zero, Nat.div_one]
    have hexponent : ((significand n).log2 : Int) + (n.log2 - 52) - 52 = (n.log2 : Nat) - 52 := by
      omega
    simp only [hmantissa, hexponent]
    rw [dif_neg (by omega)]
    exact .finite s _ hlow hlt (by omega) hvalue
  · -- one digit more, which is cut off again
    have hmantissa : significand n / 2 ^ ((significand n).log2 - 52) = 2 ^ 52 := by
      rw [hcarry, Nat.log2_two_pow]
      rfl
    have hexponent : ((significand n).log2 : Int) + (n.log2 - 52) - 52 =
        (n.log2 + 1 : Nat) - 52 := by
      rw [hcarry, Nat.log2_two_pow]
      omega
    simp only [hmantissa, hexponent]
    rw [dif_neg (by decide)]
    refine .finite s _ le_rfl (by decide) (by omega) ?_
    rw [hcarry] at hvalue
    rw [← hvalue]
    ring

/-! ## Packing -/

theorem append_one_pos {w : Nat} (m : BitVec w) : 0 < (1#1 ++ m).toNat := by
  simp

theorem append_one_toNat {m : Nat} (hlow : 2 ^ 52 ≤ m) (hhigh : m < 2 ^ 53) :
    (1#1 ++ BitVec.ofNat 52 m).toNat = m := by
  rw [BitVec.toNat_append, ← Nat.shiftLeft_add_eq_or_of_lt (BitVec.isLt _), BitVec.toNat_ofNat]
  simp only [Nat.shiftLeft_eq]
  change 1 * 2 ^ 52 + m % 2 ^ 52 = m
  omega

theorem finite_congr {s : Sign} {m m' : Nat} {e e' : Int} {h : 0 < m} {h' : 0 < m'} (hm : m = m')
    (he : e = e') : UnpackedFloat.finite s m e h = .finite s m' e' h' := by
  subst hm he
  rfl

/-- Bits whose exponent is no special one. -/
theorem unpack_packComponents (spec : Format) (s : Sign) (e : BitVec spec.exponentBits)
    (m : BitVec spec.mantissaBitsWithoutImplicit) (hones : e ≠ -1#_) (hzeros : e ≠ 0#_) :
    UnpackedFloat.unpack spec (packComponents spec s e m) =
      .finite s (1#1 ++ m).toNat (e.toNat - (spec.exponentBias + spec.mantissaBitsWithoutImplicit))
        (append_one_pos m) := by
  rw [UnpackedFloat.unpack, if_neg (by rwa [unpackExponent_packComponents]),
    if_neg (by rwa [unpackExponent_packComponents])]
  simp only [unpackExponent_packComponents, unpackMantissa_packComponents,
    unpackSign_packComponents, Sign.ofBitVec_toBitVec]

/-- A double that represents an integer comes out of its bits as it went in. -/
theorem Represents.unpack_pack {x : UnpackedFloat} {n : Int} (h : Represents x n) :
    (Float.Model.pack x).unpack = x := by
  cases h with
  | zero s => cases s <;> rfl
  | @finite s m j n hpos hlow hhigh hplace hvalue =>
    have hlog : m.log2 + 1 = 53 := by
      have hle := (Nat.le_log2 (by omega)).mpr hlow
      have hlt := (Nat.log2_lt (by omega)).mpr hhigh
      omega
    have hbiased : ((j : Int) - 52 + (1023 : Nat) + (52 : Nat)).toNat = j + 1023 := by omega
    have hexponent : (BitVec.ofNat 11 (j + 1023)).toNat = j + 1023 := by
      rw [BitVec.toNat_ofNat]
      exact Nat.mod_eq_of_lt (by omega)
    have hpack : UnpackedFloat.pack Format.binary64 (.finite s m (j - 52) hpos) =
        packComponents Format.binary64 s (BitVec.ofNat 11 (j + 1023)) (BitVec.ofNat 52 m) := by
      change (if 2 ^ 11 ≤ ((j : Int) - 52 + (1023 : Nat) + (52 : Nat)).toNat + 1 then _
        else if m.log2 + 1 = 53 then
          packComponents Format.binary64 s
            (BitVec.ofNat 11 ((j : Int) - 52 + (1023 : Nat) + (52 : Nat)).toNat) (BitVec.ofNat 52 m)
        else _) = _
      rw [hbiased, if_neg (by omega), if_pos hlog]
    have hbits : (UInt64.ofBitVec (UnpackedFloat.pack Format.binary64
        (.finite s m (j - 52) hpos))).toBitVec = UnpackedFloat.pack Format.binary64
          (.finite s m (j - 52) hpos) := rfl
    -- neither all bits of the exponent are set nor none
    have hones : BitVec.ofNat 11 (j + 1023) ≠ -1#11 := by
      intro heq
      have := congrArg BitVec.toNat heq
      rw [hexponent] at this
      change j + 1023 = 2047 at this
      omega
    have hzeros : BitVec.ofNat 11 (j + 1023) ≠ 0#11 := by
      intro heq
      have := congrArg BitVec.toNat heq
      rw [hexponent] at this
      change j + 1023 = 0 at this
      omega
    rw [Float.Model.unpack, Float.Model.pack, hbits, hpack,
      unpack_packComponents Format.binary64 s _ _ hones hzeros]
    have hplaced : ((BitVec.ofNat 11 (j + 1023)).toNat : Int) - ((1023 : Nat) + (52 : Nat)) =
        j - 52 := by
      rw [hexponent]
      omega
    exact finite_congr (append_one_toNat hlow hhigh) hplaced

/-! ## Integers as doubles -/

theorem represents_ofNat_model {n : Nat} (hsize : n.log2 < 1000) :
    Represents (UnpackedFloat.ofNat Format.binary64 n) (nearestNat n) := by
  by_cases hn : n = 0
  · subst hn
    exact .zero .positive
  have hcompare : compare (n : Int) 0 = .gt := Int.compare_eq_gt.mpr (by omega)
  have htarget : Format.binary64.targetExponent (totalExponent n 0) = (n.log2 : Int) - 52 := by
    simp only [Format.targetExponent, totalExponent, Format.mantissaBits, Format.minExponent]
    omega
  have hshift : (0 - ((n.log2 : Int) - 52)).toNat = 52 - n.log2 := by omega
  rw [UnpackedFloat.ofNat, UnpackedFloat.ofInt, UnpackedFloat.normalize, hcompare]
  dsimp only
  rw [UnpackedFloat.round, Int.toNat_natCast, htarget, decreaseExponent, hshift]
  dsimp only
  refine represents_roundWithAccuracy .positive (j := 0) hn hsize ?_ ?_
  · rw [Nat.shiftLeft_eq, Nat.pow_zero, Nat.mul_one]
  · rw [Nat.shiftLeft_eq, log2_mul_two_pow _ hn]
    omega

theorem toModel_toFloat (n : UInt64) :
    n.toFloat.toModel = .pack (UnpackedFloat.ofNat Format.binary64 n.toNat) := rfl

theorem toModel_mul (f g : Float) :
    (f * g).toModel = .pack (UnpackedFloat.mul Format.binary64 f.toModel.unpack g.toModel.unpack) :=
      rfl

theorem toModel_neg (f : Float) : (-f).toModel = .pack f.toModel.unpack.neg := rfl

theorem toModel_one :
    (Float.exactlyRepresentablePowersOfTen[0]).toModel.unpack =
      .finite .positive (2 ^ 52) (-52) (by decide) := rfl

/-- What a double represents is a double. -/
theorem isDouble_of_mul_eq {m j n : Nat} (hhigh : m < 2 ^ 53) (hvalue : m * 2 ^ j = n * 2 ^ 52) :
    IsDouble n := by
  rcases Nat.le_total 52 j with hj | hj
  · refine ⟨m, j - 52, hhigh, Nat.eq_of_mul_eq_mul_right (Nat.two_pow_pos 52) ?_⟩
    rw [← hvalue, Nat.mul_assoc, ← Nat.pow_add, Nat.sub_add_cancel hj]
  · have hm : m = n * 2 ^ (52 - j) := by
      refine Nat.eq_of_mul_eq_mul_right (Nat.two_pow_pos j) ?_
      rw [hvalue, Nat.mul_assoc, ← Nat.pow_add, Nat.sub_add_cancel hj]
    have hle : n ≤ m := hm ▸ Nat.le_mul_of_pos_right n (Nat.two_pow_pos _)
    exact ⟨n, 0, by omega, (Nat.mul_one n).symm⟩

/-- Multiplying by one changes nothing. -/
theorem Represents.mul_one {x : UnpackedFloat} {k : Int} (h : Represents x k)
    (hsize : k.natAbs.log2 < 1000) :
    Represents (UnpackedFloat.mul Format.binary64 x (.finite .positive (2 ^ 52) (-52) (by decide)))
      k := by
  cases h with
  | zero s => exact .zero _
  | @finite s m j n hpos hlow hhigh hplace hvalue =>
    have hself : nearestNat n = n := nearestNat_of_isDouble (isDouble_of_mul_eq hhigh hvalue)
    have hn : n ≠ 0 := by
      rintro rfl
      have := Nat.mul_pos hpos (Nat.two_pow_pos j)
      omega
    have hsign : s * Sign.positive = s := by cases s <;> rfl
    have hnatAbs : (s.apply n).natAbs = n := by cases s <;> simp [Sign.apply]
    rw [hnatAbs] at hsize
    have hexponent : ((j : Int) - 52) + -52 = (j : Int) - (104 : Nat) := by omega
    rw [UnpackedFloat.mul, hsign, hexponent, ← hself]
    refine represents_roundWithAccuracy s hn hsize ?_ ?_
    · rw [Nat.mul_right_comm, hvalue, Nat.mul_assoc, ← Nat.pow_add]
    · rw [log2_mul_two_pow _ hpos.ne']
      omega

/-- A natural number as a double. -/
theorem represents_ofNat {n : Nat} (hsize : n < 2 ^ 64) :
    Represents (Float.ofNat n).toModel.unpack (nearestNat n) := by
  have hlog : n.log2 < 1000 := by
    by_cases hn : n = 0
    · rw [hn, Nat.log2_zero]
      decide
    · exact lt_trans ((Nat.log2_lt hn).mpr hsize) (by decide)
  have hmodel := represents_ofNat_model hlog
  change Represents (Float.ofScientific n false 0).toModel.unpack (nearestNat n)
  rw [Float.ofScientific]
  split
  · -- up to 53 digits: by a machine word, and times one
    rename_i hsmall
    have htoNat : n.toUInt64.toNat = n := by
      change n % 2 ^ 64 = n
      exact Nat.mod_eq_of_lt hsize
    rw [nearestNat_eq_self hsmall.1.le] at hmodel ⊢
    have hone := hmodel.mul_one (by rwa [Int.natAbs_natCast])
    rw [if_neg Bool.false_ne_true, toModel_mul, toModel_one, toModel_toFloat, htoNat,
      hmodel.unpack_pack, hone.unpack_pack]
    exact hone
  · -- more digits: by the mantissa with zeros behind it
    rename_i hlarge
    have hn : n ≠ 0 := by
      rintro rfl
      exact hlarge ⟨by decide, by decide⟩
    have hrounded := represents_roundWithAccuracy .positive (M := n <<< 53 * 10 ^ 0)
        (j := 0) (t := 53)
      hn hlog (by rw [Nat.shiftLeft_eq, Nat.pow_zero, Nat.mul_one, Nat.pow_zero, Nat.mul_one])
      (by
        rw [Nat.shiftLeft_eq, Nat.pow_zero, Nat.mul_one, log2_mul_two_pow _ hn]
        omega)
    have hscientific : UnpackedFloat.ofScientific Format.binary64 n (Int.ofNat 0) =
        roundWithAccuracy Format.binary64 .positive (n <<< 53 * 10 ^ 0)
          ((0 : Nat) - (53 : Nat)) .exact := by
      have hlow : ¬ Int.ofNat 0 < -(2 ^ Format.binary64.exponentBits + (n.log2 : Int)) := by
        change ¬ (0 : Int) < -(2 ^ 11 + (n.log2 : Int))
        omega
      rw [UnpackedFloat.ofScientific, dif_neg hn, if_neg (by decide), if_neg hlow,
        if_pos (by decide)]
      rfl
    change Represents
      (Float.Model.pack (UnpackedFloat.ofScientific Format.binary64 n (Int.ofNat 0))).unpack _
    rw [hscientific, hrounded.unpack_pack]
    exact hrounded

theorem Represents.neg {x : UnpackedFloat} {k : Int} (h : Represents x k) :
    Represents x.neg (-k) := by
  cases h with
  | zero s => exact .zero _
  | @finite s m j n hpos hlow hhigh hplace hvalue =>
    have hsign : -s.apply n = (-s).apply n := by cases s <;> simp [Sign.apply]
    rw [hsign]
    exact .finite _ hpos hlow hhigh hplace hvalue

/-- An integer as a double. -/
theorem represents_ofInt {n : Int} (hsize : n.natAbs < 2 ^ 64) :
    Represents (Float.ofInt n).toModel.unpack (nearest n) := by
  cases n with
  | ofNat n => exact represents_ofNat hsize
  | negSucc n =>
    have hneg := (represents_ofNat (n := n + 1) hsize).neg
    change Represents (-(Float.ofNat (n + 1))).toModel.unpack _
    rw [toModel_neg, hneg.unpack_pack]
    exact hneg

/-! ## The order of integers as doubles -/

/-- With a full mantissa, a double with a lower place is less. -/
theorem lt_of_place_lt {m m' j k n n' : Nat} (hhigh : m < 2 ^ 53) (hlow : 2 ^ 52 ≤ m')
    (hvalue : m * 2 ^ j = n * 2 ^ 52) (hvalue' : m' * 2 ^ k = n' * 2 ^ 52) (h : j < k) :
    n < n' := by
  refine Nat.lt_of_mul_lt_mul_right (a := 2 ^ 52) ?_
  rw [← hvalue, ← hvalue']
  calc m * 2 ^ j < 2 ^ 53 * 2 ^ j := Nat.mul_lt_mul_of_pos_right hhigh (Nat.two_pow_pos j)
    _ = 2 ^ 52 * 2 ^ (j + 1) := by ring
    _ ≤ m' * 2 ^ k := Nat.mul_le_mul hlow (Nat.pow_le_pow_right Nat.two_pos h)

/-- With full mantissas, the places decide first and the mantissas then. -/
theorem compare_places {m m' j k n n' : Nat} (hlow : 2 ^ 52 ≤ m) (hhigh : m < 2 ^ 53)
    (hlow' : 2 ^ 52 ≤ m') (hhigh' : m' < 2 ^ 53) (hvalue : m * 2 ^ j = n * 2 ^ 52)
    (hvalue' : m' * 2 ^ k = n' * 2 ^ 52) :
    (compare ((j : Int) - 52) ((k : Int) - 52)).then (compare m m') = compare n n' := by
  rcases Nat.lt_trichotomy j k with hjk | rfl | hjk
  · have hn := lt_of_place_lt hhigh hlow' hvalue hvalue' hjk
    rw [Int.compare_eq_lt.mpr (by omega), Nat.compare_eq_lt.mpr hn]
    rfl
  · have hlt : m < m' ↔ n < n' := by
      rw [← Nat.mul_lt_mul_right (Nat.two_pow_pos j), hvalue, hvalue',
        Nat.mul_lt_mul_right (Nat.two_pow_pos 52)]
    have hgt : m' < m ↔ n' < n := by
      rw [← Nat.mul_lt_mul_right (Nat.two_pow_pos j), hvalue, hvalue',
        Nat.mul_lt_mul_right (Nat.two_pow_pos 52)]
    rw [Int.compare_eq_eq.mpr rfl, Nat.compare_eq_ite_lt, Nat.compare_eq_ite_lt]
    simp only [hlt, hgt]
    rfl
  · have hn := lt_of_place_lt hhigh' hlow hvalue' hvalue hjk
    rw [Int.compare_eq_gt.mpr (by omega), Nat.compare_eq_gt.mpr hn]
    rfl

theorem compare_natCast (n n' : Nat) : compare (n : Int) n' = compare n n' := by
  simp only [Int.compare_eq_ite_lt, Nat.compare_eq_ite_lt, Int.ofNat_lt]

theorem compare_neg (a b : Int) : compare (-a) (-b) = (compare a b).swap := by
  rw [Int.compare_swap]
  simp only [Int.compare_eq_ite_lt, Int.neg_lt_neg_iff]

/-- Doubles that represent integers are in their order. -/
theorem Represents.compare_eq {x y : UnpackedFloat} {a b : Int} (hx : Represents x a)
    (hy : Represents y b) : x.compare y = some (compare a b) := by
  have hpositive : ∀ {m j n : Nat}, 0 < m → m * 2 ^ j = n * 2 ^ 52 → (0 : Int) < n := by
    intro m j n hpos hvalue
    have := Nat.mul_pos hpos (Nat.two_pow_pos j)
    omega
  cases hx with
  | zero s =>
    cases hy with
    | zero _ => rfl
    | finite s' hpos' _ _ _ hvalue' =>
      have hn' := hpositive hpos' hvalue'
      cases s' with
      | positive => exact congrArg some (Int.compare_eq_lt.mpr hn').symm
      | negative => exact congrArg some (Int.compare_eq_gt.mpr (Int.neg_neg_of_pos hn')).symm
  | finite s hpos hlow hhigh _ hvalue =>
    have hn := hpositive hpos hvalue
    cases hy with
    | zero _ =>
      cases s with
      | positive => exact congrArg some (Int.compare_eq_gt.mpr hn).symm
      | negative => exact congrArg some (Int.compare_eq_lt.mpr (Int.neg_neg_of_pos hn)).symm
    | finite s' hpos' hlow' hhigh' _ hvalue' =>
      have hn' := hpositive hpos' hvalue'
      have hplaces := compare_places hlow hhigh hlow' hhigh' hvalue hvalue'
      cases s with
      | positive =>
        cases s' with
        | positive => exact congrArg some (hplaces.trans (compare_natCast _ _).symm)
        | negative =>
            exact congrArg some (Int.compare_eq_gt.mpr (by simp only [Sign.apply]; omega)).symm
      | negative =>
        cases s' with
        | positive =>
            exact congrArg some (Int.compare_eq_lt.mpr (by simp only [Sign.apply]; omega)).symm
        | negative =>
          refine congrArg some ?_
          rw [hplaces, Sign.apply, Sign.apply, compare_neg, compare_natCast]

end Stencil.Decimal
