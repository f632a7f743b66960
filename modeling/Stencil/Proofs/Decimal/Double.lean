import Stencil.Decimal.Binary
import Mathlib.Data.Nat.Bitwise

/-!
# Doubles and their parts

Taking a double apart loses nothing of a finite one: the sign, the mantissa and the exponent give
its bits back, and the bits are the double. The parts are the canonical ones, in which a value has
one mantissa only.
-/

namespace Stencil.Decimal

open Float.Model

/-- The mantissas and exponents that doubles come apart into. -/
structure Canonical (m : Nat) (q : Int) : Prop where
  /-- A mantissa has at most 53 bits. -/
  mantissa_lt : m < 2 ^ 53
  /-- No exponent is below the least one. -/
  least_le : -1074 ≤ q
  /-- A mantissa with fewer bits has the least exponent. -/
  normal : q = -1074 ∨ 2 ^ 52 ≤ m

theorem eq_of_toBits {f g : Float} (h : f.toBits.toNat = g.toBits.toNat) : f = g := by
  obtain ⟨⟨x, hx⟩⟩ := f
  obtain ⟨⟨y, hy⟩⟩ := g
  obtain rfl : x = y := UInt64.toNat_inj.mp h
  rfl

namespace Binary

/-- A double comes apart by its three bit fields. -/
theorem ofFloat_fields (f : Float) :
    ∃ s e t : Nat, f.toBits.toNat = s * 2 ^ 63 + e * 2 ^ 52 + t ∧ s < 2 ∧ e < 2 ^ 11 ∧ t < 2 ^ 52 ∧
      e = f.toBits.toNat / 2 ^ 52 % 2 ^ 11 ∧
      ofFloat f =
        if e = 2047 then if t = 0 then .infinite (decide (s = 1)) else .nan
        else if e = 0 then .finite (decide (s = 1)) t (-1074)
        else .finite (decide (s = 1)) (2 ^ 52 + t) ((e : Int) - 1075) := by
  have hlt : f.toBits.toNat < 2 ^ 64 := f.toBits.toNat_lt
  refine ⟨f.toBits.toNat / 2 ^ 63, f.toBits.toNat / 2 ^ 52 % 2 ^ 11, f.toBits.toNat % 2 ^ 52,
    by omega, by omega, by omega, by omega, rfl, ?_⟩
  simp [ofFloat]

theorem ofFloat_canonical {f : Float} {b : Bool} {m : Nat} {q : Int}
    (h : ofFloat f = .finite b m q) : Canonical m q := by
  obtain ⟨s, e, t, -, -, he, ht, -, hf⟩ := ofFloat_fields f
  rw [hf] at h
  split at h
  · split at h <;> cases h
  · split at h
    · cases h
      exact ⟨by omega, by omega, .inl rfl⟩
    · cases h
      exact ⟨by omega, by omega, .inr (by omega)⟩

/-- A finite double is known by its parts. -/
theorem ofFloat_finite_inj {f g : Float} {b : Bool} {m : Nat} {q : Int}
    (hf : ofFloat f = .finite b m q) (hg : ofFloat g = .finite b m q) : f = g := by
  refine eq_of_toBits ?_
  obtain ⟨s, e, t, hbits, hs, he, ht, -, hparts⟩ := ofFloat_fields f
  obtain ⟨s', e', t', hbits', hs', he', ht', -, hparts'⟩ := ofFloat_fields g
  rw [hparts] at hf
  rw [hparts'] at hg
  rw [hbits, hbits']
  -- the exponent is zero exactly where the mantissa lacks its leading bit
  have key : s = s' ∧ e = e' ∧ t = t' := by
    split at hf
    · split at hf <;> cases hf
    split at hg
    · split at hg <;> cases hg
    have hsign : decide (s = 1) = decide (s' = 1) := by
      split at hf <;> split at hg <;> cases hf <;> injection hg <;> simp_all
    have hs : s = s' := by
      by_cases h : s = 1 <;> by_cases h' : s' = 1 <;> simp [h, h'] at hsign <;> omega
    split at hf <;> split at hg <;> cases hf <;> injection hg <;> omega
  obtain ⟨rfl, rfl, rfl⟩ := key
  rfl

theorem exponent_toNat (b : BitVec 64) :
    (@UnpackedFloat.unpackExponent Format.binary64 b).toNat = b.toNat / 2 ^ 52 % 2 ^ 11 := by
  simp [UnpackedFloat.unpackExponent, BitVec.extractLsb_toNat, Nat.shiftRight_eq_div_pow]

/-- A double is finite unless all bits of its exponent are set. -/
theorem isFinite_iff_exponent (f : Float) :
    f.isFinite = true ↔ f.toBits.toNat / 2 ^ 52 % 2 ^ 11 ≠ 2047 := by
  have h := exponent_toNat f.toBits.toBitVec
  rw [UInt64.toNat_toBitVec] at h
  have hall : (-1#11).toNat = 2047 := rfl
  rw [← h, ← hall, Ne, BitVec.toNat_inj]
  change (UnpackedFloat.unpack Format.binary64 f.toBits.toBitVec).isFinite = true ↔ _
  delta UnpackedFloat.unpack
  dsimp only
  by_cases he : @UnpackedFloat.unpackExponent Format.binary64 f.toBits.toBitVec =
      -1#(Format.binary64.exponentBits)
  · rw [if_pos he]
    refine iff_of_false ?_ (not_not_intro he)
    split <;> exact Bool.false_ne_true
  · rw [if_neg he]
    refine iff_of_true (iteInduction (motive := (UnpackedFloat.isFinite · = true)) (fun _ => ?_)
      fun _ => rfl) he
    by_cases hm : @UnpackedFloat.unpackMantissa Format.binary64 f.toBits.toBitVec = 0#_
    · rw [dif_pos hm]
      rfl
    · rw [dif_neg hm]
      rfl

/-- The finite doubles are those with a mantissa and an exponent. -/
theorem isFinite_iff {f : Float} : f.isFinite = true ↔ ∃ b m q, ofFloat f = .finite b m q := by
  obtain ⟨s, e, t, -, -, -, -, he, hf⟩ := ofFloat_fields f
  rw [isFinite_iff_exponent, ← he, hf]
  constructor
  · intro hne
    rw [if_neg hne]
    split <;> exact ⟨_, _, _, rfl⟩
  · rintro ⟨b, m, q, h⟩ rfl
    simp only [if_true] at h
    split at h <;> cases h

end Binary

end Stencil.Decimal
