import Stencil.Decimal.Layout
import Stencil.Proofs.Protection.Restore
import Mathlib.Data.List.Induction
import Mathlib.Data.List.TakeWhile
import Mathlib.Tactic.Ring

/-!
# Rows of digits

The value of a row of digits, what the digits of a number are a row of, and the digits that are
left when the zeros at the end are dropped.
-/

namespace Stencil.Decimal

theorem natOfDigits_append (s t : Text) :
    natOfDigits (s ++ t) = natOfDigits s * 10 ^ t.length + natOfDigits t := by
  change Nat.ofDigitChars 10 (s ++ t) 0 = _
  rw [Nat.ofDigitChars_append, Nat.ofDigitChars_eq_ofDigitChars_zero, mul_comm]
  rfl

theorem natOfDigits_zeros (n : Nat) : natOfDigits (List.replicate n '0') = 0 := by
  change Nat.ofDigitChars 10 (List.replicate n '0') 0 = 0
  simp

theorem natOfDigits_natText (n : Nat) : natOfDigits (natText n) = n :=
  Nat.ofDigitChars_ten_toDigits

theorem all_isDigit_natText (n : Nat) : (natText n).all isDigit = true :=
  List.all_eq_true.mpr fun _ h => isDigit_of_mem_natText h

theorem natText_ne_nil (n : Nat) : natText n ≠ [] := Nat.toDigits_ne_nil

/-- The number of digits of a number is the least that its value allows. -/
theorem length_natText_le {n k : Nat} (hk : 0 < k) : (natText n).length ≤ k ↔ n < 10 ^ k :=
  Nat.length_toDigits_le_iff (by decide) hk

theorem lt_pow_length_natText (n : Nat) : n < 10 ^ (natText n).length :=
  (length_natText_le (List.length_pos_iff.mpr (natText_ne_nil n))).mp le_rfl

theorem pow_length_natText_le {n : Nat} (hn : 0 < n) : 10 ^ ((natText n).length - 1) ≤ n := by
  by_contra h
  have hlen : 0 < (natText n).length := List.length_pos_iff.mpr (natText_ne_nil n)
  rcases Nat.eq_zero_or_pos ((natText n).length - 1) with h1 | h1
  · rw [h1] at h
    simp only [Nat.pow_zero] at h
    omega
  · have := (length_natText_le h1).mpr (Nat.lt_of_not_le h)
    omega

theorem natOfDigits_lt {s : Text} (hs : s.all isDigit = true) : natOfDigits s < 10 ^ s.length := by
  induction s using List.reverseRecOn with
  | nil => decide
  | append_singleton s c ih =>
    rw [List.all_append, Bool.and_eq_true] at hs
    have hc : digitValue c < 10 := by
      have hle : c ≤ '9' := by
        have := hs.2
        simp only [List.all_cons, List.all_nil, isDigit, Bool.and_true, Bool.and_eq_true,
          decide_eq_true_eq] at this
        exact this.2
      have : c.toNat ≤ '9'.toNat := hle
      unfold digitValue
      simp only [Char.reduceToNat] at this ⊢
      omega
    have hlast : natOfDigits [c] = digitValue c := by
      show 10 * 0 + digitValue c = _
      omega
    have := ih hs.1
    rw [natOfDigits_append, hlast, List.length_append, List.length_singleton, Nat.pow_succ]
    omega

/-- No number but zero is written with a zero in front. -/
theorem head_natText_ne_zero {n : Nat} (hn : 0 < n) : (natText n).head? ≠ some '0' := by
  intro hhead
  obtain ⟨ds, hds⟩ := List.head?_eq_some_iff.mp hhead
  have hdigits := all_isDigit_natText n
  have hlow := pow_length_natText_le hn
  have hvalue := natOfDigits_natText n
  rw [hds] at hdigits hlow hvalue
  rw [List.all_cons, Bool.and_eq_true] at hdigits
  have hhigh := natOfDigits_lt hdigits.2
  have hzero : natOfDigits ('0' :: ds) = natOfDigits ds := rfl
  simp only [List.length_cons, Nat.add_sub_cancel] at hlow
  omega

theorem ne_sign_of_isDigit {c : Char} (h : isDigit c = true) : c ≠ '+' ∧ c ≠ '-' := by
  constructor
  · rintro rfl
    cases h
  · rintro rfl
    cases h

theorem readNat?_eq_some {s : Text} {n : Nat} :
    readNat? s = some n ↔ s ≠ [] ∧ s.all isDigit = true ∧ natOfDigits s = n := by
  unfold readNat?
  split
  · rename_i h
    rw [Bool.or_eq_true, List.isEmpty_iff, Bool.not_eq_true', ← Bool.not_eq_true] at h
    constructor
    · intro hn
      cases hn
    · rintro ⟨hne, hdigits, -⟩
      exact (h.elim hne (· hdigits)).elim
  · rename_i h
    rw [Bool.or_eq_true, not_or, List.isEmpty_iff, Bool.not_eq_true', Bool.not_eq_false] at h
    rw [Option.some.injEq]
    exact ⟨fun hn => ⟨h.1, h.2, hn⟩, fun hn => hn.2.2⟩

/-- What is read as an integer is digits, after one sign at most. -/
theorem spelled_of_readInt? {s : Text} {n : Int} (h : readInt? s = some n) :
    ∃ digits, digits ≠ [] ∧ digits.all isDigit = true ∧
      (s = digits ∨ s = '+' :: digits ∨ s = '-' :: digits) := by
  have hdigits : ∀ w : Text, readNat? w ≠ none → w ≠ [] ∧ w.all isDigit = true := by
    intro w hw
    obtain ⟨k, hk⟩ := Option.ne_none_iff_exists'.mp hw
    obtain ⟨hne, hall, -⟩ := readNat?_eq_some.mp hk
    exact ⟨hne, hall⟩
  unfold readInt? at h
  split at h
  · rename_i w
    obtain ⟨hne, hall⟩ := hdigits w (by rintro hw; rw [hw] at h; cases h)
    exact ⟨w, hne, hall, .inr (.inl rfl)⟩
  · rename_i w
    obtain ⟨hne, hall⟩ := hdigits w (by rintro hw; rw [hw] at h; cases h)
    exact ⟨w, hne, hall, .inr (.inr rfl)⟩
  · obtain ⟨hne, hall⟩ := hdigits s (by rintro hw; rw [hw] at h; cases h)
    exact ⟨s, hne, hall, .inl rfl⟩

/-- The longest run of a class of characters ends where another character stands. -/
theorem span_append {p : Char → Bool} {s t : Text} (hs : s.all p = true)
    (ht : ∀ c ∈ t.head?, p c = false) :
    (s ++ t).takeWhile p = s ∧ (s ++ t).dropWhile p = t := by
  induction s with
  | nil =>
    cases t with
    | nil => exact ⟨rfl, rfl⟩
    | cons c t =>
      have hc : p c = false := ht c rfl
      simp [hc]
  | cons c s ih =>
    simp only [List.all_cons, Bool.and_eq_true] at hs
    obtain ⟨h1, h2⟩ := ih hs.2
    simp [hs.1, h1, h2]

/-! ## Integers -/

theorem readNat?_natText (n : Nat) : readNat? (natText n) = some n := by
  rw [readNat?, if_neg (by simp [natText_ne_nil, all_isDigit_natText]), natOfDigits_natText]

theorem readInt64?_intText (n : Int64) : readInt64? (intText n.toInt) = some n := by
  have hread : readInt? (intText n.toInt) = some n.toInt := by
    rcases n.toInt with k | k
    · have hdigits := all_isDigit_natText k
      have hread := readNat?_natText k
      change readInt? (natText k) = _
      obtain ⟨c, w, hw⟩ := List.exists_cons_of_ne_nil (natText_ne_nil k)
      rw [hw] at hdigits hread ⊢
      have hc : isDigit c = true := List.all_eq_true.mp hdigits c (by simp)
      obtain ⟨hplus, hminus⟩ := ne_sign_of_isDigit hc
      rw [readInt?.eq_3 _ (by simp [hplus]) (by simp [hminus]), hread]
      rfl
    · rw [intText, readInt?, readNat?_natText]
      rfl
  rw [readInt64?, hread, Option.bind_some, toInt64?,
    if_pos ⟨n.minValue_le_toInt, n.toInt_le⟩, Int64.ofInt_toInt]

/-- An integer starts with a digit, or with a sign and a digit, and goes on with digits. -/
theorem intText_eq_cons (n : Int) : ∃ c w, intText n = c :: w ∧
    w.all isDigit = true ∧ (isDigit c = true ∨ c = '-' ∧ w ≠ []) := by
  rcases n with k | k
  · have hdigits := all_isDigit_natText k
    obtain ⟨c, w, hw⟩ := List.exists_cons_of_ne_nil (natText_ne_nil k)
    rw [hw, List.all_cons, Bool.and_eq_true] at hdigits
    exact ⟨c, w, hw, hdigits.2, .inl hdigits.1⟩
  · exact ⟨'-', _, rfl, all_isDigit_natText _, .inr ⟨rfl, natText_ne_nil _⟩⟩

/-! ## Digits of a width -/

theorem all_isDigit_padded (width n : Nat) : (padded width n).all isDigit = true := by
  unfold padded
  rw [List.all_append, all_isDigit_natText, Bool.and_true, List.all_eq_true]
  intro c hc
  rw [(List.mem_replicate.mp hc).2]
  decide

theorem padded_ne_nil (width n : Nat) : padded width n ≠ [] := by
  unfold padded
  exact List.append_ne_nil_of_right_ne_nil _ (natText_ne_nil n)

/-- Zeros in front do not count. -/
theorem natOfDigits_padded (width n : Nat) : natOfDigits (padded width n) = n := by
  unfold padded
  rw [natOfDigits_append, natOfDigits_zeros, natOfDigits_natText, Nat.zero_mul, Nat.zero_add]

theorem length_padded {width n : Nat} (hwidth : 0 < width) (hn : n < 10 ^ width) :
    (padded width n).length = width := by
  have hlength := (length_natText_le hwidth).mpr hn
  unfold padded
  rw [List.length_append, List.length_replicate]
  omega

/-! ## Digits that count -/

/-- A number is written with its significant digits and zeros. -/
theorem natText_eq_significant (n : Nat) :
    ∃ z, natText n = significant n ++ List.replicate z '0' := by
  have hzeros : ∀ c ∈ (natText n).reverse.takeWhile (· = '0'), c = '0' := fun c hc => by
    simpa using List.mem_takeWhile_imp hc
  have hsplit := congrArg List.reverse
    (List.takeWhile_append_dropWhile (p := (· = '0')) (l := (natText n).reverse))
  rw [List.reverse_append, List.reverse_reverse, List.eq_replicate_of_mem hzeros,
    List.reverse_replicate] at hsplit
  rw [significant]
  split
  · -- a number of zeros only is zero
    rename_i hnil
    rw [hnil, List.nil_append] at hsplit
    have hvalue := natOfDigits_natText n
    rw [← hsplit, natOfDigits_zeros] at hvalue
    subst hvalue
    exact ⟨0, by decide⟩
  · exact ⟨_, hsplit.symm⟩

theorem significant_ne_nil (n : Nat) : significant n ≠ [] := by
  rw [significant]
  split
  · exact List.cons_ne_nil _ _
  · assumption

theorem all_isDigit_significant (n : Nat) : (significant n).all isDigit = true := by
  obtain ⟨z, hz⟩ := natText_eq_significant n
  have := all_isDigit_natText n
  rw [hz, List.all_append, Bool.and_eq_true] at this
  exact this.1

end Stencil.Decimal
