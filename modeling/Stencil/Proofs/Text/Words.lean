import Stencil.Text.Case
import Mathlib.Data.List.Basic

/-!
# Words of a text

A blank between two texts keeps their words apart, and it keeps the lower case of one from looking
at the other: no letter beyond a blank decides the form of a sigma.
-/

namespace Stencil.Text

variable {c : Char} {s t : Text}

/-! ## Words -/

/-- The words of a text by its first character. -/
theorem words_cons (c : Char) (s : Text) : words (c :: s) =
    if isBlank c then words s
    else
      match s, words s with
      | d :: _, w :: rest => if isBlank d then [c] :: w :: rest else (c :: w) :: rest
      | _, rest => [c] :: rest := rfl

theorem words_cons_blank (hc : isBlank c = true) (s : Text) : words (c :: s) = words s := by
  rw [words_cons, if_pos hc]

theorem words_singleton (hc : isBlank c = false) : words [c] = [[c]] := by
  rw [words_cons, if_neg (by simp [hc])]
  rfl

/-- A character in front of a blank is a word. -/
theorem words_cons_of_blank {d : Char} (hc : isBlank c = false) (hd : isBlank d = true) (s : Text) :
    words (c :: d :: s) = [c] :: words s := by
  rw [words_cons, if_neg (by simp [hc]), words_cons_blank hd]
  cases words s with
  | nil => rfl
  | cons w rest => simp only [hd, if_true]

/-- A character in front of a word belongs to it. -/
theorem words_cons_solid {d : Char} (hc : isBlank c = false) (hd : isBlank d = false) {w : Text}
    {rest : List Text} (h : words (d :: s) = w :: rest) :
    words (c :: d :: s) = (c :: w) :: rest := by
  rw [words_cons, if_neg (by simp [hc]), h]
  simp only [hd, Bool.false_eq_true, if_false]

theorem words_ne_nil (hc : isBlank c = false) (s : Text) : words (c :: s) ≠ [] := by
  rw [words_cons, if_neg (by simp [hc])]
  split
  · split <;> exact List.cons_ne_nil _ _
  · exact List.cons_ne_nil _ _

/-- A blank between two texts keeps their words apart. -/
theorem words_append_blank (hc : isBlank c = true) (s t : Text) :
    words (s ++ c :: t) = words s ++ words t := by
  induction s with
  | nil => exact words_cons_blank hc t
  | cons a s ih =>
    by_cases ha : isBlank a = true
    · rw [List.cons_append, words_cons_blank ha, words_cons_blank ha, ih]
    · rw [Bool.not_eq_true] at ha
      -- whether the character starts a word of its own is up to the next one
      cases s with
      | nil => rw [List.singleton_append, words_cons_of_blank ha hc, words_singleton ha,
          List.singleton_append]
      | cons d s =>
        by_cases hd : isBlank d = true
        · rw [List.cons_append, words_cons_blank hd, words_cons_blank hd] at ih
          rw [List.cons_append, List.cons_append, words_cons_of_blank ha hd, ih,
            words_cons_of_blank ha hd, List.cons_append]
        · rw [Bool.not_eq_true] at hd
          obtain ⟨w, rest, hw⟩ := List.exists_cons_of_ne_nil (words_ne_nil hd s)
          rw [hw, List.cons_append, List.cons_append] at ih
          rw [List.cons_append, List.cons_append, words_cons_solid ha hd ih,
            words_cons_solid ha hd hw, List.cons_append]

/-- A text without a blank is one word. -/
theorem words_eq_singleton (hne : s ≠ []) (h : ∀ c ∈ s, isBlank c = false) : words s = [s] := by
  induction s with
  | nil => exact absurd rfl hne
  | cons c s ih =>
    obtain ⟨hc, hs⟩ := List.forall_mem_cons.mp h
    cases s with
    | nil => exact words_singleton hc
    | cons d s => exact words_cons_solid hc (hs d (by simp)) (ih (List.cons_ne_nil _ _) hs)

/-! ## Lower case -/

/-- Beyond a space no character is looked at. -/
theorem startsCased_append_space (s t : Text) : startsCased (s ++ ' ' :: t) = startsCased s := by
  have hpassed : isCaseIgnorable ' ' = false := by decide +kernel
  have hcased : isCased ' ' = false := by decide +kernel
  unfold startsCased
  induction s with
  | nil => simp [hpassed, hcased]
  | cons c s ih =>
    rw [List.cons_append, List.dropWhile_cons, List.dropWhile_cons]
    by_cases hc : isCaseIgnorable c = true
    · rw [if_pos hc, if_pos hc, ih]
    · rw [if_neg hc, if_neg hc, List.head?_cons, List.head?_cons]

theorem lowerAfter_space (before rest t : Text) :
    lowerAfter (before ++ ' ' :: rest) t = lowerAfter before t := by
  induction t generalizing before with
  | nil => rfl
  | cons c t ih =>
    rw [lowerAfter, lowerAfter, startsCased_append_space, ← List.cons_append, ih]

theorem lowerAfter_append_space (before s t : Text) :
    lowerAfter before (s ++ ' ' :: t) = lowerAfter before s ++ ' ' :: lower t := by
  have hspace : ' ' ≠ capitalSigma := by decide
  have hsame : lowerChar ' ' = [' '] := by decide
  induction s generalizing before with
  | nil =>
    have hrest := lowerAfter_space [] before t
    rw [List.nil_append] at hrest
    rw [lowerAfter, List.nil_append, List.nil_append, lowerAfter, hrest, hsame]
    simp [hspace, lower]
  | cons c s ih =>
    rw [List.cons_append, lowerAfter, lowerAfter, startsCased_append_space, ih]
    split <;> simp

/-- A space keeps the lower case of two texts apart. -/
theorem lower_append_space (s t : Text) : lower (s ++ ' ' :: t) = lower s ++ ' ' :: lower t :=
  lowerAfter_append_space [] s t

/-- Characters without an upper case are left alone. -/
theorem lower_eq_self (h : ∀ c ∈ s, c ≠ capitalSigma ∧ lowerChar c = [c]) : lower s = s := by
  have hafter : ∀ before : Text, lowerAfter before s = s := by
    induction s with
    | nil => exact fun _ => rfl
    | cons c s ih =>
      obtain ⟨⟨hsigma, hsame⟩, hs⟩ := List.forall_mem_cons.mp h
      intro before
      rw [lowerAfter, if_neg (by simp [hsigma]), hsame, ih hs, List.singleton_append]
  exact hafter []

/-- The words of two texts with a space between them, in lower case. -/
theorem words_lower_append (a b : String) : words (lower (a ++ " " ++ b).toList) =
    words (lower a.toList) ++ words (lower b.toList) := by
  have htext : (a ++ " " ++ b).toList = a.toList ++ ' ' :: b.toList := by
    rw [String.toList_append, String.toList_append, List.append_assoc]
    rfl
  rw [htext, lower_append_space, words_append_blank (by decide)]

/-! ## Plain words -/

/-- An ASCII character that is no capital and stands behind the space. -/
def isPlain (c : Char) : Bool := 0x20 < c.toNat && c.toNat < 0x80 && !('A' ≤ c && c ≤ 'Z')

theorem isBlank_of_isPlain (h : isPlain c = true) : isBlank c = false := by
  simp only [isPlain, Bool.and_eq_true, decide_eq_true_eq] at h
  simp only [isBlank, Bool.or_eq_false_iff, Bool.and_eq_false_iff, beq_eq_false_iff_ne,
    decide_eq_false_iff_not, ne_eq]
  omega

theorem lowerChar_of_isPlain (h : isPlain c = true) : lowerChar c = [c] := by
  simp only [isPlain, Bool.and_eq_true, decide_eq_true_eq, Bool.not_eq_true',
    Bool.and_eq_false_iff, decide_eq_false_iff_not] at h
  have hupper : ¬ (c.val ≥ 'A'.val ∧ c.val ≤ 'Z'.val) := fun hcapital =>
    h.2.elim (fun hlow => hlow hcapital.1) fun hhigh => hhigh hcapital.2
  unfold lowerChar Char.toLower
  rw [if_pos h.1.2, dif_neg hupper]

theorem isPlain_of_isDigit (h : isDigit c = true) : isPlain c = true := by
  simp only [isDigit, Bool.and_eq_true, decide_eq_true_eq] at h
  have hlow : '0'.toNat ≤ c.toNat := h.1
  have hhigh : c.toNat ≤ '9'.toNat := h.2
  have hupper : ¬ 'A' ≤ c := fun hcapital =>
    absurd (show 'A'.toNat ≤ c.toNat from hcapital) (by simp only [Char.reduceToNat] at *; omega)
  simp only [Char.reduceToNat] at hlow hhigh
  simp only [isPlain, Bool.and_eq_true, decide_eq_true_eq, Bool.not_eq_true',
    Bool.and_eq_false_iff, decide_eq_false_iff_not]
  exact ⟨by omega, .inl hupper⟩

/-- A plain text is one word, in lower case. -/
theorem words_lower_of_isPlain (hne : s ≠ []) (h : s.all isPlain = true) :
    words (lower s) = [s] := by
  have hplain : ∀ c ∈ s, isPlain c = true := List.all_eq_true.mp h
  have hsigma : isPlain capitalSigma = false := by decide
  have hsame : ∀ c ∈ s, c ≠ capitalSigma ∧ lowerChar c = [c] := by
    refine fun c hc => ⟨?_, lowerChar_of_isPlain (hplain c hc)⟩
    rintro rfl
    exact absurd (hplain _ hc) (by rw [hsigma]; exact Bool.false_ne_true)
  rw [lower_eq_self hsame]
  exact words_eq_singleton hne fun c hc => isBlank_of_isPlain (hplain c hc)

end Stencil.Text
