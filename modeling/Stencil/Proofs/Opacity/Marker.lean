import Stencil.Proofs.Protection.Restore

/-!
# Markers

A text with holes, and what it takes to find the holes again once a marker has been put into all of
them: replacing the marker then fills the holes with something else.
-/

namespace Stencil

namespace Text

/-- A character, or a hole that is filled with a text. -/
def holed (v : Text) : Option Char → Text
  | none => v
  | some c => [c]

/-- A text with holes, all of them filled with one text. -/
def fill (v : Text) (bits : List (Option Char)) : Text := bits.flatMap (holed v)

@[simp]
theorem fill_nil (v : Text) : fill v [] = [] := rfl

@[simp]
theorem fill_none (v : Text) (bits : List (Option Char)) :
    fill v (none :: bits) = v ++ fill v bits :=
  rfl

@[simp]
theorem fill_some (v : Text) (c : Char) (bits : List (Option Char)) :
    fill v (some c :: bits) = c :: fill v bits := rfl

@[simp]
theorem fill_append (v : Text) (bits rest : List (Option Char)) :
    fill v (bits ++ rest) = fill v bits ++ fill v rest := by
  simp [fill]

@[simp]
theorem fill_map_some (v s : Text) : fill v (s.map some) = s := by
  induction s with
  | nil => rfl
  | cons c s ih => rw [List.map_cons, fill_some, ih]

/-- A marker for a text: it is not found there, and no part of the text is the beginning of an
occurrence that a marker behind it would complete. -/
def Marks (m s : Text) : Prop :=
  m ≠ [] ∧ ∀ y b, m = y ++ b → y ≠ [] → b <+: m → ¬ y <:+: s

theorem Marks.of_suffix {m s t : Text} (h : Marks m s) (ht : t <:+ s) : Marks m t :=
  ⟨h.1, fun y b hm hy hb hpart => h.2 y b hm hy hb (hpart.trans ht.isInfix)⟩

/-- A text without the characters of a marker is marked by it. -/
theorem marks_of_foreign {m s : Text} (hm : m ≠ []) (h : ∀ c ∈ m, c ∉ s) : Marks m s := by
  refine ⟨hm, fun y b hsplit hy _ hpart => ?_⟩
  obtain ⟨c, y, rfl⟩ := List.exists_cons_of_ne_nil hy
  exact h c (by simp [hsplit]) (hpart.subset (by simp))

/-- Holes split a text into stretches. -/
theorem exists_stretch (bits : List (Option Char)) :
    ∃ (s : Text) (rest : List (Option Char)), bits = s.map some ++ rest ∧
      (rest = [] ∨ ∃ bits', rest = none :: bits') := by
  induction bits with
  | nil => exact ⟨[], [], rfl, .inl rfl⟩
  | cons bit bits ih =>
    cases bit with
    | none => exact ⟨[], none :: bits, rfl, .inr ⟨bits, rfl⟩⟩
    | some c =>
      obtain ⟨s, rest, rfl, hrest⟩ := ih
      exact ⟨c :: s, rest, rfl, hrest⟩

/-- A marker is not found in front of a character that is not its own. -/
theorem Marks.not_prefix {m : Text} {c : Char} {bits : List (Option Char)}
    (h : Marks m (fill [] (some c :: bits))) : ¬ m <+: fill m (some c :: bits) := by
  intro hp
  obtain ⟨s, rest, rfl, hrest⟩ := exists_stretch bits
  have hpart : ∀ {y}, y <+: c :: s → y <:+: fill [] (some c :: (s.map some ++ rest)) := by
    intro y hy
    refine hy.isInfix.trans (List.IsPrefix.isInfix ⟨fill [] rest, ?_⟩)
    simp
  have hm : fill m (some c :: (s.map some ++ rest)) = c :: s ++ fill m rest := by simp
  rw [hm] at hp
  rcases List.prefix_or_prefix_of_prefix hp (List.prefix_append (c :: s) _) with hshort | ⟨b, hb⟩
  · exact h.2 m [] (by simp) h.1 (List.nil_prefix) (hpart hshort)
  · refine h.2 (c :: s) b hb.symm (by simp) ?_ (hpart (List.prefix_refl _))
    -- the rest of the occurrence would be the front of the next marker
    rw [← hb, List.prefix_append_right_inj] at hp
    rcases hrest with rfl | ⟨bits', rfl⟩
    · rw [List.prefix_nil.mp hp]
      exact List.nil_prefix
    · rw [fill_none] at hp
      rw [hb] at hp
      exact List.prefix_of_prefix_length_le hp (List.prefix_append _ _)
        (by rw [← hb]; simp; omega)

/-- Replacing the marker fills the holes with something else. -/
theorem replace_fill {m : Text} {bits : List (Option Char)} (h : Marks m (fill [] bits))
    (v : Text) :
    (fill m bits).replace m v = fill v bits := by
  unfold Text.replace
  induction bits with
  | nil => rfl
  | cons bit bits ih =>
    cases bit with
    | none => rw [fill_none, replaceFrom_hit h.1, ih h, fill_none]
    | some c =>
      have hn : m.isPrefixOf (c :: fill m bits) = false := by
        simpa [List.isPrefixOf_iff_prefix, ← Bool.not_eq_true] using h.not_prefix
      rw [fill_some, replaceFrom, hn]
      simp only [Bool.false_eq_true, if_false]
      rw [ih (h.of_suffix (List.suffix_cons c _)), fill_some]

end Text

end Stencil
