import Stencil.Text.Basic
import Mathlib.Data.List.Basic

/-!
# Pieces of texts

Splitting at a separator undoes joining with it, as long as no piece has the separator in it, and
trimming leaves a text alone that neither starts nor ends with a blank.
-/

namespace Stencil.Text

variable {s : Text}

theorem splitOn_append_cons (sep : Char) (s t : Text) :
    (s ++ sep :: t).splitOn sep = s.splitOn sep ++ t.splitOn sep := by
  induction s with
  | nil =>
    rw [List.nil_append, splitOn, splitOn]
    split
    · exact absurd ‹_› (splitOn_ne_nil sep t)
    · simp [*]
  | cons c s ih =>
    obtain ⟨piece, rest, hs⟩ := List.exists_cons_of_ne_nil (splitOn_ne_nil sep s)
    rw [List.cons_append, splitOn, ih, hs, splitOn, hs]
    by_cases hc : c = sep <;> simp [hc]

theorem splitOn_eq_singleton {sep : Char} (h : sep ∉ s) : s.splitOn sep = [s] := by
  induction s with
  | nil => rfl
  | cons c s ih =>
    rw [List.mem_cons, not_or] at h
    rw [splitOn, ih h.2]
    simp [Ne.symm h.1]

theorem not_mem_of_mem_splitOn {sep : Char} {piece : Text} (h : piece ∈ s.splitOn sep) :
    sep ∉ piece := by
  induction s generalizing piece with
  | nil =>
    obtain rfl := List.mem_singleton.mp h
    exact List.not_mem_nil
  | cons c s ih =>
    obtain ⟨first, rest, hs⟩ := List.exists_cons_of_ne_nil (splitOn_ne_nil sep s)
    rw [hs] at ih
    rw [splitOn, hs] at h
    dsimp only at h
    by_cases hc : c = sep
    · rw [if_pos hc] at h
      rcases List.mem_cons.mp h with rfl | h
      · exact List.not_mem_nil
      · exact ih h
    · rw [if_neg hc] at h
      rcases List.mem_cons.mp h with rfl | h
      · exact List.not_mem_cons_of_ne_of_not_mem (Ne.symm hc) (ih List.mem_cons_self)
      · exact ih (List.mem_cons_of_mem _ h)

/-- What is joined falls into the same pieces. -/
theorem splitOn_intercalate {sep : Char} {pieces : List Text} (hne : pieces ≠ [])
    (h : ∀ p ∈ pieces, sep ∉ p) : splitOn sep ([sep].intercalate pieces) = pieces := by
  induction pieces with
  | nil => exact absurd rfl hne
  | cons p rest ih =>
    obtain ⟨hp, hrest⟩ := List.forall_mem_cons.mp h
    cases rest with
    | nil => simpa [List.intercalate] using splitOn_eq_singleton hp
    | cons q rest =>
      have hjoin : [sep].intercalate (p :: q :: rest) =
          p ++ sep :: [sep].intercalate (q :: rest) := by
        simp [List.intercalate]
      rw [hjoin, splitOn_append_cons, splitOn_eq_singleton hp, ih (List.cons_ne_nil _ _) hrest,
        List.singleton_append]

/-- What follows a joined text belongs to its last piece. -/
theorem intercalate_concat_append (sep : Text) (front : List Text) (s t : Text) :
    sep.intercalate (front ++ [s]) ++ t = sep.intercalate (front ++ [s ++ t]) := by
  induction front with
  | nil => simp [List.intercalate]
  | cons piece front ih =>
    have hjoin (rest : List Text) (hne : rest ≠ []) :
        sep.intercalate (piece :: rest) = piece ++ sep ++ sep.intercalate rest := by
      obtain ⟨next, rest, rfl⟩ := List.exists_cons_of_ne_nil hne
      simp [List.intercalate]
    rw [List.cons_append, List.cons_append, hjoin _ (by simp), hjoin _ (by simp),
      List.append_assoc, ih]

theorem splitOnce?_eq_none {sep : Char} (h : sep ∉ s) : splitOnce? sep s = none := by
  induction s with
  | nil => rfl
  | cons c s ih =>
    rw [List.mem_cons, not_or] at h
    rw [splitOnce?, if_neg (Ne.symm h.1), ih h.2]
    rfl

/-- The first character is no blank. -/
def StartsSolid (s : Text) : Prop := ∀ c ∈ s.head?, isBlank c = false

/-- The last character is no blank. -/
def EndsSolid (s : Text) : Prop := ∀ c ∈ s.getLast?, isBlank c = false

theorem StartsSolid.trimStart_eq (h : StartsSolid s) : s.trimStart = s := by
  cases s with
  | nil => rfl
  | cons c s =>
    have hc : isBlank c = false := h c rfl
    unfold trimStart
    rw [List.dropWhile_cons, if_neg (by simp [hc])]

theorem EndsSolid.trimEnd_eq (h : EndsSolid s) : s.trimEnd = s := by
  have hrev : StartsSolid s.reverse := by
    intro c hc
    rw [List.head?_reverse] at hc
    exact h c hc
  unfold trimEnd
  rw [show s.reverse.dropWhile isBlank = s.reverse from hrev.trimStart_eq, List.reverse_reverse]

theorem StartsSolid.append (h : StartsSolid s) (hne : s ≠ []) (t : Text) :
    StartsSolid (s ++ t) := by
  obtain ⟨c, s, rfl⟩ := List.exists_cons_of_ne_nil hne
  exact h

theorem EndsSolid.append {t : Text} (hs : EndsSolid s) (ht : EndsSolid t) :
    EndsSolid (s ++ t) := by
  intro c hc
  rw [List.getLast?_append, Option.mem_def, Option.or_eq_some_iff] at hc
  rcases hc with hc | ⟨-, hc⟩
  · exact ht c hc
  · exact hs c hc

theorem EndsSolid.of_append {t : Text} (h : EndsSolid t) (hne : t ≠ []) (s : Text) :
    EndsSolid (s ++ t) := by
  intro c hc
  rw [List.getLast?_append_of_ne_nil s hne] at hc
  exact h c hc

theorem endsSolid_singleton {c : Char} (hc : isBlank c = false) : EndsSolid [c] := by
  intro x hx
  obtain rfl := Option.some.inj hx
  exact hc

theorem startsSolid_trimStart (s : Text) : StartsSolid s.trimStart := by
  intro c hc
  have := List.head?_dropWhile_not isBlank s
  rw [show (s.dropWhile isBlank).head? = some c from hc] at this
  simpa using this

theorem endsSolid_trimEnd (s : Text) : EndsSolid s.trimEnd := by
  intro c hc
  unfold trimEnd at hc
  rw [List.getLast?_reverse] at hc
  exact startsSolid_trimStart s.reverse c hc

theorem length_trimEnd_le (s : Text) : s.trimEnd.length ≤ s.length := by
  have hlength : (s.reverse.dropWhile isBlank).length ≤ s.reverse.length :=
    (List.dropWhile_suffix _).length_le
  unfold trimEnd
  rwa [List.length_reverse] at hlength ⊢

/-- A text that trimming leaves alone has no blank at either end. -/
theorem trim_eq_self_iff : s.trim = s ↔ StartsSolid s ∧ EndsSolid s := by
  constructor
  · intro h
    have hsuffix : s.trimStart <:+ s := List.dropWhile_suffix _
    have hlength : s.length ≤ s.trimStart.length := by
      have := length_trimEnd_le s.trimStart
      rwa [show s.trimStart.trimEnd = s from h] at this
    have hstart : s.trimStart = s := hsuffix.eq_of_length_le hlength
    exact ⟨hstart ▸ startsSolid_trimStart s, h ▸ endsSolid_trimEnd s.trimStart⟩
  · rintro ⟨hstart, hend⟩
    rw [trim, hstart.trimStart_eq, hend.trimEnd_eq]

end Stencil.Text
