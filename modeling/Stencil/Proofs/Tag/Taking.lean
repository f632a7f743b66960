import Stencil.Proofs.Tag.Delimited

/-!
# What recognizers take

What a recognizer takes off a text, told part by part: the part in front, and then what the
recognizer behind it takes of the rest. Where a part may take more or less, the parts that come
before in its order are those behind which the rest is not read.
-/

namespace Stencil

namespace Recognizer

variable {α β : Type} {next r q : Recognizer α} {s lexeme : Text} {a : α}

theorem map_eq_some {f : α → β} {b : β} :
    r.map f s = some (lexeme, b) ↔ ∃ a, r s = some (lexeme, a) ∧ f a = b := by
  unfold Recognizer.map
  cases r s with
  | none => simp
  | some x =>
    obtain ⟨l, a⟩ := x
    simp only [Option.some.injEq, Prod.mk.injEq]
    constructor
    · rintro ⟨rfl, rfl⟩
      exact ⟨a, ⟨rfl, rfl⟩, rfl⟩
    · rintro ⟨b, ⟨rfl, rfl⟩, rfl⟩
      exact ⟨rfl, rfl⟩

theorem map_eq_none {f : α → β} : r.map f s = none ↔ r s = none := by
  unfold Recognizer.map
  cases r s <;> simp

theorem orElse_eq_some (h : r.orElse q s = some (lexeme, a)) :
    r s = some (lexeme, a) ∨ q s = some (lexeme, a) := by
  unfold orElse at h
  cases hr : r s with
  | none => rw [hr] at h; exact .inr h
  | some x => rw [hr] at h; exact .inl h

theorem literal_eq_some {w : Text} :
    literal w next s = some (lexeme, a) ↔
      ∃ t l, s = w ++ t ∧ lexeme = w ++ l ∧ next t = some (l, a) := by
  constructor
  · intro h
    by_cases hp : w <+: s
    · obtain ⟨t, rfl⟩ := hp
      rw [literal_append] at h
      obtain ⟨⟨l, b⟩, hx, heq⟩ := Option.map_eq_some_iff.mp h
      simp only [Prod.mk.injEq] at heq
      obtain ⟨rfl, rfl⟩ := heq
      exact ⟨t, l, rfl, rfl, hx⟩
    · rw [literal_eq_none hp] at h
      exact absurd h (by simp)
  · rintro ⟨t, l, rfl, rfl, h⟩
    rw [literal_append, h]
    rfl

theorem one_eq_some {p : Char → Bool} {c : Char} (h : one p next s = some (lexeme, c, a)) :
    ∃ t l, s = c :: t ∧ lexeme = c :: l ∧ p c = true ∧ next t = some (l, a) := by
  cases s with
  | nil => exact absurd h (by simp [one])
  | cons x t =>
    rw [one] at h
    split at h
    · rename_i hp
      cases hn : next t with
      | none => rw [hn] at h; exact absurd h (by simp)
      | some y =>
        rw [hn] at h
        simp only [Option.some.injEq, Prod.mk.injEq] at h
        obtain ⟨rfl, rfl, rfl⟩ := h
        exact ⟨t, y.1, rfl, rfl, hp, hn⟩
    · exact absurd h (by simp)

/-- Where nothing is taken, the whole text is left to what follows. -/
theorem nothing_eq_some {taken : Text}
    (h : next.map (fun a => (([] : Text), a)) s = some (lexeme, taken, a)) :
    taken = [] ∧ next s = some (lexeme, a) := by
  obtain ⟨b, hb, heq⟩ := map_eq_some.mp h
  simp only [Prod.mk.injEq] at heq
  obtain ⟨rfl, rfl⟩ := heq
  exact ⟨rfl, hb⟩

theorem most_eq_none {p : Char → Bool} :
    most p next s = none ↔ ∀ w t, s = w ++ t → (∀ c ∈ w, p c = true) → next t = none := by
  induction s with
  | nil =>
    rw [most, map_eq_none]
    constructor
    · intro h w t hs _
      rw [(List.append_eq_nil_iff.mp hs.symm).2]
      exact h
    · intro h
      exact h [] [] rfl (by simp)
  | cons c s ih =>
    rw [most]
    constructor
    · intro h w t hs hw
      split at h
      · exact absurd h (by simp)
      · rename_i hmost
        cases w with
        | nil =>
          rw [show t = c :: s from hs.symm]
          exact map_eq_none.mp h
        | cons x w =>
          simp only [List.cons_append, List.cons.injEq] at hs
          obtain ⟨rfl, rfl⟩ := hs
          rw [if_pos (hw c (by simp))] at hmost
          exact ih.mp hmost w t rfl fun y hy => hw y (by simp [hy])
    · intro h
      have hrest : (if p c = true then most p next s else none) = none := by
        split
        · rename_i hp
          exact ih.mpr fun w t hs hw => h (c :: w) t (by rw [hs]; rfl)
            (List.forall_mem_cons.mpr ⟨hp, hw⟩)
        · rfl
      rw [hrest]
      exact map_eq_none.mpr (h [] (c :: s) rfl (by simp))

/-- The stretch taken is the longest behind which the rest is read. -/
theorem most_eq_some {p : Char → Bool} {taken : Text}
    (h : most p next s = some (lexeme, taken, a)) :
    ∃ t l, s = taken ++ t ∧ lexeme = taken ++ l ∧ (∀ c ∈ taken, p c = true) ∧
      next t = some (l, a) ∧
      ∀ w u, s = w ++ u → (∀ c ∈ w, p c = true) → taken.length < w.length → next u = none := by
  induction s generalizing lexeme taken with
  | nil =>
    obtain ⟨rfl, hn⟩ := nothing_eq_some h
    refine ⟨[], lexeme, rfl, rfl, by simp, hn, fun w u hs _ hlt => ?_⟩
    rw [(List.append_eq_nil_iff.mp hs.symm).1] at hlt
    exact absurd hlt (Nat.lt_irrefl _)
  | cons c s ih =>
    rw [most] at h
    split at h
    · rename_i l taken' b hmost
      simp only [Option.some.injEq, Prod.mk.injEq] at h
      obtain ⟨rfl, rfl, rfl⟩ := h
      split at hmost
      · rename_i hp
        obtain ⟨t, l, rfl, rfl, ht, hn, hlonger⟩ := ih hmost
        refine ⟨t, l, rfl, rfl, List.forall_mem_cons.mpr ⟨hp, ht⟩, hn, ?_⟩
        intro w u hs hw hlt
        cases w with
        | nil => exact absurd hlt (by simp)
        | cons x w =>
          simp only [List.cons_append, List.cons.injEq] at hs
          obtain ⟨rfl, hs⟩ := hs
          exact hlonger w u hs (fun y hy => hw y (by simp [hy])) (by simpa using hlt)
      · exact absurd hmost (by simp)
    · rename_i hmost
      obtain ⟨rfl, hn⟩ := nothing_eq_some h
      refine ⟨c :: s, lexeme, rfl, rfl, by simp, hn, ?_⟩
      intro w u hs hw hlt
      cases w with
      | nil => exact absurd hlt (by simp)
      | cons x w =>
        simp only [List.cons_append, List.cons.injEq] at hs
        obtain ⟨rfl, hs⟩ := hs
        rw [if_pos (hw c (by simp))] at hmost
        exact most_eq_none.mp hmost w u hs fun y hy => hw y (by simp [hy])

theorem fewest_eq_none {p : Char → Bool} :
    fewest p next s = none ↔ ∀ w t, s = w ++ t → (∀ c ∈ w, p c = true) → next t = none := by
  induction s with
  | nil =>
    rw [fewest, map_eq_none]
    constructor
    · intro h w t hs _
      rw [(List.append_eq_nil_iff.mp hs.symm).2]
      exact h
    · intro h
      exact h [] [] rfl (by simp)
  | cons c s ih =>
    rw [fewest]
    constructor
    · intro h w t hs hw
      split at h
      · exact absurd h (by simp)
      · rename_i hnext
        cases w with
        | nil =>
          rw [show t = c :: s from hs.symm]
          exact hnext
        | cons x w =>
          simp only [List.cons_append, List.cons.injEq] at hs
          obtain ⟨rfl, rfl⟩ := hs
          rw [if_pos (hw c (by simp))] at h
          refine ih.mp ?_ w t rfl fun y hy => hw y (by simp [hy])
          cases hfew : fewest p next (w ++ t) with
          | none => rfl
          | some x => rw [hfew] at h; exact absurd h (by simp)
    · intro h
      rw [h [] (c :: s) rfl (by simp)]
      have hrest : (if p c = true then fewest p next s else none) = none := by
        split
        · rename_i hp
          exact ih.mpr fun w t hs hw => h (c :: w) t (by rw [hs]; rfl)
            (List.forall_mem_cons.mpr ⟨hp, hw⟩)
        · rfl
      rw [hrest]

/-- The stretch taken is the shortest behind which the rest is read. -/
theorem fewest_eq_some {p : Char → Bool} {taken : Text}
    (h : fewest p next s = some (lexeme, taken, a)) :
    ∃ t l, s = taken ++ t ∧ lexeme = taken ++ l ∧ (∀ c ∈ taken, p c = true) ∧
      next t = some (l, a) ∧ ∀ w u, s = w ++ u → w.length < taken.length → next u = none := by
  induction s generalizing lexeme taken with
  | nil =>
    obtain ⟨rfl, hn⟩ := nothing_eq_some h
    exact ⟨[], lexeme, rfl, rfl, by simp, hn, fun w u _ hlt => absurd hlt (Nat.not_lt_zero _)⟩
  | cons c s ih =>
    rw [fewest] at h
    split at h
    · rename_i l b hnext
      simp only [Option.some.injEq, Prod.mk.injEq] at h
      obtain ⟨rfl, rfl, rfl⟩ := h
      exact ⟨c :: s, l, rfl, rfl, by simp, hnext, fun w u _ hlt => absurd hlt (Nat.not_lt_zero _)⟩
    · rename_i hnext
      split at h
      · rename_i l taken' b hfew
        simp only [Option.some.injEq, Prod.mk.injEq] at h
        obtain ⟨rfl, rfl, rfl⟩ := h
        split at hfew
        · rename_i hp
          obtain ⟨t, l, rfl, rfl, ht, hn, hshorter⟩ := ih hfew
          refine ⟨t, l, rfl, rfl, List.forall_mem_cons.mpr ⟨hp, ht⟩, hn, ?_⟩
          intro w u hs hlt
          cases w with
          | nil =>
            rw [show u = c :: (taken' ++ t) from hs.symm]
            exact hnext
          | cons x w =>
            exact hshorter w u (List.cons.inj hs).2 (by simpa using hlt)
        · exact absurd hfew (by simp)
      · exact absurd h (by simp)

theorem leading_eq_some {p q : Char → Bool} {taken : Text}
    (h : leading p q next s = some (lexeme, taken, a)) :
    ∃ c w t l, taken = c :: w ∧ s = taken ++ t ∧ lexeme = taken ++ l ∧ p c = true ∧
      (∀ x ∈ w, q x = true) ∧ next t = some (l, a) := by
  obtain ⟨⟨c, w, b⟩, hone, heq⟩ := map_eq_some.mp h
  simp only [Prod.mk.injEq] at heq
  obtain ⟨rfl, rfl⟩ := heq
  obtain ⟨t, l, rfl, rfl, hp, hmost⟩ := one_eq_some hone
  obtain ⟨t, l, rfl, rfl, hq, hn, -⟩ := most_eq_some hmost
  exact ⟨c, w, t, l, rfl, rfl, rfl, hp, hq, hn⟩

/-- As many blanks are taken as the rest allows. -/
theorem blanks_eq_some (h : blanks next s = some (lexeme, a)) :
    ∃ g t l, (∀ c ∈ g, isBlank c = true) ∧ s = g ++ t ∧ lexeme = g ++ l ∧ next t = some (l, a) ∧
      ∀ w u, s = w ++ u → (∀ c ∈ w, isBlank c = true) → g.length < w.length → next u = none := by
  obtain ⟨⟨g, b⟩, hmost, rfl⟩ := map_eq_some.mp h
  obtain ⟨t, l, rfl, rfl, hg, hn, hlonger⟩ := most_eq_some hmost
  exact ⟨g, t, l, hg, rfl, rfl, hn, hlonger⟩

theorem blanks_eq_none :
    blanks next s = none ↔ ∀ w t, s = w ++ t → (∀ c ∈ w, isBlank c = true) → next t = none := by
  rw [blanks, map_eq_none, most_eq_none]

theorem someBlanks_eq_some (h : someBlanks next s = some (lexeme, a)) :
    ∃ g t l, (∀ c ∈ g, isBlank c = true) ∧ g ≠ [] ∧ s = g ++ t ∧ lexeme = g ++ l ∧
      next t = some (l, a) := by
  obtain ⟨⟨g, b⟩, hlead, rfl⟩ := map_eq_some.mp h
  obtain ⟨c, w, t, l, rfl, rfl, rfl, hc, hw, hn⟩ := leading_eq_some hlead
  exact ⟨c :: w, t, l, List.forall_mem_cons.mpr ⟨hc, hw⟩, by simp, rfl, rfl, hn⟩

theorem wordEnd_eq_some (h : wordEnd next s = some (lexeme, a)) :
    s.head?.any isWordChar = false ∧ next s = some (lexeme, a) := by
  rw [wordEnd] at h
  split at h
  · exact absurd h (by simp)
  · rename_i hn
    exact ⟨by simpa using hn, h⟩

end Recognizer

end Stencil
