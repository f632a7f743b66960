import Stencil.Proofs.Tag.Wording
import Stencil.Value.Path

/-!
# The separators of paths

Points and arrows separate the parts of a path, and which of them is of no consequence: with points
for its arrows a path is still a path, and it leads to the same value.
-/

namespace Stencil

namespace Path

/-- A text with points for its arrows. -/
def dotted : Text → Text
  | '-' :: '>' :: s => '.' :: dotted s
  | c :: s => c :: dotted s
  | [] => []

attribute [local simp] dotted

variable {c : Char} {s t u : Text}

theorem dotted_arrow (s : Text) : dotted ('-' :: '>' :: s) = '.' :: dotted s := by rw [dotted]

theorem dotted_cons (hc : c ≠ '-') (s : Text) : dotted (c :: s) = c :: dotted s := by
  rw [dotted]
  intro t h
  exact absurd h hc

/-- What stands in front of a text with points for its arrows. -/
theorem dotted_eq_cons (h : dotted s = c :: t) :
    (∃ u, s = c :: u ∧ dotted u = t) ∨ c = '.' ∧ ∃ u, s = '-' :: '>' :: u ∧ dotted u = t := by
  fun_cases dotted s with
  | case1 u =>
    rw [dotted_arrow] at h
    obtain ⟨rfl, rfl⟩ := List.cons.inj h
    exact .inr ⟨rfl, u, rfl, rfl⟩
  | case2 x u hx =>
    rw [dotted.eq_2 x u hx] at h
    obtain ⟨rfl, rfl⟩ := List.cons.inj h
    exact .inl ⟨u, rfl, rfl⟩
  | case3 => exact absurd h (by simp)

theorem dotted_eq_nil : dotted s = [] ↔ s = [] := by
  fun_cases dotted s <;> simp_all

/-- There are no arrows where there are no points for them. -/
theorem eq_of_dotted_eq (hs : '.' ∉ s) (h : dotted t = s) : t = s := by
  induction s generalizing t with
  | nil => exact dotted_eq_nil.mp h
  | cons c s ih =>
    obtain ⟨hc, hs⟩ : '.' ≠ c ∧ '.' ∉ s := by simpa using hs
    rcases dotted_eq_cons h with ⟨u, rfl, hu⟩ | ⟨rfl, -⟩
    · rw [ih hs hu]
    · exact absurd rfl hc

/-- Where a text with points for its arrows can be split, so can the text itself. -/
theorem exists_append_of_dotted (h : dotted t = s ++ u) :
    ∃ v w, t = v ++ w ∧ dotted v = s ∧ dotted w = u := by
  induction s generalizing t with
  | nil => exact ⟨[], t, rfl, rfl, h⟩
  | cons c s ih =>
    rcases dotted_eq_cons h with ⟨t, rfl, ht⟩ | ⟨rfl, t, rfl, ht⟩
    · obtain ⟨v, w, rfl, rfl, hw⟩ := ih ht
      -- an arrow that starts in front of the split ends there
      have harrow : ∀ x, c = '-' → v = '>' :: x → False := by
        rintro x rfl rfl
        rw [List.cons_append, dotted_arrow] at h
        exact absurd (List.cons.inj h).1 (by decide)
      exact ⟨c :: v, w, rfl, dotted.eq_2 c v harrow, hw⟩
    · obtain ⟨v, w, rfl, rfl, hw⟩ := ih ht
      exact ⟨'-' :: '>' :: v, w, rfl, dotted_arrow v, hw⟩

/-- A text without points stands in front of another one whether that has arrows or points. -/
theorem dotted_eq_append (hs : '.' ∉ s) (h : dotted t = s ++ u) :
    ∃ v, t = s ++ v ∧ dotted v = u := by
  obtain ⟨w, v, rfl, hw, hv⟩ := exists_append_of_dotted h
  exact ⟨v, by rw [eq_of_dotted_eq hs hw], hv⟩

/-- There are no arrows without dashes. -/
theorem dotted_append_of_notMem (hs : '-' ∉ s) (t : Text) : dotted (s ++ t) = s ++ dotted t := by
  induction s with
  | nil => rfl
  | cons c s ih =>
    obtain ⟨hc, hs⟩ : '-' ≠ c ∧ '-' ∉ s := by simpa using hs
    rw [List.cons_append, dotted_cons hc.symm, ih hs, List.cons_append]

theorem dotted_of_notMem (hs : '-' ∉ s) : dotted s = s := by
  have h := dotted_append_of_notMem hs []
  rwa [List.append_nil, dotted, List.append_nil] at h

/-- What stands in front of two texts with the same start makes no difference to their
separators. -/
theorem dotted_append_congr (w : Text) (hhead : s.head? = t.head?) (h : dotted s = dotted t) :
    dotted (w ++ s) = dotted (w ++ t) := by
  induction w with
  | nil => exact h
  | cons c w ih =>
    by_cases hc : c = '-'
    · subst hc
      cases w with
      | nil =>
        cases s with
        | nil =>
          obtain rfl : t = [] := by simpa using hhead.symm
          rfl
        | cons x s =>
          obtain ⟨t, rfl⟩ := List.head?_eq_some_iff.mp hhead.symm
          by_cases hx : x = '>'
          · rw [hx, dotted_cons (by decide), dotted_cons (by decide)] at h
            simp only [hx, List.cons_append, List.nil_append, dotted_arrow]
            rw [(List.cons.inj h).2]
          · simp [hx, h]
      | cons x w =>
        by_cases hx : x = '>'
        · rw [hx, List.cons_append, List.cons_append, dotted_cons (by decide),
            dotted_cons (by decide)] at ih
          simp only [hx, List.cons_append, dotted_arrow]
          rw [(List.cons.inj ih).2]
        · simp only [List.cons_append] at ih ⊢
          simp [hx, ih]
    · rw [List.cons_append, List.cons_append, dotted_cons hc, dotted_cons hc, ih]

/-- What stands behind a text goes on with no arrow unless a dash is in front of it. -/
theorem dotted_append (h : s.getLast? = some '-' → t.head? ≠ some '>') :
    dotted (s ++ t) = dotted s ++ dotted t := by
  fun_induction dotted s with
  | case1 s ih =>
    have hlast : s.getLast? = some '-' → t.head? ≠ some '>' := by
      intro hs
      obtain ⟨w, rfl⟩ := List.getLast?_eq_some_iff.mp hs
      exact h (by rw [← List.cons_append, ← List.cons_append, List.getLast?_concat])
    rw [List.cons_append, List.cons_append, dotted_arrow, ih hlast, List.cons_append]
  | case2 c s hc ih =>
    have harrow : ∀ u, c = '-' → s ++ t = '>' :: u → False := by
      rintro u rfl heq
      cases s with
      | nil => exact h rfl (by rw [← List.nil_append t, heq]; rfl)
      | cons x s => exact hc s rfl (by rw [(List.cons.inj heq).1])
    have hlast : s.getLast? = some '-' → t.head? ≠ some '>' := by
      intro hs
      obtain ⟨w, rfl⟩ := List.getLast?_eq_some_iff.mp hs
      exact h (by rw [← List.cons_append, List.getLast?_concat])
    rw [List.cons_append, dotted.eq_2 c _ harrow, ih hlast, List.cons_append]
  | case3 => rfl

/-- The parts of a path do not depend on its separators. -/
theorem parts_dotted (s : Text) : parts (dotted s) = parts s := by
  fun_induction dotted s with
  | case1 s ih => rw [parts, parts, ih]
  | case2 c s hc ih =>
    -- what follows a dash that starts no arrow starts none with it afterwards
    have hdash : ∀ u, c = '-' → dotted s ≠ '>' :: u := by
      intro u hdash hu
      rcases dotted_eq_cons hu with ⟨v, rfl, -⟩ | ⟨hpoint, -⟩
      · exact hc v hdash rfl
      · exact absurd hpoint (by decide)
    by_cases hpoint : c = '.'
    · rw [hpoint, parts, parts, ih]
    · rw [parts.eq_4 c (dotted s) hpoint hdash, parts.eq_4 c s hpoint hc, ih]
  | case3 => rfl

end Path

theorem Context.resolve?_dotted (ctx : Context) (p : Text) :
    ctx.resolve? (Path.dotted p) = ctx.resolve? p := by
  rw [resolve?, resolve?, Path.segments, Path.segments, Path.parts_dotted]

namespace Path

variable {s t p p' : Text}

/-! ## Paths with points for their arrows -/

/-- A path goes on with a name character, perhaps behind a separator. -/
theorem pathTail_iff : PathTail s ↔ s = [] ∨ ∃ sep ∈ ["", ".", "->"].map String.toList, ∃ c t,
    s = sep ++ c :: t ∧ isNameChar c = true ∧ PathTail t := by
  constructor
  · rintro (_ | @⟨w, t, ⟨c, hc, rfl | rfl | rfl⟩, ht⟩)
    · exact .inl rfl
    · exact .inr ⟨[], by simp, c, t, rfl, hc, ht⟩
    · exact .inr ⟨['.'], by simp, c, t, rfl, hc, ht⟩
    · exact .inr ⟨['-', '>'], by simp, c, t, rfl, hc, ht⟩
  · rintro (rfl | ⟨sep, hsep, c, t, rfl, hc, ht⟩)
    · exact .nil
    · have hstep : IsStep (sep ++ [c]) := by
        refine ⟨c, hc, ?_⟩
        have hsep : sep = [] ∨ sep = ['.'] ∨ sep = ['-', '>'] := by simpa using hsep
        rcases hsep with rfl | rfl | rfl <;> simp
      simpa using PathTail.step hstep ht

theorem ne_separator {c : Char} (hc : isNameChar c = true) : c ≠ '.' ∧ c ≠ '-' ∧ c ≠ '>' := by
  refine ⟨?_, ?_, ?_⟩ <;> rintro rfl <;> exact absurd hc (by decide)

theorem pathTail_dotted : PathTail (dotted s) ↔ PathTail s := by
  induction hn : s.length using Nat.strongRecOn generalizing s with
  | ind n ih =>
    subst hn
    rw [pathTail_iff, pathTail_iff (s := s), dotted_eq_nil]
    refine or_congr_right ⟨?_, ?_⟩
    · rintro ⟨sep, hsep, c, t, heq, hc, ht⟩
      obtain ⟨hpoint, hdash, harrow⟩ := ne_separator hc
      -- the name character is there already
      have hname : ∀ {v}, dotted v = c :: t → ∃ u, v = c :: u ∧ dotted u = t := fun hv =>
        (dotted_eq_cons hv).resolve_right fun h => hpoint h.1
      have hsep : sep = [] ∨ sep = ['.'] ∨ sep = ['-', '>'] := by simpa using hsep
      rcases hsep with rfl | rfl | rfl
      · obtain ⟨u, rfl, rfl⟩ := hname heq
        exact ⟨[], by simp, c, u, rfl, hc, (ih u.length (by simp) rfl).mp ht⟩
      · rcases dotted_eq_cons heq with ⟨v, rfl, hv⟩ | ⟨-, v, rfl, hv⟩
        · obtain ⟨u, rfl, rfl⟩ := hname hv
          exact ⟨['.'], by simp, c, u, rfl, hc, (ih u.length (by grind) rfl).mp ht⟩
        · obtain ⟨u, rfl, rfl⟩ := hname hv
          exact ⟨['-', '>'], by simp, c, u, rfl, hc, (ih u.length (by grind) rfl).mp ht⟩
      · rcases dotted_eq_cons heq with ⟨v, rfl, hv⟩ | ⟨h, -⟩
        · rcases dotted_eq_cons hv with ⟨w, rfl, -⟩ | ⟨h, -⟩
          · rw [dotted_arrow] at heq
            exact absurd heq (by simp)
          · exact absurd h (by decide)
        · exact absurd h (by decide)
    · rintro ⟨sep, hsep, c, t, rfl, hc, ht⟩
      obtain ⟨hpoint, hdash, harrow⟩ := ne_separator hc
      have ht : PathTail (dotted t) :=
        (ih t.length (by simp; omega) rfl).mpr ht
      have hsep : sep = [] ∨ sep = ['.'] ∨ sep = ['-', '>'] := by simpa using hsep
      rcases hsep with rfl | rfl | rfl
      · exact ⟨[], by simp, c, dotted t, dotted_cons hdash t, hc, ht⟩
      · refine ⟨['.'], by simp, c, dotted t, ?_, hc, ht⟩
        exact (dotted_cons (by decide) _).trans (congrArg _ (dotted_cons hdash t))
      · refine ⟨['.'], by simp, c, dotted t, ?_, hc, ht⟩
        exact (dotted_arrow _).trans (congrArg _ (dotted_cons hdash t))

theorem isPath_dotted : IsPath (dotted p) ↔ IsPath p := by
  constructor
  · rintro ⟨c, t, heq, hc, ht⟩
    rcases dotted_eq_cons heq with ⟨u, rfl, rfl⟩ | ⟨rfl, -⟩
    · exact ⟨c, u, rfl, hc, pathTail_dotted.mp ht⟩
    · exact absurd hc (by decide)
  · rintro ⟨c, t, rfl, hc, ht⟩
    have hdash : c ≠ '-' := (ne_separator (isNameChar_of_isNameStart hc)).2.1
    exact ⟨c, dotted t, dotted_cons hdash t, hc, pathTail_dotted.mpr ht⟩

/-! ## Two spellings of a path -/

/-- Two spellings of a path: with points for the arrows, they are the same. -/
structure Respelled (p p' : Text) : Prop where
  /-- It is a path. -/
  isPath : IsPath p
  /-- The two differ in separators only. -/
  dotted : dotted p = dotted p'

namespace Respelled

theorem refl (hp : IsPath p) : Respelled p p := ⟨hp, rfl⟩

theorem isPath_right (h : Respelled p p') : IsPath p' :=
  isPath_dotted.mp (h.dotted ▸ isPath_dotted.mpr h.isPath)

theorem symm (h : Respelled p p') : Respelled p' p := ⟨h.isPath_right, h.dotted.symm⟩

/-- Both lead to the same value. -/
theorem resolve? (h : Respelled p p') (ctx : Context) : ctx.resolve? p = ctx.resolve? p' := by
  rw [← ctx.resolve?_dotted p, h.dotted, ctx.resolve?_dotted]

/-- A path without separators is spelled in one way only. -/
theorem eq_of_word (h : Respelled p p') (hp : p.all isNameChar = true) : p' = p := by
  have hseparator : ∀ c, isNameChar c = false → c ∉ p := fun c hc hmem =>
    absurd (List.all_eq_true.mp hp c hmem) (by simp [hc])
  refine eq_of_dotted_eq (hseparator '.' (by decide)) (h.dotted.symm.trans ?_)
  exact dotted_of_notMem (hseparator '-' (by decide))

/-- Both start with the same character. -/
theorem head? (h : Respelled p p') (s s' : Text) : (p ++ s).head? = (p' ++ s').head? := by
  obtain ⟨c, t, rfl, hc, -⟩ := h.isPath
  obtain ⟨hpoint, hdash, -⟩ := ne_separator (isNameChar_of_isNameStart hc)
  rcases dotted_eq_cons (h.dotted.symm.trans (dotted_cons hdash t)) with ⟨u, rfl, -⟩ | ⟨heq, -⟩
  · rfl
  · exact absurd heq hpoint

end Respelled

/-- A path ends with a name character. -/
theorem exists_getLast?_of_isPath (hp : IsPath p) :
    ∃ c, p.getLast? = some c ∧ isNameChar c = true := by
  obtain ⟨c, t, rfl, hc, ht⟩ := hp
  replace hc := isNameChar_of_isNameStart hc
  induction ht generalizing c with
  | nil => exact ⟨c, rfl, hc⟩
  | @step w t hw ht ih =>
    obtain ⟨x, hx, rfl | rfl | rfl⟩ := hw
    · simpa using ih x hx
    · simpa using ih x hx
    · simpa using ih x hx

theorem getLast?_dotted (h : s.getLast? ≠ some '>') : (dotted s).getLast? = s.getLast? := by
  fun_induction dotted s with
  | case1 s ih =>
    cases s with
    | nil => exact absurd rfl h
    | cons c s =>
      have hne : dotted (c :: s) ≠ [] := fun hnil => absurd (dotted_eq_nil.mp hnil) (by simp)
      rw [List.getLast?_cons_of_ne_nil hne, ih (by simpa using h)]
      simp
  | case2 c s hc ih =>
    cases s with
    | nil => rfl
    | cons x s =>
      have hne : dotted (x :: s) ≠ [] := fun hnil => absurd (dotted_eq_nil.mp hnil) (by simp)
      rw [List.getLast?_cons_of_ne_nil hne, ih (by simpa using h)]
      simp
  | case3 => rfl

theorem getLast?_ne_of_isPath (hp : IsPath p) : p.getLast? ≠ some '-' ∧ p.getLast? ≠ some '>' := by
  obtain ⟨c, hc, hname⟩ := exists_getLast?_of_isPath hp
  rw [hc, ne_eq, ne_eq, Option.some.injEq, Option.some.injEq]
  exact (ne_separator hname).2

/-- Both spellings of a path end with the same character. -/
theorem Respelled.getLast? (h : Respelled p p') : p.getLast? = p'.getLast? := by
  rw [← getLast?_dotted (getLast?_ne_of_isPath h.isPath).2, h.dotted,
    getLast?_dotted (getLast?_ne_of_isPath h.isPath_right).2]

end Path

end Stencil
