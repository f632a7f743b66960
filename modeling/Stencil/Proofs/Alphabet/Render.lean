import Stencil.Proofs.Alphabet.Composition
import Stencil.Proofs.Composition.Twins

/-!
# How renders spell

Regions are put back into a text that is spelled with their placeholders. If only placeholders have
openers, each is replaced by its own region, and by no other: so the output is bare if the regions
are, and it does not depend on regions whose placeholders are not in the text.
-/

namespace Stencil

open ProtectedRegions

namespace ProtectedRegions

/-- What is put back comes from the text and from the regions. -/
theorem mem_restore {regions : ProtectedRegions} {s : Text} {c : Char} (h : c ∈ regions.restore s) :
    c ∈ s ∨ ∃ content ∈ regions, c ∈ content := by
  have hfold : ∀ (rest : List (Text × Nat)) {s : Text},
      c ∈ rest.foldl (fun s x => s.replace (placeholder x.2) x.1) s → c ∈ s ∨
      ∃ x ∈ rest, c ∈ x.1 := by
    intro rest
    induction rest with
    | nil => exact fun h => .inl h
    | cons x rest ih =>
      intro s h
      rcases ih h with h | ⟨y, hy, hc⟩
      · exact (Text.mem_replaceFrom h).imp_right fun hc => ⟨x, by simp, hc⟩
      · exact .inr ⟨y, by simp [hy], hc⟩
  refine (hfold _ h).imp_right fun ⟨x, hx, hc⟩ => ⟨x.1, ?_, hc⟩
  exact (List.mem_zipIdx' hx).2 ▸ List.getElem_mem _

end ProtectedRegions

namespace Alphabet

variable {A : Alphabet} {P : Nat → Prop} {s : Text} {regions regions' : ProtectedRegions}

/-- A spelled text is a row of glyphs and placeholders. -/
theorem Spelled.exists_atoms (h : A.Spelled s) :
    ∃ as : List (Atom Char), s = shown (fun c => [c]) placeholder as ∧
      (∀ c, .glyph c ∈ as → A.glyph c) ∧ ∀ n, .shelved n ∈ as → A.shelf n := by
  induction h with
  | nil => exact ⟨[], rfl, by simp, by simp⟩
  | @glyph c s hc _ ih =>
    obtain ⟨as, rfl, hglyphs, hshelves⟩ := ih
    refine ⟨.glyph c :: as, rfl, fun x hx => ?_, fun n hn => hshelves n (by simpa using hn)⟩
    rcases List.mem_cons.mp hx with heq | hx
    · rwa [Atom.glyph.inj heq]
    · exact hglyphs x hx
  | @shelved n s hn _ ih =>
    obtain ⟨as, rfl, hglyphs, hshelves⟩ := ih
    refine ⟨.shelved n :: as, rfl, fun x hx => hglyphs x (by simpa using hx), fun m hm => ?_⟩
    rcases List.mem_cons.mp hm with heq | hm
    · rwa [Atom.shelved.inj heq]
    · exact hshelves m hm

/-- Putting bare regions back for all placeholders leaves a bare text. -/
theorem Spelled.bare_restore (h : A.Spelled s) (hopener : ¬ A.glyph opener)
    (hshelf : ∀ n, A.shelf n → n < regions.length)
    (hregions : ∀ content ∈ regions, A.Bare content) :
    A.Bare (regions.restore s) := by
  have hfree : ∀ {t : Text}, A.Bare t → opener ∉ t := fun ht hmem => hopener (ht _ hmem)
  obtain ⟨as, rfl, hglyphs, hshelves⟩ := h.exists_atoms
  rw [restore_shown (fun c hc => hfree fun x hx => List.mem_singleton.mp hx ▸ hglyphs c hc)
    fun content hc => hfree (hregions content hc)]
  intro c hc
  obtain ⟨atom, hmem, hc⟩ := List.mem_flatMap.mp hc
  cases atom with
  | glyph x => exact List.mem_singleton.mp hc ▸ hglyphs x hmem
  | shelved n =>
    dsimp only at hc
    rw [List.getElem?_eq_getElem (hshelf n (hshelves n hmem))] at hc
    exact hregions _ (List.getElem_mem _) c hc

/-- Regions whose placeholders are not in a text may be any. -/
theorem Spelled.restore_congr (h : A.Spelled s) (hopener : ¬ A.glyph opener)
    (hagree : ∀ n, A.shelf n → regions[n]? = regions'[n]?)
    (hregions : ∀ n content, A.shelf n → regions[n]? = some content → opener ∉ content) :
    regions.restore s = regions'.restore s := by
  obtain ⟨as, rfl, hglyphs, hshelves⟩ := h.exists_atoms
  have hw : ∀ c, .glyph c ∈ as → opener ∉ [c] := fun c hc hmem =>
    hopener (List.mem_singleton.mp hmem ▸ hglyphs c hc)
  rw [restore_shown_of_mem hw fun n content hn => hregions n content (hshelves n hn),
    restore_shown_of_mem hw fun n content hn hc => hregions n content (hshelves n hn)
      ((hagree n (hshelves n hn)).trans hc)]
  unfold shown
  refine List.flatMap_congr fun atom hmem => ?_
  cases atom with
  | glyph c => rfl
  | shelved n =>
    dsimp only
    rw [hagree n (hshelves n hmem)]

/-- A placeholder that occurs in a spelled text is one of its alphabet. -/
theorem Spelled.shelf_of_occurs (h : A.Spelled s) (hopener : ¬ A.glyph opener) {n p : Nat}
    (hp : Occurs n s p) : A.shelf n := by
  induction h generalizing p with
  | nil =>
    have := hp.length_le
    simp [placeholder_eq] at this
  | @glyph c s hc _ ih =>
    cases p with
    | zero =>
      unfold Occurs at hp
      rw [List.drop_zero, placeholder_eq, List.cons_prefix_cons] at hp
      exact absurd (hp.1 ▸ hc) hopener
    | succ p => exact ih hp
  | @shelved m s hm _ ih =>
    by_cases hlt : p < (placeholder m).length
    · unfold Occurs at hp
      cases p with
      | zero =>
        obtain rfl := placeholder_unique hp
        exact hm
      | succ p =>
        -- no opener stands inside a placeholder
        rw [placeholder_eq n, placeholder_eq m, List.cons_append, List.drop_succ_cons,
          List.drop_append_of_le_length (by simpa [placeholder_eq] using Nat.le_of_lt hlt)] at hp
        obtain ⟨c, rest, hrest⟩ := List.exists_cons_of_ne_nil
          (show (placeholderRest m).drop p ≠ [] by simpa [placeholder_eq] using hlt)
        rw [hrest, List.cons_append, List.cons_prefix_cons] at hp
        have hmem : c ∈ placeholderRest m := List.mem_of_mem_drop (hrest ▸ List.mem_cons_self)
        exact absurd (hp.1 ▸ hmem) (opener_not_mem_placeholderRest m)
    · obtain ⟨q, rfl⟩ := Nat.exists_eq_add_of_le (Nat.le_of_not_lt hlt)
      exact ih (occurs_behind.mp hp)

end Alphabet

namespace Engine

/-- An engine whose filters refuse what is not admitted. -/
def restrict (e : Engine) (admits : String → Value → List String → Bool) : Engine :=
  { e with filters := e.filters.restrict admits }

/-- What holds of the values of a render's context, given what escaping makes of their strings. -/
theorem forall_effectiveContext {e : Engine} {ctx : Context} {key text text' : String → Prop}
    (h : ∀ x ∈ Dict.merge e.defaults ctx, x.2.Holds key text)
    (hescaped : ∀ s, text s → text' (String.ofList (escapeHtml s.toList)))
    (hplain : e.autoEscape = false → ∀ s, text s → text' s) :
    ∀ x ∈ e.effectiveContext ctx, x.2.Holds key text' := by
  intro x hx
  unfold effectiveContext at hx
  dsimp only at hx
  split at hx
  · rw [Context.escaped, Value.escapedFields_eq] at hx
    obtain ⟨y, hy, rfl⟩ := List.mem_map.mp hx
    exact (h y hy).escaped hescaped
  · rename_i hescape
    exact (h x hx).mono (fun _ hk => hk) (hplain (by simpa using hescape))

/-- The regions that a render puts aside stand in the sources. -/
theorem subset_of_mem_draft {e : Engine} {disk : Disk} {ctx : Context} {name : String} {t : Text}
    {regions : ProtectedRegions} (hdraft : e.draft disk name ctx = .ok (t, regions)) :
    ∀ content ∈ regions, ∃ name source, Loader.loadFirst disk e.allLoaders name = .ok source ∧
      content ⊆ source := by
  unfold draft at hdraft
  split at hdraft
  · rename_i composed p hrun
    obtain ⟨rfl, rfl⟩ := Prod.mk.inj (Except.ok.inj hdraft)
    intro content hcontent
    obtain ⟨n, hn⟩ := List.mem_iff_getElem?.mp hcontent
    rcases putsOwned e disk ctx _ hrun n content hn with hnone | ⟨v, -, source, hload, i, -, hi⟩
    · exact absurd hnone (by simp)
    · exact ⟨v.name, source, hload, subset_of_mem_inside (List.mem_of_getElem? hi)⟩
  · exact absurd hdraft (by simp)

end Engine

end Stencil
