import Stencil.Proofs.Alphabet.Render
import Stencil.Proofs.Tag.Unclosed

/-!
# Markup comes from the templates

With escaping, no string of a context brings an angle bracket into the output: not by a variable
tag, not by a row of a loop, not by a chain of filters, and not by an object that is written as
data. Keys are not escaped. They are shown where an object is written as data, so a key may bring
one.
-/

namespace Stencil

open ProtectedRegions

/-- The texts without angle brackets. Placeholders are such texts, and are no more than that. -/
def Alphabet.unmarked : Alphabet where
  glyph c := c ≠ '<' ∧ c ≠ '>'
  shelf _ := False
  neutral c h := by
    simp only [isNeutral, Bool.and_eq_true, decide_eq_true_eq] at h
    exact h.1.1
  apart _ h := h.elim

namespace Alphabet

theorem bare_unmarked {s : Text} : unmarked.Bare s ↔ '<' ∉ s ∧ '>' ∉ s := by
  constructor
  · exact fun h => ⟨fun hc => (h _ hc).1 rfl, fun hc => (h _ hc).2 rfl⟩
  · rintro ⟨hleft, hright⟩ c hc
    exact ⟨fun heq => hleft (heq ▸ hc), fun heq => hright (heq ▸ hc)⟩

/-- Escaping leaves no angle bracket. -/
theorem bare_unmarked_escapeHtml (s : Text) : unmarked.Bare (escapeHtml s) := by
  rw [escapeHtml_eq]
  intro c hc
  obtain ⟨x, -, hc⟩ := List.mem_flatMap.mp hc
  unfold htmlEntity at hc
  split at hc
  · exact bare_of_neutral (by decide) c hc
  split at hc
  · exact bare_of_neutral (by decide) c hc
  split at hc
  · exact bare_of_neutral (by decide) c hc
  split at hc
  · exact bare_of_neutral (by decide) c hc
  split at hc
  · exact bare_of_neutral (by decide) c hc
  · rename_i hleft hright _ _
    obtain rfl := List.mem_singleton.mp hc
    exact ⟨hleft, hright⟩

theorem bare_unmarked_placeholder (n : Nat) : unmarked.Bare (placeholder n) := by
  have hwords : ∀ c ∈ placeholderChars, c ≠ '<' ∧ c ≠ '>' := by decide
  exact fun c hc => hwords c (placeholder_subset n hc)

end Alphabet

namespace Engine

open Alphabet

variable {σ : Type} {e : Engine} {disk : Disk} {ctx : Context} {name : String}

/-- The filters that write markup are not admitted. -/
def admitsUnmarked (name : String) (_ : Value) (_ : List String) : Bool := name ∉ Filter.marking

/-- The values of an escaped context show no angle bracket but in their keys. -/
theorem spellsContext_unmarked (hescape : e.autoEscape = true)
    (hkeys : ∀ x ∈ Dict.merge e.defaults ctx,
      x.2.Holds (fun key => '<' ∉ key.toList ∧ '>' ∉ key.toList) fun _ => True) :
    unmarked.SpellsContext (e.effectiveContext ctx) := by
  have hescaped : ∀ s : String, True →
      unmarked.Spelled (String.ofList (escapeHtml s.toList)).toList := by
    intro s _
    rw [String.toList_ofList]
    exact (bare_unmarked_escapeHtml _).spelled
  have hholds : ∀ x ∈ e.effectiveContext ctx, x.2.Holds (fun key => '<' ∉ key.toList ∧
      '>' ∉ key.toList)
      fun s => unmarked.Spelled s.toList :=
    forall_effectiveContext hkeys hescaped fun h => absurd (hescape.symm.trans h) (by simp)
  exact fun x hx => (hholds x hx).mono (fun key hkey => (bare_unmarked.mpr hkey).spelled)
    fun _ hs => hs

/-- Without the filters that write markup, everything is spelled without it. -/
theorem fits_unmarked (hescape : e.autoEscape = true) (hplugins : e.plugins = [])
    (hfilters : ∀ x ∈ e.filters, x ∈ Filter.Registry.builtin)
    (hsources : ∀ name source, Loader.loadFirst disk e.allLoaders name = .ok source →
      '<' ∉ source ∧ '>' ∉ source)
    (hkeys : ∀ x ∈ Dict.merge e.defaults ctx,
      x.2.Holds (fun key => '<' ∉ key.toList ∧ '>' ∉ key.toList) fun _ => True) :
    unmarked.Fits (e.restrict admitsUnmarked) disk (e.effectiveContext ctx) where
  plugins := hplugins
  spares := fun _ _ _ hn => hn.elim
  filters P := by
    refine suits_restrict fun x hx => ⟨opener_not_mem_builtin (hfilters x hx), ?_⟩
    intro v params w hv hparams hadmitted
    have hbare : ∀ {s}, (unmarked.only P).Spelled s → (unmarked.only P).Bare s := fun hs =>
      hs.bare_of_no_shelf fun n hn => hn.1
    refine keeps_builtin x (hfilters x hx) hv hparams ⟨fun hmarking => ?_, fun _ => ?_⟩
    · exact absurd hmarking (by simpa [admitsUnmarked] using hadmitted)
    · exact ⟨hbare hv.text, fun p hp => hbare (hparams p hp)⟩
  context x hx := (spellsContext_unmarked hescape hkeys x hx).mono (fun _ hc => hc)
    fun _ hn => hn.elim
  shelves n := .inr (bare_unmarked_placeholder n)
  sources name source hload := bare_outside (bare_unmarked.mpr (hsources name source hload))

/-- **Escaping confines markup to the templates**: with escaping, with built-in filters of which
those that write markup make no difference, with sources without angle brackets, and with a context
none of whose objects has one in a key, no output has one. -/
theorem render_unmarked {store : CacheStore σ} {s : σ} (hescape : e.autoEscape = true)
    (hplugins : e.plugins = []) (hfilters : ∀ x ∈ e.filters, x ∈ Filter.Registry.builtin)
    (hsources : ∀ name source, Loader.loadFirst disk e.allLoaders name = .ok source →
      '<' ∉ source ∧ '>' ∉ source)
    (hkeys : ∀ x ∈ Dict.merge e.defaults ctx,
      x.2.Holds (fun key => '<' ∉ key.toList ∧ '>' ∉ key.toList) fun _ => True)
    (hmarking : ((e.restrict admitsUnmarked).renderFresh disk name (e.effectiveContext ctx)).1 =
      (e.renderFresh disk name (e.effectiveContext ctx)).1)
    (hkept : ∀ key content, e.key? name (e.effectiveContext ctx) = some key →
      store.lookup? s key = some content → '<' ∉ content ∧ '>' ∉ content)
    {output : Text} (houtput : (e.render disk store s name ctx).outcome = .ok output) :
    '<' ∉ output ∧ '>' ∉ output := by
  have hfits := fits_unmarked hescape hplugins hfilters hsources hkeys
  rcases fresh_or_kept houtput with hfresh | ⟨key, hkey, hcontent⟩
  · obtain ⟨text, regions, hdraft, rfl⟩ := renderFresh_eq_ok hfits.plugins (hmarking.trans hfresh)
    have htext := (hfits.draft (P := fun _ => True) (fun _ _ _ _ _ => .inl trivial) hdraft
      ).resolveConditionals hfits.spares.only (e.effectiveContext ctx)
    refine bare_unmarked.mp fun c hc => ?_
    rcases mem_restore hc with hc | ⟨content, hcontent, hc⟩
    · exact htext.bare_of_no_shelf (fun n hn => hn.1) c hc
    · obtain ⟨name, source, hload, hsub⟩ := subset_of_mem_draft hdraft content hcontent
      exact bare_unmarked.mpr (hsources name source hload) c (hsub hc)
  · exact hkept key output hkey hcontent

/-- An engine with one template that escapes. -/
def escaping (source : Text) : Engine := { single source with autoEscape := true }

/-- A list of strings with markup, written as data. -/
theorem render_unmarked_list :
    let ctx : Context := [("x", .list [.str "<b>"])]
    ((escaping "\x7bx|trim\x7d".toList).render ⟨[], [], none⟩ .memory [] "t" ctx).outcome =
        .ok "[\"&lt;b&gt;\"]".toList ∧
      '<' ∉ "[\"&lt;b&gt;\"]".toList ∧ '>' ∉ "[\"&lt;b&gt;\"]".toList := by
  intro ctx
  have hfresh : ∀ e ∈ [escaping "\x7bx|trim\x7d".toList,
      (escaping "\x7bx|trim\x7d".toList).restrict admitsUnmarked],
      (e.renderFresh ⟨[], [], none⟩ "t" (e.effectiveContext ctx)).1 =
      .ok "[\"&lt;b&gt;\"]".toList := by
    refine List.forall_mem_cons.mpr ⟨?_, List.forall_mem_singleton.mpr ?_⟩
    · exact renderFresh_flat rfl rfl (by decide +kernel) (by decide +kernel)
    · exact renderFresh_flat rfl rfl (by decide +kernel) (by decide +kernel)
  have houtcome :
      ((escaping "\x7bx|trim\x7d".toList).render ⟨[], [], none⟩ .memory [] "t" ctx).outcome =
      .ok "[\"&lt;b&gt;\"]".toList := by
    rw [outcome_uncached rfl _ _ (by decide)]
    exact hfresh _ (by simp)
  refine ⟨houtcome, render_unmarked rfl rfl (fun x hx => hx) (fun name source hload => ?_) ?_
    ((hfresh _ (by simp)).trans (hfresh _ (by simp)).symm) (fun key content hkey => ?_) houtcome⟩
  · obtain rfl := loadFirst_single hload
    decide
  · intro x hx
    obtain rfl := List.mem_singleton.mp hx
    exact .list (List.forall_mem_singleton.mpr (.str trivial))
  · exact absurd hkey (by simp [Engine.key?, escaping, single])

/-- A key of an object that is written as data is not escaped. -/
theorem render_marked_key :
    ((escaping "\x7bx|trim\x7d".toList).render ⟨[], [], none⟩ .memory [] "t"
      [("x", .object [("<b>", .int 1)])]).outcome = .ok "\x7b\"<b>\":1\x7d".toList := by
  rw [outcome_uncached rfl _ _ (by decide)]
  exact renderFresh_flat rfl rfl (by decide +kernel) (by decide +kernel)

end Engine

end Stencil
