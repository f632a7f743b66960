import Stencil.Proofs.Alphabet.Render
import Stencil.Proofs.Tag.Unclosed

/-!
# No placeholder leaks

Between the time when protected regions are put aside and the time when they are put back, every
pass copies, drops or moves whole placeholders only. So all of them are put back, and no private
character reaches the output. A placeholder is taken apart only by a filter that takes the text or
the parameter that it stands in apart, or by a delimiter with one of its characters.
-/

namespace Stencil

open ProtectedRegions

/-- A value whose strings and keys have no private characters. -/
def Value.Ordinary (v : Value) : Prop :=
  v.Holds (fun key => Text.Ordinary key.toList) fun s => Text.Ordinary s.toList

/-- A filter is plain if it writes no private characters where it is shown none. -/
def Filter.Plain (f : Filter) : Prop :=
  ∀ {v params w}, Text.Ordinary v.text → (∀ p ∈ params, Text.Ordinary p.toList) →
    f v params = .ok w → w.Ordinary

namespace Engine

open Alphabet

variable {σ : Type} {e : Engine} {disk : Disk} {ctx : Context} {name : String}

/-- Filters that take texts apart, and custom ones, are not admitted to texts and parameters with a
placeholder. -/
def admitsWhole (custom : List String) (name : String) (v : Value) (params : List String) : Bool :=
  name ∉ Filter.fragile ++ custom || (opener ∉ v.text && params.all fun p => opener ∉ p.toList)

/-- The filters of an engine are built in, or are custom ones that are plain. -/
def FiltersPlainly (e : Engine) (custom : List String) : Prop :=
  ∀ x ∈ e.filters, x ∈ Filter.Registry.builtin ∨ x.1 ∈ custom ∧ opener ∉ x.1.toList ∧
    Filter.Plain x.2

/-- Filters that are only given what is admitted keep placeholders whole. -/
theorem suits_admitsWhole {custom : List String} (hfilters : e.FiltersPlainly custom)
    (P : Nat → Prop) :
    (ordinary.only P).Suits (e.restrict (admitsWhole custom)).filters := by
  refine suits_restrict fun x hx => ?_
  have hwhole : ∀ {v : Value} {params : List String}, x.1 ∈ Filter.fragile ++ custom →
      (ordinary.only P).SpellsValue v → (∀ p ∈ params, (ordinary.only P).Spelled p.toList) →
      admitsWhole custom x.1 v params = true →
      (ordinary.only P).Bare v.text ∧ ∀ p ∈ params, (ordinary.only P).Bare p.toList := by
    intro v params hname hv hparams hadmitted
    simp only [admitsWhole, Bool.or_eq_true, Bool.and_eq_true, decide_eq_true_eq, List.all_eq_true]
      at hadmitted
    rcases hadmitted with hnot | ⟨htext, hall⟩
    · exact absurd hname hnot
    · exact ⟨hv.text.bare htext, fun p hp => (hparams p hp).bare (hall p hp)⟩
  rcases hfilters x hx with hbuiltin | ⟨hcustom, hname, hplain⟩
  · refine ⟨opener_not_mem_builtin hbuiltin, fun hv hparams hadmitted => ?_⟩
    refine keeps_builtin x hbuiltin hv hparams ⟨fun _ => ?_, fun hfragile => ?_⟩
    · have hangles : ∀ c ∈ ['<', '>'], c ≠ opener ∧ c ≠ closer := by decide
      exact ⟨hangles _ (by simp), hangles _ (by simp)⟩
    · exact hwhole (List.mem_append_left _ hfragile) hv hparams hadmitted
  · refine ⟨hname, fun hv hparams hadmitted hw => ?_⟩
    obtain ⟨htext, hall⟩ := hwhole (List.mem_append_right _ hcustom) hv hparams hadmitted
    have hspelled : ∀ s : String, Text.Ordinary s.toList → (ordinary.only P).Spelled s.toList :=
      fun s hs => Bare.spelled (bare_ordinary.mpr hs)
    exact (hplain (bare_ordinary.mp htext) (fun p hp => bare_ordinary.mp (hall p hp)) hw).mono
      (fun key hkey => hspelled key hkey) fun s hs => hspelled s hs

theorem spellsContext_ordinary (hcontext : ∀ x ∈ Dict.merge e.defaults ctx, x.2.Ordinary)
    (P : Nat → Prop) : (ordinary.only P).SpellsContext (e.effectiveContext ctx) := by
  have hspelled : ∀ s : Text, s.Ordinary → (ordinary.only P).Spelled s := fun s hs =>
    Bare.spelled (A := ordinary.only P) (bare_ordinary.mpr hs)
  have hescaped : ∀ s : String, Text.Ordinary s.toList →
      (ordinary.only P).Spelled (String.ofList (escapeHtml s.toList)).toList := by
    intro s hs
    rw [String.toList_ofList]
    exact (hspelled _ hs).escapeHtml
  have hholds : ∀ x ∈ e.effectiveContext ctx, x.2.Holds (fun key => Text.Ordinary key.toList)
      fun s => (ordinary.only P).Spelled s.toList :=
    forall_effectiveContext hcontext hescaped fun _ s hs => hspelled _ hs
  exact fun x hx => (hholds x hx).mono (fun key hkey => hspelled _ hkey) fun _ hs => hs

/-- Everything is spelled with whole placeholders. -/
theorem fits_ordinary (hplugins : e.plugins = [])
    (hdelimiters : ∀ c ∈ e.delimiters.left ++ e.delimiters.right, isPlaceholderChar c = false)
    {custom : List String} (hfilters : e.FiltersPlainly custom)
    (hsources : ∀ name source, Loader.loadFirst disk e.allLoaders name = .ok source →
      ∀ w ∈ outside e.delimiters source, Text.Ordinary w)
    (hcontext : ∀ x ∈ Dict.merge e.defaults ctx, x.2.Ordinary) :
    ordinary.Fits (e.restrict (admitsWhole custom)) disk (e.effectiveContext ctx) where
  plugins := hplugins
  spares c hc _ _ := hdelimiters c hc
  filters := suits_admitsWhole hfilters
  context := spellsContext_ordinary hcontext _
  shelves _ := .inl trivial
  sources name source hload w hw := bare_ordinary.mpr (hsources name source hload w hw)

/-- **No placeholder leaks**: with built-in filters that need not take a placeholder apart, with
delimiters that have none of its characters, and with sources and a context without private
characters, no output has one, wherever protected regions stand. -/
theorem render_ordinary {store : CacheStore σ} {s : σ} (hplugins : e.plugins = [])
    (hdelimiters : ∀ c ∈ e.delimiters.left ++ e.delimiters.right, isPlaceholderChar c = false)
    (hfilters : ∀ x ∈ e.filters, x ∈ Filter.Registry.builtin)
    (hsources : ∀ name source, Loader.loadFirst disk e.allLoaders name = .ok source →
      Text.Ordinary source)
    (hcontext : ∀ x ∈ Dict.merge e.defaults ctx, x.2.Ordinary)
    (hwhole : ((e.restrict (admitsWhole [])).renderFresh disk name (e.effectiveContext ctx)).1 =
      (e.renderFresh disk name (e.effectiveContext ctx)).1)
    (hkept : ∀ key content, e.key? name (e.effectiveContext ctx) = some key →
      store.lookup? s key = some content → Text.Ordinary content)
    {output : Text} (houtput : (e.render disk store s name ctx).outcome = .ok output) :
    Text.Ordinary output := by
  have hbuiltin : e.FiltersPlainly [] := fun x hx => .inl (hfilters x hx)
  have hfits := fits_ordinary hplugins hdelimiters hbuiltin (fun name source hload w hw =>
    bare_ordinary.mp (bare_outside (bare_ordinary.mpr (hsources name source hload)) w hw)) hcontext
  rcases fresh_or_kept houtput with hfresh | ⟨key, hkey, hcontent⟩
  · obtain ⟨text, regions, hdraft, rfl⟩ := renderFresh_eq_ok hfits.plugins (hwhole.trans hfresh)
    have htext := (hfits.draft (P := fun _ => True) (fun _ _ _ _ _ => .inl trivial) hdraft
      ).resolveConditionals hfits.spares.only (e.effectiveContext ctx)
    refine bare_ordinary.mp (htext.bare_restore (fun h => h.1 rfl) (fun n hn => hn.2.1) ?_)
    intro content hcontent
    obtain ⟨name, source, hload, hsub⟩ := subset_of_mem_draft hdraft content hcontent
    exact Bare.of_subset (bare_ordinary.mpr (hsources name source hload)) hsub
  · exact hkept key output hkey hcontent

/-- A region in a parameter: the filter that gets it hands it on whole. -/
theorem render_ordinary_parameter :
    let source :=
      "\x7bx|default:\x7bnoparse\x7d\x7by\x7d\x7b/noparse\x7d|trim\x7d\x7by|upper\x7d".toList
    let ctx : Context := [("x", .null), ("y", .str "a")]
    ((single source).render ⟨[], [], none⟩ .memory [] "t" ctx).outcome = .ok "\x7by\x7dA".toList ∧
      Text.Ordinary "\x7by\x7dA".toList := by
  intro source ctx
  have hfresh : ∀ e ∈ [single source, (single source).restrict (admitsWhole [])],
      (e.renderFresh ⟨[], [], none⟩ "t" (e.effectiveContext ctx)).1 = .ok "\x7by\x7dA".toList := by
    refine List.forall_mem_cons.mpr ⟨?_, List.forall_mem_singleton.mpr ?_⟩
    · exact renderFresh_flat rfl rfl (by decide +kernel) (by decide +kernel)
    · exact renderFresh_flat rfl rfl (by decide +kernel) (by decide +kernel)
  have houtcome : ((single source).render ⟨[], [], none⟩ .memory [] "t" ctx).outcome =
      .ok "\x7by\x7dA".toList := by
    rw [outcome_uncached rfl _ _ (by decide)]
    exact hfresh _ (by simp)
  have hordinary : Text.Ordinary source := ⟨by decide, by decide⟩
  refine ⟨houtcome, render_ordinary rfl (by decide) (fun x hx => hx) (fun name s hload => ?_) ?_
    ((hfresh _ (by simp)).trans (hfresh _ (by simp)).symm) (fun key content hkey => ?_) houtcome⟩
  · obtain rfl := loadFirst_single hload
    exact hordinary
  · refine List.forall_mem_cons.mpr ⟨.null, List.forall_mem_singleton.mpr (.str ⟨?_, ?_⟩)⟩
    · decide
    · decide
  · exact absurd hkey (by simp [Engine.key?, single])

/-- A filter that takes the placeholder of a region apart. -/
theorem render_reversed_placeholder :
    let source := "\x7bx|default:\x7bnoparse\x7da\x7b/noparse\x7d|reverse\x7d".toList
    Text.Ordinary source ∧ ¬ Text.Ordinary (placeholder 0).reverse ∧
      ((single source).render ⟨[], [], none⟩ .memory [] "t" [("x", .null)]).outcome =
        .ok (placeholder 0).reverse := by
  intro source
  refine ⟨⟨by decide, by decide⟩, fun h => h.1 (by simp [placeholder_eq]), ?_⟩
  rw [outcome_uncached rfl _ _ (by decide)]
  exact renderFresh_flat rfl rfl (by decide +kernel) (by decide +kernel)

end Engine

end Stencil
