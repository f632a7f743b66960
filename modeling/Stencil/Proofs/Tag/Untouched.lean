import Stencil.Proofs.Tag.Balance
import Stencil.Proofs.Tag.Unclosed

/-!
# Texts with nothing to do

A text may hold any number of tags that nothing is done about: closing tags without an opening tag
and the other way round, tags of a value that there is none of, and stretches that are almost a tag.
Every pass puts the text together again from the stretches between the tags it knows, and gives
back what it was given.
-/

namespace Stencil

/-! ## Edits that change nothing -/

namespace Text

/-- Putting every tag into its own place changes nothing. -/
theorem replaceTags_self {α : Type} {d : Delimiters} {r : Recognizer α}
    (hr : d.Encloses r) {s : Text}
    {f : Tag α → Text} (hf : ∀ t ∈ Tag.scan r s, f t = t.lexeme) : s.replaceTags r f = s := by
  have hself : ∀ e ∈ (Tag.scan r s).map fun t => (⟨t.start, t.stop, f t⟩ : Edit),
      s.drop e.start = e.replacement ++ s.drop e.stop := by
    intro e he
    obtain ⟨t, ht, rfl⟩ := List.mem_map.mp he
    obtain ⟨body, rest, -, hdrop⟩ := hr _ _ _ (Tag.stands_of_mem_scan ht)
    have hrest : s.drop t.stop = rest := by
      rw [Tag.stop, ← List.drop_drop, hdrop, List.drop_left]
    rw [hf t ht, hrest]
    exact hdrop
  exact spliceFrom_self (Tag.ordered_scan r s f) hself

end Text

/-! ## Passes with nothing to do -/

variable {d : Delimiters} {s : Text}

namespace Blocks

/-- No block of a text is closed. -/
def Unclosed (d : Delimiters) (s : Text) : Prop :=
  ∀ t ∈ Tag.scan d.blockOpening s,
    ¬ Tag.Closed (d.blockOpening.map fun _ => ()) d.blockClosing () s t.stop

theorem Unclosed.outermost_eq_nil (h : Unclosed d s) : outermost d s = [] :=
  Tag.outermost_eq_nil_of_forall (fun t ht => Tag.closing?_eq_none_of_not_closed (h t ht)) 0

end Blocks

namespace Loop

/-- No loop of a text is closed, neither a bound nor a legacy one. -/
structure Unclosed (d : Delimiters) (s : Text) : Prop where
  /-- No bound loop is. -/
  bound : ∀ t ∈ Tag.scan d.loopOpening s,
    ¬ Tag.Closed (d.loopOpening.map (·.path)) d.loopClosing t.content.path s t.stop
  /-- No legacy loop is. -/
  legacy : ∀ t ∈ Tag.scan d.legacyOpening s,
    ¬ Tag.Closed (d.legacyOpening.map (·.path)) d.legacyClosing t.content.path s t.stop

theorem Unclosed.closing?_eq_none (h : Unclosed d s) {t : Tag LoopHead} (ht : t ∈ openings d s) :
    closing? d s t = none := by
  simp only [openings, List.mem_merge, List.mem_filter] at ht
  rcases ht with ht | ⟨ht, -⟩
  · obtain ⟨⟨name, path, _⟩, -, heq⟩ := Recognizer.map_eq_some.mp (Tag.stands_of_mem_scan ht)
    have hform : t.content.form = .bound (String.ofList name) := congrArg LoopHead.form heq.symm
    rw [closing?, hform]
    exact Tag.closing?_eq_none_of_not_closed (h.bound t ht)
  · obtain ⟨⟨path, _⟩, -, heq⟩ := Recognizer.map_eq_some.mp (Tag.stands_of_mem_scan ht)
    have hform : t.content.form = .legacy := congrArg LoopHead.form heq.symm
    rw [closing?, hform]
    exact Tag.closing?_eq_none_of_not_closed (h.legacy t ht)

theorem Unclosed.outermost_eq_nil (h : Unclosed d s) : outermost d s = [] :=
  Tag.outermost_eq_nil_of_forall (fun _ ht => h.closing?_eq_none ht) 0

end Loop

/-- Conditionals that nothing closes stay. -/
theorem resolveConditionals_unclosed (h : Choice.Unclosed (Tag.scan d.conditionalTag s))
    (ctx : Context) : resolveConditionals d ctx s = s := by
  rw [resolveConditionals]
  split
  · rename_i hs
    rw [hs]
  · rw [h.ofTags_eq_nil]
    rfl

namespace Substitution

/-- A variable tag stays: its path is a reserved word, leads nowhere, or leads to a list or object
that no chain of filters turns into a scalar. -/
def Leaves (σ : Substitution) (ctx : Context) (v : Variable) : Prop :=
  v.path ∈ reservedWords ∨ ctx.resolve? v.path = none ∨
    ∃ value ∈ ctx.resolve? v.path, value.isScalar = false ∧
      (σ.filtered v.chain? value).isScalar = false

instance (σ : Substitution) (ctx : Context) (v : Variable) : Decidable (σ.Leaves ctx v) :=
  inferInstanceAs (Decidable (_ ∨ _))

variable {σ : Substitution} {ctx : Context}

theorem Leaves.text?_eq_none {v : Variable} (h : σ.Leaves ctx v)
    (hclear : σ.clearUnresolved = false) :
    σ.text? ctx v = none := by
  unfold text?
  rcases h with hreserved | hnone | ⟨value, hvalue, -, hfiltered⟩
  · simp [hreserved]
  · simp [hnone, hclear]
  · simp [Option.mem_def.mp hvalue, hfiltered]

theorem apply_eq_self (hclear : σ.clearUnresolved = false)
    (h : ∀ t ∈ Tag.scan σ.delimiters.variableTag s, σ.Leaves ctx t.content) :
    σ.apply s ctx = s := by
  refine Text.replaceTags_self σ.delimiters.encloses_variableTag fun t ht => ?_
  rw [(h t ht).text?_eq_none hclear]
  rfl

end Substitution

/-! ## Rendering such a text -/

/-- There is nothing to do about a text: it has no protected region and names no other template, no
block, loop or conditional in it is closed, and every variable tag stays. -/
structure Engine.Untouched (e : Engine) (ctx : Context) (s : Text) : Prop where
  /-- No region is protected. -/
  region : Tag.scan e.delimiters.protectedRegion s = []
  /-- No template is included. -/
  included : Tag.scan e.delimiters.includeTag s = []
  /-- No template is extended. -/
  base : Tag.scan e.delimiters.baseTag s = []
  /-- No block is closed. -/
  block : Blocks.Unclosed e.delimiters s
  /-- No loop is closed. -/
  loop : Loop.Unclosed e.delimiters s
  /-- No conditional is closed. -/
  conditional : Choice.Unclosed (Tag.scan e.delimiters.conditionalTag s)
  /-- Every variable tag stays. -/
  value : ∀ t ∈ Tag.scan e.delimiters.variableTag s, e.substitution.Leaves ctx t.content

namespace Engine

variable {e : Engine} {disk : Disk} {ctx : Context}

theorem Untouched.process_eq_self (h : e.Untouched ctx s) (hplugins : e.plugins = [])
    (hclear : e.clearUnresolved = false) (isDocument : Bool) : e.process ctx isDocument s = s := by
  have hvalues : e.substitution.apply s ctx = s := Substitution.apply_eq_self hclear h.value
  rw [process_eq hplugins, expandLoops_loopless h.loop.outermost_eq_nil, hvalues,
    resolveConditionals_unclosed h.conditional]

/-- A text with nothing to do is rendered as it is, whatever tags it holds. -/
theorem render_untouched {σ : Type} (hcache : e.cacheEnabled = false) (hplugins : e.plugins = [])
    (hclear : e.clearUnresolved = false) {name : String} (hname : name.toList.all isBlank = false)
    (hload : Loader.loadFirst disk e.allLoaders name = .ok s) (store : CacheStore σ) (state : σ)
    (h : e.Untouched (e.effectiveContext ctx) s) :
    (e.render disk store state name ctx).outcome = .ok s := by
  obtain ⟨n, hn⟩ := e.exists_depthBound disk
  have hextract : ProtectedRegions.extract e.delimiters [] s = (s, []) :=
    ProtectedRegions.extract_unprotected h.region []
  have hcompose := compose_blockless (p := {}) (List.not_mem_nil) hload hextract h.included h.base
    h.block.outermost_eq_nil (e.effectiveContext ctx) (n + 1) []
  rw [← hn] at hcompose
  rw [outcome_uncached hcache store state hname, renderFresh_ok hcompose,
    h.process_eq_self hplugins hclear]
  rfl

/-- Stray, misplaced and half-open tags. -/
def debris : Text :=
  "\x7b/x\x7d\x7bx|upper\x7d\x7bendif\x7d\x7bif a\x7d\x7belse\x7d".toList ++
    "\x7bblock b\x7d\x7bx in xs\x7d\x7bxs\x7d\x7b\x7b".toList

/-- They stay as they are. -/
theorem render_untouched_debris :
    ((single debris).render ⟨[], [], none⟩ .memory [] "t" [("xs", .list [.int 1])]).outcome =
      .ok debris := by
  have hblock : ∀ t ∈ Tag.scan Delimiters.braces.blockOpening debris,
      ∀ c ∈ Tag.scanFrom Delimiters.braces.blockClosing t.stop 0 (debris.drop t.stop),
        c.content ≠ () := by
    decide +kernel
  have hbound : ∀ t ∈ Tag.scan Delimiters.braces.loopOpening debris,
      ∀ c ∈ Tag.scanFrom Delimiters.braces.loopClosing t.stop 0 (debris.drop t.stop),
        c.content ≠ t.content.path := by
    decide +kernel
  have hlegacy : ∀ t ∈ Tag.scan Delimiters.braces.legacyOpening debris,
      ∀ c ∈ Tag.scanFrom Delimiters.braces.legacyClosing t.stop 0 (debris.drop t.stop),
        c.content ≠ t.content.path := by
    decide +kernel
  refine render_untouched rfl rfl rfl (by decide) rfl .memory []
    ⟨?_, ?_, ?_, ?_, ⟨?_, ?_⟩, ?_, ?_⟩
  · exact List.isEmpty_iff.mp (by decide +kernel)
  · exact List.isEmpty_iff.mp (by decide +kernel)
  · exact List.isEmpty_iff.mp (by decide +kernel)
  · exact fun t ht => Tag.not_closed_of_forall (hblock t ht)
  · exact fun t ht => Tag.not_closed_of_forall (hbound t ht)
  · exact fun t ht => Tag.not_closed_of_forall (hlegacy t ht)
  · decide +kernel
  · decide +kernel

end Engine

end Stencil
