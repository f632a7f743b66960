import Stencil.Proofs.Composition.Step

/-!
# What a render computes

Output is computed from the rules of an engine, which are its delimiters, filters, plugins and
whether it removes tags without a value, from what its loaders hold, and from the context to work
with. The defaults, escaping and the cache have no other part in it. A render gives what is
computed, or what the store has under its key.
-/

namespace Stencil

variable {σ : Type}

namespace Engine

variable {e e' : Engine} {disk : Disk} {store : CacheStore σ} {s : σ} {name : String}
  {ctx ctx' : Context}

/-- Two engines read and replace tags alike. -/
structure SameRules (e e' : Engine) : Prop where
  /-- Tags have the same delimiters. -/
  delimiters : e.delimiters = e'.delimiters
  /-- They may use the same filters. -/
  filters : e.filters = e'.filters
  /-- Documents pass through the same plugins. -/
  plugins : e.plugins = e'.plugins
  /-- Tags without a value are removed by both or by none. -/
  clearUnresolved : e.clearUnresolved = e'.clearUnresolved

theorem SameRules.refl (e : Engine) : SameRules e e := ⟨rfl, rfl, rfl, rfl⟩

theorem SameRules.trans {e'' : Engine} (h : SameRules e e') (h' : SameRules e' e'') :
    SameRules e e'' :=
  ⟨h.delimiters.trans h'.delimiters, h.filters.trans h'.filters, h.plugins.trans h'.plugins,
    h.clearUnresolved.trans h'.clearUnresolved⟩

theorem SameRules.substitution (h : SameRules e e') : e.substitution = e'.substitution := by
  rw [Engine.substitution, Engine.substitution, h.delimiters, h.filters, h.clearUnresolved]

theorem SameRules.process (h : SameRules e e') : e.process = e'.process := by
  funext ctx isDocument s
  rw [Engine.process, Engine.process, h.substitution, h.delimiters, h.plugins]

theorem SameRules.request (h : SameRules e e') (hload : e.allLoaders = e'.allLoaders) :
    e.request disk = e'.request disk := by
  funext name
  rw [Engine.request, Engine.request, hload, h.delimiters]

/-- Engines with the same rules and loaders compose alike. -/
theorem SameRules.compose (h : SameRules e e') (hload : e.allLoaders = e'.allLoaders)
    (fuel : Nat) : e.compose disk ctx fuel = e'.compose disk ctx fuel := by
  induction fuel with
  | zero => rfl
  | succ fuel ih =>
    funext ancestry definitions name
    rw [Engine.compose, Engine.compose, ih, h.request hload, h.process, h.delimiters]

/-- Engines with the same rules and loaders compute the same. -/
theorem SameRules.renderFresh (h : SameRules e e') (hload : e.allLoaders = e'.allLoaders) :
    e.renderFresh disk name ctx = e'.renderFresh disk name ctx := by
  have hdepth : e.depthBound disk = e'.depthBound disk := by rw [depthBound, depthBound, hload]
  rw [Engine.renderFresh, Engine.renderFresh, h.compose hload, h.process, hdepth]

/-- What a render returns without a cache. -/
def outcome (e : Engine) (disk : Disk) (name : String) (ctx : Context) : Except Error Text :=
  if name.toList.all isBlank then .error .emptyTemplateName
  else (e.renderFresh disk name (e.effectiveContext ctx)).1

theorem SameRules.outcome (h : SameRules e e') (hload : e.allLoaders = e'.allLoaders)
    (hctx : e.effectiveContext ctx = e'.effectiveContext ctx') :
    e.outcome disk name ctx = e'.outcome disk name ctx' := by
  rw [Engine.outcome, Engine.outcome, hctx, h.renderFresh hload]

theorem outcome_congr (h : e.effectiveContext ctx = e.effectiveContext ctx') :
    e.outcome disk name ctx = e.outcome disk name ctx' :=
  (SameRules.refl e).outcome rfl h

/-- Whether there is a cache does not matter to what is computed. -/
theorem render_disabled (e : Engine) (disk : Disk) (store : CacheStore σ) (s : σ) (name : String)
    (ctx : Context) :
    ({ e with cacheEnabled := false }.render disk store s name ctx).outcome =
      e.outcome disk name ctx := by
  have hrules : SameRules { e with cacheEnabled := false } e := ⟨rfl, rfl, rfl, rfl⟩
  rw [outcome]
  cases hname : name.toList.all isBlank with
  | true =>
    rw [if_pos rfl, render_blank store s hname]
  | false =>
    rw [if_neg (by simp), render_uncached rfl store s hname]
    exact congrArg Prod.fst (hrules.renderFresh rfl)

theorem key?_eq_some {key : String} :
    e.key? name ctx = some key ↔ e.cacheEnabled = true ∧ Cache.key? name ctx = .ok key := by
  rw [key?]
  split
  · cases Cache.key? name ctx <;> simp_all [Except.toOption]
  · simp_all

/-- A render whose key is known gives what the store has. -/
theorem render_hit (hname : name.toList.all isBlank = false) {key : String}
    (hkey : e.key? name (e.effectiveContext ctx) = some key) {content : Text}
    (hlook : store.lookup? s key = some content) :
    e.render disk store s name ctx = ⟨.ok content, [], s⟩ := by
  rw [render_eq, hname, if_neg (by simp)]
  dsimp only
  rw [hkey]
  dsimp only
  rw [hlook]

/-- A render gives what the store has under its key, or computes its output and keeps it, or
computes what cannot be kept. -/
theorem render_cases (e : Engine) (disk : Disk) (store : CacheStore σ) (s : σ) (name : String)
    (ctx : Context) :
    let rendered := e.render disk store s name ctx
    let key? := e.key? name (e.effectiveContext ctx)
    (∃ key content, key? = some key ∧ store.lookup? s key = some content ∧
      rendered.outcome = .ok content ∧ rendered.store = s) ∨
    (∃ key content, key? = some key ∧ store.lookup? s key = none ∧
      e.outcome disk name ctx = .ok content ∧ rendered.outcome = .ok content ∧
      rendered.store = store.keep s key content) ∨
    (rendered.outcome = e.outcome disk name ctx ∧ rendered.store = s ∧
      ∀ key content, key? = some key → rendered.outcome ≠ .ok content) := by
  intro rendered key?
  cases hname : name.toList.all isBlank with
  | true =>
    refine .inr (.inr ?_)
    simp only [rendered, render_blank store s hname, outcome, if_pos hname]
    exact ⟨trivial, trivial, fun _ _ _ h => by cases h⟩
  | false =>
    have hblank : ¬ name.toList.all isBlank = true := by simp [hname]
    cases hkey : e.key? name (e.effectiveContext ctx) with
    | none =>
      refine .inr (.inr ?_)
      simp [rendered, key?, render_eq, outcome, hblank, hkey]
    | some key =>
      cases hlook : store.lookup? s key with
      | some content =>
        refine .inl ⟨key, content, hkey, hlook, ?_⟩
        simp only [rendered, render_hit hname hkey hlook, and_self]
      | none =>
        rcases hfresh : e.renderFresh disk name (e.effectiveContext ctx) with ⟨err | content, _⟩
        · refine .inr (.inr ?_)
          simp [rendered, render_eq, outcome, hblank, hkey, hlook, hfresh]
        · refine .inr (.inl ⟨key, content, hkey, hlook, ?_⟩)
          simp [rendered, render_eq, outcome, hblank, hkey, hlook, hfresh]

end Engine

end Stencil
