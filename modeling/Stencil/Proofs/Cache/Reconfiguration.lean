import Stencil.Engine.Configuration
import Stencil.Proofs.Cache.Fresh
import Stencil.Proofs.Cache.Payload
import Stencil.Proofs.Cache.Stores
import Stencil.Proofs.Tag.Unclosed

/-!
# Changes of the configuration and the cache

Between renders the configuration of an engine changes, and the store stays. A key accounts for the
name and the effective context, so a change of the defaults or of escaping makes other keys. It does
not account for the rules: output that was kept under other delimiters, filters or plugins, or
before tags without a value were to be removed, is what a render of the same name and effective
context gives from then on. Every other render gives what an engine with an empty store gives.
-/

namespace Stencil

variable {σ : Type}

/-! ## Changes -/

/-- Whether keys account for a change: all it changes are effective contexts, and whether output
is cached. -/
def Change.isKeyed : Change → Bool
  | .autoEscape _ | .data _ | .assign _ _ | .cache _ => true
  | .delimiters _ _ | .filter _ _ | .plugin _ _ | .clearUnresolved _ => false

namespace Engine

/-- A change does not touch what templates are loaded from. -/
theorem allLoaders_configured (e : Engine) (change : Change) :
    (e.configured change).allLoaders = e.allLoaders := by
  cases change with
  | delimiters left right =>
    simp only [configured, configure]
    cases Delimiters.of? left right <;> rfl
  | filter | plugin | autoEscape | clearUnresolved | data | assign | cache => rfl

/-- A change that keys account for leaves the rules. -/
theorem sameRules_configured (e : Engine) {change : Change} (h : change.isKeyed = true) :
    SameRules e (e.configured change) := by
  cases change with
  | autoEscape | data | assign | cache => exact ⟨rfl, rfl, rfl, rfl⟩
  | delimiters | filter | plugin | clearUnresolved => cases h

end Engine

/-! ## Sessions -/

/-- What is done with an engine. -/
inductive Use where
  /-- Its configuration is changed. -/
  | configure (change : Change)
  /-- A template is rendered. -/
  | render (name : String) (ctx : Context)

/-- An engine and what its store holds. -/
structure Session (σ : Type) where
  /-- The engine. -/
  engine : Engine
  /-- The state of the store. -/
  store : σ

variable {disk : Disk} {store : CacheStore σ}

namespace Session

/-- What a render returns. -/
def returns (disk : Disk) (store : CacheStore σ) (session : Session σ) (name : String)
    (ctx : Context) : Except Error Text :=
  (session.engine.render disk store session.store name ctx).outcome

/-- The session after one use of its engine. -/
def step (disk : Disk) (store : CacheStore σ) (session : Session σ) : Use → Session σ
  | .configure change => { session with engine := session.engine.configured change }
  | .render name ctx =>
    { session with store := (session.engine.render disk store session.store name ctx).store }

/-- The session after some uses of its engine. -/
def run (disk : Disk) (store : CacheStore σ) (session : Session σ) (uses : List Use) : Session σ :=
  uses.foldl (step disk store) session

theorem run_append (session : Session σ) (uses uses' : List Use) :
    session.run disk store (uses ++ uses') =
      (session.run disk store uses).run disk store uses' :=
  List.foldl_append

theorem allLoaders_run (session : Session σ) (uses : List Use) :
    (session.run disk store uses).engine.allLoaders = session.engine.allLoaders := by
  induction uses generalizing session with
  | nil => rfl
  | cons use uses ih =>
    refine (ih _).trans ?_
    cases use with
    | configure change => exact session.engine.allLoaders_configured change
    | render name ctx => rfl

theorem sameRules_run (session : Session σ) {uses : List Use}
    (h : ∀ change, .configure change ∈ uses → change.isKeyed = true) :
    Engine.SameRules session.engine (session.run disk store uses).engine := by
  induction uses generalizing session with
  | nil => exact .refl _
  | cons use uses ih =>
    have hrest := ih (session.step disk store use) fun change hmem => h change (.tail _ hmem)
    cases use with
    | configure change =>
      exact (session.engine.sameRules_configured (h change (.head _))).trans hrest
    | render name ctx => exact hrest

end Session

/-- The names and effective contexts of the renders that ask for a key. -/
def Engine.keyed : Engine → List Use → List (String × Context)
  | _, [] => []
  | e, .configure change :: uses => (e.configured change).keyed uses
  | e, .render name ctx :: uses =>
    (if e.cacheEnabled then [(name, e.effectiveContext ctx)] else []) ++ e.keyed uses

/-- A render that a session has made, of this template and in this effective context, while output
was cached. -/
structure Earlier (disk : Disk) (store : CacheStore σ) (start : Session σ) (uses : List Use)
    (name : String) (ctx : Context) where
  /-- What was done before. -/
  before : List Use
  /-- The context of the call. -/
  call : Context
  /-- What was done since. -/
  after : List Use
  /-- This is all that was done. -/
  uses_eq : uses = before ++ .render name call :: after
  /-- Output was cached. -/
  cached : (start.run disk store before).engine.cacheEnabled = true
  /-- This was the effective context. -/
  effective : (start.run disk store before).engine.effectiveContext call = ctx

variable {start : Session σ} {uses : List Use} {name : String} {ctx : Context}
  {Holds : σ → String → ByteArray → Prop} {key : String} {content : Text}

namespace Earlier

/-- The session at that time. -/
def session (r : Earlier disk store start uses name ctx) : Session σ :=
  start.run disk store r.before

/-- What the render returned. -/
def returned (r : Earlier disk store start uses name ctx) : Except Error Text :=
  r.session.returns disk store name r.call

/-- A render that was made earlier stays one. -/
def extend (r : Earlier disk store start uses name ctx) (use : Use) :
    Earlier disk store start (uses ++ [use]) name ctx where
  before := r.before
  call := r.call
  after := r.after ++ [use]
  uses_eq := (congrArg (· ++ [use]) r.uses_eq).trans (by simp)
  cached := r.cached
  effective := r.effective

/-- The last render of a session. -/
def last (name : String) (call : Context)
    (h : (start.run disk store uses).engine.cacheEnabled = true) :
    Earlier disk store start (uses ++ [.render name call]) name
      ((start.run disk store uses).engine.effectiveContext call) where
  before := uses
  call := call
  after := []
  uses_eq := rfl
  cached := h
  effective := rfl

/-- Such a render asked for a key. -/
theorem mem_keyed (r : Earlier disk store start uses name ctx) :
    (name, ctx) ∈ start.engine.keyed uses := by
  obtain ⟨before, call, after, rfl, hcached, rfl⟩ := r
  induction before generalizing start with
  | nil =>
    have hcached' : start.engine.cacheEnabled = true := hcached
    rw [List.nil_append, Engine.keyed, if_pos hcached']
    exact .head _
  | cons use before ih =>
    cases use with
    | configure change => exact ih hcached
    | render name' ctx' => exact List.mem_append_right _ (ih hcached)

theorem key?_eq (r : Earlier disk store start uses name ctx)
    (hkey : Cache.key? name ctx = .ok key) :
    r.session.engine.key? name (r.session.engine.effectiveContext r.call) = some key :=
  Engine.key?_eq_some.mpr ⟨r.cached, by rw [session, r.effective]; exact hkey⟩

/-- The session after a render and all that was done since. -/
theorem run_eq (r : Earlier disk store start uses name ctx) :
    start.run disk store uses =
      (r.session.step disk store (.render name r.call)).run disk store r.after := by
  conv_lhs => rw [r.uses_eq, Session.run_append]
  rfl

/-- Where keys account for all changes, the rules are those of any earlier render. -/
theorem sameRules (r : Earlier disk store start uses name ctx)
    (h : ∀ change, .configure change ∈ uses → change.isKeyed = true) :
    Engine.SameRules r.session.engine (start.run disk store uses).engine := by
  rw [r.run_eq]
  refine (r.session.step disk store (.render name r.call)).sameRules_run fun change hmem => ?_
  refine h change ?_
  rw [r.uses_eq]
  exact List.mem_append_right _ (.tail _ hmem)

end Earlier

/-! ## What a store holds -/

/-- What a store holds is output that an earlier render computed and returned. -/
def Session.Sourced (disk : Disk) (store : CacheStore σ) (Holds : σ → String → ByteArray → Prop)
    (start : Session σ) (uses : List Use) : Prop :=
  ∀ key bytes, Holds (start.run disk store uses).store key bytes →
    ∃ name ctx, ∃ r : Earlier disk store start uses name ctx, ∃ content,
      Cache.key? name ctx = .ok key ∧ r.session.engine.outcome disk name r.call = .ok content ∧
        r.returned = .ok content ∧ bytes = (String.ofList content).toUTF8

namespace Session

theorem Sourced.step (hstore : store.Honest Eq Holds)
    (h : Sourced disk store Holds start uses) (use : Use) :
    Sourced disk store Holds start (uses ++ [use]) := by
  intro key bytes hk
  have hold : Holds (start.run disk store uses).store key bytes →
      ∃ name ctx, ∃ r : Earlier disk store start (uses ++ [use]) name ctx, ∃ content,
        Cache.key? name ctx = .ok key ∧ r.session.engine.outcome disk name r.call = .ok content ∧
          r.returned = .ok content ∧ bytes = (String.ofList content).toUTF8 := by
    intro hk
    obtain ⟨name, ctx, r, content, hr⟩ := h key bytes hk
    exact ⟨name, ctx, r.extend use, content, hr⟩
  rw [run_append] at hk
  cases use with
  | configure change => exact hold hk
  | render name ctx =>
    -- only a render that computed its output adds to the store, and it is the last of the session
    replace hk : Holds ((start.run disk store uses).engine.render disk store
      (start.run disk store uses).store name ctx).store key bytes := hk
    rcases Engine.render_cases (start.run disk store uses).engine disk store
      (start.run disk store uses).store name ctx with
      ⟨_, _, -, -, -, hs⟩ | ⟨k, content, hkey, -, hout, hret, hs⟩ | ⟨-, hs, -⟩
    · exact hold (hs ▸ hk)
    · rw [hs, CacheStore.keep] at hk
      split at hk
      · rename_i s' hput
        rcases hstore.put_holds hput hk with hk | ⟨rfl, rfl⟩
        · exact hold hk
        · obtain ⟨hcached, hkey⟩ := Engine.key?_eq_some.mp hkey
          exact ⟨name, _, .last name ctx hcached, content, hkey, hout, hret, rfl⟩
      · exact hold hk
    · exact hold (hs ▸ hk)

theorem Sourced.run (hstore : store.Honest Eq Holds)
    (hempty : ∀ key bytes, ¬ Holds start.store key bytes) (uses : List Use) :
    Sourced disk store Holds start uses := by
  induction uses using List.reverseRecOn with
  | nil => exact fun key bytes hk => absurd hk (hempty key bytes)
  | append_singleton uses use ih => exact ih.step hstore use

/-- Over a reliable store, what can be looked up stays the same. -/
theorem lookup?_step (hr : store.Reliable Eq) {session : Session σ}
    (h : store.lookup? session.store key = some content) (use : Use) :
    store.lookup? (session.step disk store use).store key = some content := by
  cases use with
  | configure change => exact h
  | render name ctx =>
    rcases Engine.render_cases session.engine disk store session.store name ctx with
      ⟨_, _, -, -, -, hs⟩ | ⟨k, found, -, hmiss, -, -, hs⟩ | ⟨-, hs, -⟩
    · exact (congrArg (store.lookup? · key) hs).trans h
    · -- what is kept now is kept under a key that was not there
      have hne : key ≠ k := by
        rintro rfl
        exact absurd (h.symm.trans hmiss) (by simp)
      refine (congrArg (store.lookup? · key) hs).trans ?_
      rw [hr.lookup?_keep, if_neg hne, h]
    · exact (congrArg (store.lookup? · key) hs).trans h

theorem lookup?_run (hr : store.Reliable Eq) {session : Session σ}
    (h : store.lookup? session.store key = some content) (uses : List Use) :
    store.lookup? (session.run disk store uses).store key = some content := by
  induction uses generalizing session with
  | nil => exact h
  | cons use uses ih => exact ih (lookup?_step hr h use)

end Session

/-- Over a reliable store, what a render returned can be looked up from then on. -/
theorem Earlier.lookup?_eq (hr : store.Reliable Eq) (r : Earlier disk store start uses name ctx)
    (hkey : Cache.key? name ctx = .ok key) (hret : r.returned = .ok content) :
    store.lookup? (start.run disk store uses).store key = some content := by
  rw [r.run_eq]
  refine Session.lookup?_run hr ?_ r.after
  have hkey' := r.key?_eq hkey
  rcases Engine.render_cases r.session.engine disk store r.session.store name r.call with
    ⟨k, found, hk, hlook, hout, hs⟩ | ⟨k, found, hk, -, -, hout, hs⟩ | ⟨-, -, hnone⟩
  · obtain rfl := Option.some.inj (hkey'.symm.trans hk)
    obtain rfl := Except.ok.inj (hret.symm.trans hout)
    exact (congrArg (store.lookup? · key) hs).trans hlook
  · obtain rfl := Option.some.inj (hkey'.symm.trans hk)
    obtain rfl := Except.ok.inj (hret.symm.trans hout)
    refine (congrArg (store.lookup? · key) hs).trans ?_
    rw [hr.lookup?_keep, if_pos rfl]
  · exact absurd hret (hnone key content hkey')

/-! ## Changes take effect -/

/-- What a render returns after changes of the configuration and other renders. -/
structure TakesEffect (disk : Disk) (store : CacheStore σ) (start : Session σ) (uses : List Use)
    (name : String) (ctx : Context) : Prop where
  /-- It returns what it returns over an empty store, unless an earlier render of the same template
  in the same effective context, by other rules, returned something; then it may return that. -/
  fresh_or_kept :
    let session := start.run disk store uses
    let returned := session.returns disk store name ctx
    returned = { session with store := start.store }.returns disk store name ctx ∨
      session.engine.cacheEnabled = true ∧
        (session.engine.effectiveContext ctx).nonFinite? = none ∧
        ∃ r : Earlier disk store start uses name (session.engine.effectiveContext ctx),
          ¬ Engine.SameRules r.session.engine session.engine ∧ r.returned = returned
  /-- Over a reliable store, where output is cached and the context has a key, it does return
  that. -/
  kept :
    let session := start.run disk store uses
    store.Reliable Eq → session.engine.cacheEnabled = true →
    (session.engine.effectiveContext ctx).nonFinite? = none →
    ∀ r : Earlier disk store start uses name (session.engine.effectiveContext ctx),
    ∀ content, r.returned = .ok content → session.returns disk store name ctx = .ok content
  /-- Where only the defaults, escaping and the cache were changed, it returns what it returns over
  an empty store. -/
  keyed : (∀ change, .configure change ∈ uses → change.isKeyed = true) →
    let session := start.run disk store uses
    session.returns disk store name ctx =
      { session with store := start.store }.returns disk store name ctx

/-- Over an empty store a render returns what is computed. -/
theorem Session.returns_empty {session : Session σ} (hstore : store.Honest Eq Holds)
    (hempty : ∀ key bytes, ¬ Holds session.store key bytes) :
    session.returns disk store name ctx = session.engine.outcome disk name ctx := by
  rcases Engine.render_cases session.engine disk store session.store name ctx with
    ⟨key, content, -, hlook, -⟩ | ⟨_, _, -, -, hout, hret, -⟩ | ⟨hret, -⟩
  · exact absurd (hstore.get_holds (CacheStore.lookup?_eq_some hlook)) (hempty _ _)
  · exact hret.trans hout.symm
  · exact hret

/-- A render returns what is computed, or what an earlier one computed and returned. -/
theorem Session.Sourced.returns (hstore : store.Honest Eq Holds)
    (hsourced : Session.Sourced disk store Holds start uses)
    (hdigest : Cache.DigestsApart (start.engine.keyed (uses ++ [.render name ctx]))) :
    let session := start.run disk store uses
    session.returns disk store name ctx = session.engine.outcome disk name ctx ∨
      session.engine.cacheEnabled = true ∧
        (session.engine.effectiveContext ctx).nonFinite? = none ∧
        ∃ r : Earlier disk store start uses name (session.engine.effectiveContext ctx),
          r.returned = session.returns disk store name ctx ∧
            r.session.engine.outcome disk name r.call = session.returns disk store name ctx := by
  intro session
  rcases Engine.render_cases session.engine disk store session.store name ctx with
    ⟨key, content, hkey, hlook, hret, -⟩ | ⟨_, _, -, -, hout, hret, -⟩ | ⟨hret, -⟩
  · obtain ⟨hcached, hkey⟩ := Engine.key?_eq_some.mp hkey
    obtain ⟨name', ctx', r, content', hkey', hout', hret', hbytes⟩ :=
      hsourced key _ (hstore.get_holds (CacheStore.lookup?_eq_some hlook))
    have hpair : (name', ctx') = (name, session.engine.effectiveContext ctx) :=
      hdigest.eq_of_key? (r.extend _).mem_keyed (Earlier.last name ctx hcached).mem_keyed hkey' hkey
    obtain ⟨rfl, rfl⟩ := Prod.mk.inj hpair
    have hcontent : content = content' := by
      simpa using congrArg String.toList (String.toByteArray_inj.mp hbytes)
    refine .inr ⟨hcached, (Cache.key?_eq_ok.mp hkey).1, r, ?_, ?_⟩
    · rw [hret', ← hcontent]
      exact hret.symm
    · rw [hout', ← hcontent]
      exact hret.symm
  · exact .inl (hret.trans hout.symm)
  · exact .inl hret

/-- **Changes take effect, but for what is kept.** For all changes and renders, in any order, over
a store that starts empty. -/
theorem takesEffect (hstore : store.Honest Eq Holds)
    (hempty : ∀ key bytes, ¬ Holds start.store key bytes)
    (hdigest : Cache.DigestsApart (start.engine.keyed (uses ++ [.render name ctx]))) :
    TakesEffect disk store start uses name ctx := by
  have hfresh : { start.run disk store uses with store :=
    start.store }.returns disk store name ctx =
      (start.run disk store uses).engine.outcome disk name ctx :=
    Session.returns_empty hstore hempty
  have hsourced : Session.Sourced disk store Holds start uses := .run hstore hempty uses
  have hreturns := hsourced.returns hstore hdigest
  -- by the same rules, an earlier render computed what is computed now
  have hsame : ∀ r : Earlier disk store start uses name
      ((start.run disk store uses).engine.effectiveContext ctx),
      Engine.SameRules r.session.engine (start.run disk store uses).engine →
      r.session.engine.outcome disk name r.call =
        (start.run disk store uses).engine.outcome disk name ctx := by
    intro r hrules
    refine hrules.outcome ?_ r.effective
    rw [Earlier.session, Session.allLoaders_run, Session.allLoaders_run]
  refine ⟨?_, ?_, ?_⟩
  · intro session returned
    rcases hreturns with hout | ⟨hcached, hfinite, r, hret, hout⟩
    · exact .inl (hout.trans hfresh.symm)
    · by_cases hrules : Engine.SameRules r.session.engine session.engine
      · exact .inl (hout.symm.trans ((hsame r hrules).trans hfresh.symm))
      · exact .inr ⟨hcached, hfinite, r, hrules, hret⟩
  · intro session hr hcached hfinite r content hret
    have hkey : Cache.key? name (session.engine.effectiveContext ctx) =
        .ok (Sha256.hexDigest (Cache.payloadBytes name (session.engine.effectiveContext ctx))) :=
      Cache.key?_eq_ok.mpr ⟨hfinite, rfl⟩
    have hname : name.toList.all isBlank = false := by
      by_contra hblank
      rw [Bool.not_eq_false] at hblank
      rw [Earlier.returned, Session.returns, Engine.render_blank _ _ hblank] at hret
      cases hret
    rw [Session.returns, Engine.render_hit hname (Engine.key?_eq_some.mpr ⟨hcached, hkey⟩)
      (r.lookup?_eq hr hkey hret)]
  · intro hkeyed session
    rcases hreturns with hout | ⟨-, -, r, -, hout⟩
    · exact hout.trans hfresh.symm
    · exact hout.symm.trans ((hsame r (r.sameRules hkeyed)).trans hfresh.symm)

/-- A session over a template that shows what it has no value for. -/
def Session.gap : Session (Dict ByteArray) :=
  ⟨{ sources := [("t", "[{missing}]".toList)] }, []⟩

/-- A render, after which tags without a value are to be removed. -/
def Session.gapUses : List Use := [.render "t" [], .configure (.clearUnresolved true)]

/-- The store of the session is empty. -/
theorem takesEffect_gap :
    (∀ key bytes, ¬ Dict.get? Session.gap.store key = some bytes) ∧
      TakesEffect ⟨[], [], none⟩ .memory Session.gap Session.gapUses "t" [] :=
  ⟨CacheStore.memory_empty, takesEffect CacheStore.memory_honest CacheStore.memory_empty
  (by decide +kernel)⟩

theorem Session.outcome_gap (on : Bool) :
    { Session.gap.engine with clearUnresolved := on }.outcome ⟨[], [], none⟩ "t" [] =
      .ok (if on then "[]".toList else "[{missing}]".toList) := by
  have hfresh : { Session.gap.engine with clearUnresolved := on }.renderFresh
      ⟨[], [], none⟩ "t" [] =
      (.ok (ProtectedRegions.restore [] (resolveConditionals .braces [] (Substitution.apply
        { Session.gap.engine with clearUnresolved := on }.substitution "[{missing}]".toList []))),
        ["t"]) := by
    cases on <;>
      exact Engine.renderFresh_single rfl rfl (by decide +kernel)
        (List.isEmpty_iff.mp (by decide +kernel)) (List.isEmpty_iff.mp (by decide +kernel))
        (List.isEmpty_iff.mp (by decide +kernel)) (List.isEmpty_iff.mp (by decide +kernel))
        (List.isEmpty_iff.mp (by decide +kernel)) []
  rw [Engine.outcome, if_neg (by decide)]
  refine (congrArg Prod.fst hfresh).trans ?_
  cases on <;> decide +kernel

/-- The tag is to be removed, and a render still shows it. -/
theorem returns_gap :
    let session := Session.gap.run ⟨[], [], none⟩ .memory Session.gapUses
    session.returns ⟨[], [], none⟩ .memory "t" [] = .ok "[{missing}]".toList ∧
      { session with store := [] }.returns ⟨[], [], none⟩ .memory "t" [] = .ok "[]".toList := by
  intro session
  have hkey : Cache.key? "t" [] = .ok (Sha256.hexDigest (Cache.payloadBytes "t" [])) :=
    Cache.key?_eq_ok.mpr ⟨rfl, rfl⟩
  constructor
  · let first : Earlier ⟨[], [], none⟩ .memory Session.gap ([] ++ [.render "t" []]) "t" [] :=
      .last "t" [] rfl
    have hfirst : first.returned = .ok "[{missing}]".toList :=
      (Session.returns_empty CacheStore.memory_honest CacheStore.memory_empty).trans
        (Session.outcome_gap false)
    have hlook := (first.extend (.configure (.clearUnresolved true))).lookup?_eq
      CacheStore.memory_reliable hkey hfirst
    have hcached : session.engine.cacheEnabled = true := rfl
    exact congrArg Rendered.outcome
      (Engine.render_hit (by decide) (Engine.key?_eq_some.mpr ⟨hcached, hkey⟩) hlook)
  · exact (Session.returns_empty CacheStore.memory_honest CacheStore.memory_empty).trans
      (Session.outcome_gap true)

end Stencil
