import Stencil.Engine.Render

/-!
# One step of composition

What composing a template does to the progress of a render, taken apart: it asks for the template,
composes the templates that it includes, and then resolves its blocks or composes its base. Each
part hands its progress on to the next, and the first that fails ends the step.
-/

namespace Stencil

namespace Engine

variable {α β : Type} {e : Engine} {disk : Disk} {ctx : Context}

/-- Goes on after a part that has succeeded. -/
def andThen (x : Composed α) (next : α → Progress → Composed β) : Composed β :=
  match x with
  | (.error stop, p) => (.error stop, p)
  | (.ok a, p) => next a p

/-- What a part does, run over one item after the other. -/
def runAll (visit : α → Composing β) : List α → Progress → Composed (List β)
  | [], p => (.ok [], p)
  | x :: xs, p =>
    andThen (visit x p) fun y p => andThen (runAll visit xs p) fun ys p => (.ok (y :: ys), p)

theorem bind_run (x : Composing α) (next : α → Composing β) (p : Progress) :
    (x >>= next) p = andThen (x p) next := by
  simp only [bind, ExceptT.bind, ExceptT.mk, StateT.bind, andThen, ExceptT.bindCont]
  rcases x p with ⟨r, p'⟩
  cases r <;> rfl

theorem mapM_run (visit : α → Composing β) (xs : List α) (p : Progress) :
    (xs.mapM visit) p = runAll visit xs p := by
  induction xs generalizing p with
  | nil => rfl
  | cons x xs ih =>
    rw [List.mapM_cons, bind_run, runAll]
    congr 1
    funext y p
    rw [bind_run, ih]
    rfl

/-- What asking for a template does. -/
theorem request_run (name : String) (p : Progress) :
    e.request disk name p =
      match Loader.loadFirst disk e.allLoaders name with
      | .error err => (.error (.failed err), { p with requests := p.requests ++ [name] })
      | .ok source =>
        let extracted := ProtectedRegions.extract e.delimiters p.regions source
        (.ok extracted.1, { regions := extracted.2, requests := p.requests ++ [name] }) := by
  unfold request
  cases Loader.loadFirst disk e.allLoaders name <;> rfl

/-- The edit that puts a rendered template into the place of a tag. -/
def includeTemplate (e : Engine) (disk : Disk) (ctx : Context) (fuel : Nat) (ancestry : Ancestry)
    (t : Tag String) : Composing Edit := do
  let included ← e.compose disk ctx fuel ancestry [] t.content
  return ⟨t.start, t.stop, e.process ctx false included⟩

/-- What becomes of a text whose includes have been made. -/
def finish (e : Engine) (disk : Disk) (ctx : Context) (fuel : Nat) (ancestry : Ancestry)
    (definitions : Blocks) (text : Text) (p : Progress) : Composed Text :=
  match (Tag.scan e.delimiters.baseTag text).head? with
  | none => (.ok (definitions.resolve e.delimiters [] text), p)
  | some t =>
    andThen (e.compose disk ctx fuel ancestry (Blocks.collect e.delimiters text definitions)
      t.content p) fun base p =>
        let rest := Blocks.strip e.delimiters text
        match (Tag.scan e.delimiters.baseTag rest).head? with
        | some t => (.ok (rest.splice [⟨t.start, t.stop, base⟩]), p)
        | none => (.ok (rest ++ base), p)

theorem compose_zero (ancestry : Ancestry) (definitions : Blocks) (name : String) (p : Progress) :
    e.compose disk ctx 0 ancestry definitions name p = (.error .outOfFuel, p) := rfl

theorem compose_succ (fuel : Nat) (ancestry : Ancestry) (definitions : Blocks) (name : String)
    (p : Progress) :
    e.compose disk ctx (fuel + 1) ancestry definitions name p =
      if name ∈ ancestry then (.error (.failed (.cycle (ancestry ++ [name]))), p)
      else
        andThen (e.request disk name p) fun source p =>
          andThen (runAll (e.includeTemplate disk ctx fuel (ancestry ++ [name]))
            (Tag.scan e.delimiters.includeTag source) p) fun edits =>
              e.finish disk ctx fuel (ancestry ++ [name]) definitions (source.splice edits) := by
  rw [compose, bind_run]
  unfold Ancestry.enter
  split
  · rfl
  · change (e.request disk name >>= _) p = _
    rw [bind_run]
    congr 1
    funext source p
    rw [bind_run, mapM_run]
    congr 1
    funext edits p
    unfold finish
    cases (Tag.scan e.delimiters.baseTag (source.splice edits)).head? with
    | none => rfl
    | some t =>
      dsimp only
      rw [bind_run]
      congr 1
      funext base p
      cases (Tag.scan e.delimiters.baseTag
        (Blocks.strip e.delimiters (source.splice edits))).head? <;> rfl

/-- Composing a template that can be loaded. -/
theorem compose_loaded {name : String} {ancestry : Ancestry} (hname : name ∉ ancestry)
    {source : Text} (hload : Loader.loadFirst disk e.allLoaders name = .ok source) {p : Progress}
    {text : Text} {regions : ProtectedRegions}
    (hextract : ProtectedRegions.extract e.delimiters p.regions source = (text, regions))
    (fuel : Nat) (definitions : Blocks) :
    e.compose disk ctx (fuel + 1) ancestry definitions name p =
      andThen (runAll (e.includeTemplate disk ctx fuel (ancestry ++ [name]))
        (Tag.scan e.delimiters.includeTag text) ⟨regions, p.requests ++ [name]⟩) fun edits =>
          e.finish disk ctx fuel (ancestry ++ [name]) definitions (text.splice edits) := by
  rw [compose_succ, if_neg hname, request_run, hload]
  simp only [hextract, andThen]

/-! ## What composition stops with -/

/-- What a part of a composition stops with, if it stops, is of some kind. -/
def StopsWith (kind : Stop Error → Prop) (x : Composed α) : Prop :=
  ∀ stop, x.1 = .error stop → kind stop

section

variable {kind : Stop Error → Prop}

theorem stopsWith_ok (a : α) (p : Progress) : StopsWith kind ((.ok a, p) : Composed α) :=
  fun _ h => absurd h (by simp)

theorem stopsWith_error {stop : Stop Error} (h : kind stop) (p : Progress) :
    StopsWith kind ((.error stop, p) : Composed α) :=
  fun _ hstop => Except.error.inj hstop ▸ h

theorem StopsWith.andThen {x : Composed α} {next : α → Progress → Composed β}
    (hx : StopsWith kind x) (hnext : ∀ a p, StopsWith kind (next a p)) :
    StopsWith kind (andThen x next) := by
  obtain ⟨result, p⟩ := x
  cases result with
  | error stop => exact stopsWith_error (hx stop rfl) p
  | ok a => exact hnext a p

theorem StopsWith.runAll {visit : α → Composing β} (hvisit : ∀ x p, StopsWith kind (visit x p))
    (xs : List α) (p : Progress) : StopsWith kind (runAll visit xs p) := by
  induction xs generalizing p with
  | nil => exact stopsWith_ok [] p
  | cons x xs ih =>
    exact (hvisit x p).andThen fun y p => (ih p).andThen fun ys p => stopsWith_ok (y :: ys) p

/-- Composing a template stops with a cycle, with what its loading fails with, or with what
composing another template inside it stops with. -/
theorem StopsWith.compose {fuel : Nat} {ancestry : Ancestry} {name : String}
    (hcycle : kind (.failed (.cycle (ancestry ++ [name]))))
    (hload : ∀ err, Loader.loadFirst disk e.allLoaders name = .error err → kind (.failed err))
    (hinside : ∀ source, name ∉ ancestry → Loader.loadFirst disk e.allLoaders name = .ok source →
      ∀ definitions other p,
        StopsWith kind (e.compose disk ctx fuel (ancestry ++ [name]) definitions other p))
    (definitions : Blocks) (p : Progress) :
    StopsWith kind (e.compose disk ctx (fuel + 1) ancestry definitions name p) := by
  rw [compose_succ]
  split
  · exact stopsWith_error hcycle p
  rename_i hname
  rw [request_run]
  cases hsource : Loader.loadFirst disk e.allLoaders name with
  | error err => exact stopsWith_error (hload err hsource) _
  | ok source =>
    refine StopsWith.andThen (stopsWith_ok _ _) fun source' p => ?_
    refine (StopsWith.runAll (fun t p => ?_) _ p).andThen fun edits p => ?_
    · rw [includeTemplate, bind_run]
      exact (hinside source hname hsource _ _ p).andThen fun included p => stopsWith_ok _ p
    · rw [finish]
      split
      · exact stopsWith_ok _ p
      · refine (hinside source hname hsource _ _ p).andThen fun base p => ?_
        dsimp only
        split
        · exact stopsWith_ok _ p
        · exact stopsWith_ok _ p

end

/-! ## Renders -/

/-- A render fails as composition does. -/
theorem renderFresh_error {name : String} {stop : Stop Error} {p : Progress}
    (h : e.compose disk ctx (e.depthBound disk) [] [] name {} = (.error stop, p)) :
    e.renderFresh disk name ctx = (.error (reason name stop), p.requests) := by
  rw [renderFresh, ExceptT.run, h]

theorem renderFresh_failed {name : String} {err : Error} {p : Progress}
    (h : e.compose disk ctx (e.depthBound disk) [] [] name {} = (.error (.failed err), p)) :
    e.renderFresh disk name ctx = (.error err, p.requests) := renderFresh_error h

/-- A render of what has been composed does not fail. -/
theorem renderFresh_ok {name : String} {composed : Text} {p : Progress}
    (h : e.compose disk ctx (e.depthBound disk) [] [] name {} = (.ok composed, p)) :
    e.renderFresh disk name ctx =
      (.ok (p.regions.restore (e.process ctx true composed)), p.requests) := by
  rw [renderFresh, ExceptT.run, h]

/-- What an engine does to the body of a loop for one row. -/
def renderBody (e : Engine) (s : Text) (ctx : Context) : Text :=
  e.substitution.apply (resolveConditionals e.delimiters ctx s) ctx

/-- What is done to a text where there are no plugins. -/
theorem process_eq (hplugins : e.plugins = []) (ctx : Context) (isDocument : Bool) (s : Text) :
    e.process ctx isDocument s = resolveConditionals e.delimiters ctx
      (e.substitution.apply (expandLoops e.delimiters e.renderBody s ctx) ctx) := by
  rw [process, hplugins]
  cases isDocument <;> rfl

/-- A render without a cache, of a template that has a name. -/
theorem render_uncached {σ : Type} (hcache : e.cacheEnabled = false) (store : CacheStore σ) (s : σ)
    {name : String} (hname : name.toList.all isBlank = false) (ctx : Context) :
    e.render disk store s name ctx =
      ⟨(e.renderFresh disk name (e.effectiveContext ctx)).1,
        (e.renderFresh disk name (e.effectiveContext ctx)).2, s⟩ := by
  have hkey : e.key? name (e.effectiveContext ctx) = none := by
    rw [key?, hcache]
    rfl
  rw [render_eq, hname, if_neg (by simp)]
  dsimp only
  rw [hkey]

theorem outcome_uncached {σ : Type} (hcache : e.cacheEnabled = false) (store : CacheStore σ) (s : σ)
    {name : String} (hname : name.toList.all isBlank = false) (ctx : Context) :
    (e.render disk store s name ctx).outcome =
      (e.renderFresh disk name (e.effectiveContext ctx)).1 := by
  rw [render_uncached hcache store s hname]

theorem render_blank {σ : Type} (store : CacheStore σ) (s : σ) {name : String}
    (hname : name.toList.all isBlank = true) (ctx : Context) :
    e.render disk store s name ctx = ⟨.error .emptyTemplateName, [], s⟩ := by
  rw [render_eq, if_pos hname]

end Engine

end Stencil
