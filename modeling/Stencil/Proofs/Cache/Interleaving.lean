import Stencil.Proofs.Cache.Fresh
import Stencil.Proofs.Cache.Payload
import Stencil.Proofs.Cache.Stores
import Stencil.Proofs.Dict
import Mathlib.Logic.Relation

/-!
# Renders that share a store

Renders of one engine may run side by side on one store. Each looks its key up, computes, and
stores, and between two of its steps the others take theirs and the store may lose entries, break
down or come up again. None of this shows in the output: whatever a store still has under a key was
put there by a render with that key, and a key belongs to one name and one context. So a render
returns what it returns without a cache.
-/

namespace Stencil

variable {σ : Type}

/-! ## Renders step by step -/

/-- How far a render has come. -/
inductive Phase where
  /-- It has not started. -/
  | waiting
  /-- The store had nothing for it, or was not asked. -/
  | missed
  /-- The output is there and has yet to be stored. -/
  | computed (key : String) (content : Text)
  /-- It has returned. -/
  | finished (outcome : Except Error Text)

/-- A render under way, with all it asked for so far. -/
structure Job where
  /-- The template. -/
  name : String
  /-- The context of the call. -/
  ctx : Context
  /-- How far it has come. -/
  phase : Phase := .waiting
  /-- The keys looked up in the store. -/
  lookups : List String := []
  /-- The keys stored under. -/
  puts : List String := []
  /-- The templates asked for. -/
  requests : List String := []

namespace Engine

/-- The next step of a render. -/
def advance (e : Engine) (disk : Disk) (store : CacheStore σ) (s : σ) (job : Job) : σ × Job :=
  let ctx := e.effectiveContext job.ctx
  match job.phase with
  | .waiting =>
    if job.name.toList.all isBlank then
      (s, { job with phase := .finished (.error .emptyTemplateName) })
    else
      match e.key? job.name ctx with
      | none => (s, { job with phase := .missed })
      | some key =>
        match store.lookup? s key with
        | some content =>
          (s, { job with phase := .finished (.ok content), lookups := job.lookups ++ [key] })
        | none => (s, { job with phase := .missed, lookups := job.lookups ++ [key] })
  | .missed =>
    let (outcome, requests) := e.renderFresh disk job.name ctx
    match outcome, e.key? job.name ctx with
    | .ok content, some key =>
      (s, { job with phase := .computed key content, requests := job.requests ++ requests })
    | outcome, _ =>
      (s, { job with phase := .finished outcome, requests := job.requests ++ requests })
  | .computed key content =>
    (store.keep s key content,
      { job with phase := .finished (.ok content), puts := job.puts ++ [key] })
  | .finished _ => (s, job)

/-- A render whose three steps nothing comes between is the render of the engine. -/
theorem advance_three (e : Engine) (disk : Disk) (store : CacheStore σ) (s : σ) (name : String)
    (ctx : Context) :
    let one := e.advance disk store s { name, ctx }
    let two := e.advance disk store one.1 one.2
    let three := e.advance disk store two.1 two.2
    let rendered := e.render disk store s name ctx
    three.1 = rendered.store ∧ three.2.phase = .finished rendered.outcome ∧
      three.2.requests = rendered.requests := by
  simp only [render_eq]
  split
  · rename_i hblank
    simp [advance, hblank]
  · rename_i hblank
    cases hkey : e.key? name (e.effectiveContext ctx) with
    | none => simp [advance, hblank, hkey]
    | some key =>
      cases hlook : store.lookup? s key with
      | some content => simp [advance, hblank, hkey, hlook]
      | none =>
        rcases hfresh : e.renderFresh disk name (e.effectiveContext ctx) with ⟨_ | _, requests⟩ <;>
          simp [advance, hblank, hkey, hlook, hfresh]

end Engine

/-! ## Interleavings -/

/-- The renders of an engine and the store they share. -/
structure World (σ : Type) where
  /-- The store. -/
  store : σ
  /-- The renders. -/
  jobs : List Job

/-- Renders that have not started, over a store. -/
def World.start (s : σ) (tasks : List (String × Context)) : World σ :=
  ⟨s, tasks.map fun task => { name := task.1, ctx := task.2 }⟩

variable {e : Engine} {disk : Disk} {store : CacheStore σ} {drift : σ → σ → Prop}
  {Holds : σ → String → ByteArray → Prop} {tasks : List (String × Context)} {w w' : World σ}
  {s : σ} {job : Job}

namespace Engine

/-- One step of the world: a render takes its next step, or the store drifts. -/
inductive Moves (e : Engine) (disk : Disk) (store : CacheStore σ) (drift : σ → σ → Prop) :
    World σ → World σ → Prop where
  | advance {w : World σ} {i : Nat} {job : Job} (h : w.jobs[i]? = some job) :
    Moves e disk store drift w
      ⟨(e.advance disk store w.store job).1, w.jobs.set i (e.advance disk store w.store job).2⟩
  | drift {w : World σ} {s : σ} (h : drift w.store s) :
    Moves e disk store drift w { w with store := s }

/-- Any number of steps, in any order. -/
abbrev Reaches (e : Engine) (disk : Disk) (store : CacheStore σ) (drift : σ → σ → Prop) :
    World σ → World σ → Prop :=
  Relation.ReflTransGen (Moves e disk store drift)

/-- The renders of a world take their steps by a schedule. -/
def play (e : Engine) (disk : Disk) (store : CacheStore σ) : List Nat → World σ → World σ
  | [], w => w
  | i :: schedule, w =>
    match w.jobs[i]? with
    | none => play e disk store schedule w
    | some job =>
      play e disk store schedule
        ⟨(e.advance disk store w.store job).1, w.jobs.set i (e.advance disk store w.store job).2⟩

theorem reaches_play (schedule : List Nat) :
    Reaches e disk store drift w (e.play disk store schedule w) := by
  induction schedule generalizing w with
  | nil => exact .refl
  | cons i schedule ih =>
    rw [play]
    split
    · exact ih
    · rename_i job hi
      exact .head (.advance hi) ih

/-- The names and contexts that renders work with. -/
def pairs (e : Engine) (tasks : List (String × Context)) : List (String × Context) :=
  tasks.map fun task => (task.1, e.effectiveContext task.2)

/-- What holds of a render at every moment. -/
structure JobInv (e : Engine) (disk : Disk) (job : Job) : Prop where
  /-- A render without a key leaves the store alone. -/
  keyless : e.key? job.name (e.effectiveContext job.ctx) = none → job.lookups = [] ∧ job.puts = []
  /-- What the phase says has happened. -/
  phase : match job.phase with
    | .waiting => job.requests = []
    | .missed => job.name.toList.all isBlank = false
    | .computed key content =>
      e.key? job.name (e.effectiveContext job.ctx) = some key ∧
        e.outcome disk job.name job.ctx = .ok content
    | .finished outcome => outcome = e.outcome disk job.name job.ctx

/-- What holds of the world at every moment. -/
structure WorldInv (e : Engine) (disk : Disk) (Holds : σ → String → ByteArray → Prop)
    (tasks : List (String × Context)) (w : World σ) : Prop where
  /-- The renders are those that were asked for. -/
  same : w.jobs.map (fun job => (job.name, job.ctx)) = tasks
  /-- Each render is where it should be. -/
  jobs : ∀ job ∈ w.jobs, JobInv e disk job
  /-- What the store holds is the output of a render with that key. -/
  held : ∀ key bytes, Holds w.store key bytes → ∃ task ∈ tasks,
    e.key? task.1 (e.effectiveContext task.2) = some key ∧ ∃ content,
      e.outcome disk task.1 task.2 = .ok content ∧ bytes = (String.ofList content).toUTF8

/-! ### One step of a render -/

theorem advance_name (e : Engine) (disk : Disk) (store : CacheStore σ) (s : σ) (job : Job) :
    (e.advance disk store s job).2.name = job.name ∧
      (e.advance disk store s job).2.ctx = job.ctx := by
  simp only [advance]
  repeat' split
  all_goals exact ⟨rfl, rfl⟩

/-- What a step adds to the store is the output that the render has computed. -/
theorem holds_advance (hstore : store.Honest drift Holds) {key : String} {bytes : ByteArray}
    (h : Holds (e.advance disk store s job).1 key bytes) :
    Holds s key bytes ∨ ∃ content, job.phase = .computed key content ∧
      bytes = (String.ofList content).toUTF8 := by
  cases hphase : job.phase with
  | computed k content =>
    simp only [advance, hphase, CacheStore.keep] at h
    split at h
    · rename_i s' hput
      rcases hstore.put_holds hput h with h | ⟨rfl, rfl⟩
      · exact .inl h
      · exact .inr ⟨content, rfl, rfl⟩
    · exact .inl h
  | waiting | missed | finished outcome =>
    left
    simp only [advance, hphase] at h
    repeat' split at h
    all_goals exact h

/-- A step keeps a render where it should be, if the store answers with the output of the render. -/
theorem JobInv.advance (hjob : JobInv e disk job)
    (hanswer : ∀ key content, e.key? job.name (e.effectiveContext job.ctx) = some key →
      store.lookup? s key = some content → e.outcome disk job.name job.ctx = .ok content) :
    JobInv e disk (e.advance disk store s job).2 := by
  obtain ⟨hkeyless, hphase⟩ := hjob
  cases hp : job.phase with
  | waiting =>
    by_cases hblank : job.name.toList.all isBlank = true
    · simp only [Engine.advance, hp, if_pos hblank]
      exact ⟨hkeyless, by simp only [outcome, if_pos hblank]⟩
    · have hname : job.name.toList.all isBlank = false := Bool.eq_false_of_not_eq_true hblank
      cases hkey : e.key? job.name (e.effectiveContext job.ctx) with
      | none =>
        simp only [Engine.advance, hp, if_neg hblank, hkey]
        exact ⟨hkeyless, hname⟩
      | some key =>
        have hsome : e.key? job.name (e.effectiveContext job.ctx) ≠ none := by simp [hkey]
        cases hlook : store.lookup? s key with
        | none =>
          simp only [Engine.advance, hp, if_neg hblank, hkey, hlook]
          exact ⟨fun h => absurd h hsome, hname⟩
        | some content =>
          simp only [Engine.advance, hp, if_neg hblank, hkey, hlook]
          exact ⟨fun h => absurd h hsome, (hanswer key content hkey hlook).symm⟩
  | missed =>
    rw [hp] at hphase
    have hout : e.outcome disk job.name job.ctx =
        (e.renderFresh disk job.name (e.effectiveContext job.ctx)).1 := by
      rw [outcome, hphase, if_neg (by simp)]
    simp only [Engine.advance, hp]
    split
    · rename_i content key hok hkey
      exact ⟨hkeyless, hkey, hout.trans hok⟩
    · exact ⟨hkeyless, hout.symm⟩
  | computed key content =>
    rw [hp] at hphase
    simp only [Engine.advance, hp]
    exact ⟨fun h => absurd h (by simp [hphase.1]), hphase.2.symm⟩
  | finished outcome =>
    simp only [Engine.advance, hp]
    exact ⟨hkeyless, by rw [hp] at hphase ⊢; exact hphase⟩

/-! ### One step of the world -/

theorem WorldInv.mem_tasks (hw : WorldInv e disk Holds tasks w) (hjob : job ∈ w.jobs) :
    (job.name, job.ctx) ∈ tasks :=
  hw.same ▸ List.mem_map_of_mem hjob

/-- The store answers a render with its own output. -/
theorem WorldInv.answer (hw : WorldInv e disk Holds tasks w) (hstore : store.Honest drift Holds)
    (hdigest : Cache.DigestsApart (e.pairs tasks)) (hjob : job ∈ w.jobs) {key : String}
    {content : Text} (hkey : e.key? job.name (e.effectiveContext job.ctx) = some key)
    (hlook : store.lookup? w.store key = some content) :
    e.outcome disk job.name job.ctx = .ok content := by
  obtain ⟨task, htask, hkey', content', hout, hbytes⟩ :=
    hw.held key _ (hstore.get_holds (CacheStore.lookup?_eq_some hlook))
  have hpair : (task.1, e.effectiveContext task.2) = (job.name, e.effectiveContext job.ctx) :=
    hdigest.eq_of_key? (List.mem_map_of_mem htask)
      (List.mem_map_of_mem (f := fun t : String × Context => (t.1, e.effectiveContext t.2))
        (hw.mem_tasks hjob))
      (key?_eq_some.mp hkey').2 (key?_eq_some.mp hkey).2
  obtain ⟨hname, hctx⟩ := Prod.mk.inj hpair
  have hcontent : content = content' := by
    simpa using congrArg String.toList (String.toByteArray_inj.mp hbytes)
  rw [← hname, ← outcome_congr hctx, hout, hcontent]

theorem map_set_of_eq {α β : Type} {xs : List α} {i : Nat} {x y : α} {f : α → β}
    (hx : xs[i]? = some x) (h : f y = f x) : (xs.set i y).map f = xs.map f := by
  rw [List.map_set, h, ← List.map_set]
  obtain ⟨hi, rfl⟩ := List.getElem?_eq_some_iff.mp hx
  rw [List.set_getElem_self]

/-- A step of the world keeps it as it should be. -/
theorem WorldInv.moves (hstore : store.Honest drift Holds)
    (hdigest : Cache.DigestsApart (e.pairs tasks)) (hw : WorldInv e disk Holds tasks w)
    (h : Moves e disk store drift w w') : WorldInv e disk Holds tasks w' := by
  cases h with
  | @advance i job hi =>
    have hmem : job ∈ w.jobs := List.mem_of_getElem? hi
    obtain ⟨hname, hctx⟩ := advance_name e disk store w.store job
    refine ⟨?_, fun other hother => ?_, fun key bytes hk => ?_⟩
    · rw [← hw.same]
      exact map_set_of_eq hi (by rw [hname, hctx])
    · rcases List.mem_or_eq_of_mem_set hother with hother | rfl
      · exact hw.jobs other hother
      · exact (hw.jobs job hmem).advance fun key content hkey hlook =>
          hw.answer hstore hdigest hmem hkey hlook
    · rcases holds_advance hstore hk with hk | ⟨content, hphase, hbytes⟩
      · exact hw.held key bytes hk
      · have hcomputed := (hw.jobs job hmem).phase
        rw [hphase] at hcomputed
        exact ⟨(job.name, job.ctx), hw.mem_tasks hmem, hcomputed.1, content, hcomputed.2, hbytes⟩
  | drift hd =>
    exact ⟨hw.same, hw.jobs, fun key bytes hk => hw.held key bytes (hstore.drift_holds hd hk)⟩

theorem WorldInv.start {s₀ : σ} (hempty : ∀ key bytes, ¬ Holds s₀ key bytes) :
    WorldInv e disk Holds tasks (World.start s₀ tasks) where
  same := by simp [World.start, Function.comp_def]
  jobs := by
    intro job hjob
    obtain ⟨task, -, rfl⟩ := List.mem_map.mp hjob
    exact ⟨fun _ => ⟨rfl, rfl⟩, rfl⟩
  held := fun key bytes h => absurd h (hempty key bytes)

/-- Whatever the order of the steps, the world stays as it should be. -/
theorem WorldInv.reaches (hstore : store.Honest drift Holds)
    (hdigest : Cache.DigestsApart (e.pairs tasks)) (hw : WorldInv e disk Holds tasks w)
    (h : Reaches e disk store drift w w') : WorldInv e disk Holds tasks w' := by
  induction h with
  | refl => exact hw
  | tail _ hstep ih => exact ih.moves hstore hdigest hstep

/-! ### Reliable stores -/

/-- What a reliable store has under a key it has from then on. -/
theorem isSome_lookup?_moves (hr : store.Reliable drift) {key : String}
    (hk : (store.lookup? w.store key).isSome = true) (h : Moves e disk store drift w w') :
    (store.lookup? w'.store key).isSome = true := by
  cases h with
  | @advance i job hi =>
    cases hphase : job.phase with
    | computed k content =>
      simp only [Engine.advance, hphase, hr.lookup?_keep]
      split
      · rfl
      · exact hk
    | waiting | missed | finished outcome =>
      simp only [Engine.advance, hphase]
      repeat' split
      all_goals exact hk
  | drift hd =>
    simp only [CacheStore.lookup?, hr.drift_get hd]
    exact hk

/-- The outputs of the renders that have returned are in the store. -/
def Kept (e : Engine) (store : CacheStore σ) (w : World σ) : Prop :=
  ∀ job ∈ w.jobs, ∀ content key, job.phase = .finished (.ok content) →
    e.key? job.name (e.effectiveContext job.ctx) = some key →
    (store.lookup? w.store key).isSome = true

theorem Kept.moves (hr : store.Reliable drift) (hw : WorldInv e disk Holds tasks w)
    (hkept : e.Kept store w) (h : Moves e disk store drift w w') : e.Kept store w' := by
  intro other hother content key hfin hkey
  have hstays : ∀ {k}, (store.lookup? w.store k).isSome = true →
      (store.lookup? w'.store k).isSome = true := fun hk => isSome_lookup?_moves hr hk h
  cases h with
  | @advance i job hi =>
    have hmem : job ∈ w.jobs := List.mem_of_getElem? hi
    rcases List.mem_or_eq_of_mem_set hother with hother | rfl
    · exact hstays (hkept other hother content key hfin hkey)
    · obtain ⟨hname, hctx⟩ := advance_name e disk store w.store job
      rw [hname, hctx] at hkey
      -- the step that has just been taken is the one that returned, or nothing has changed
      cases hphase : job.phase with
      | waiting =>
        by_cases hblank : job.name.toList.all isBlank = true
        · simp [Engine.advance, hphase, hblank] at hfin
        · cases hlook : store.lookup? w.store key with
          | none => simp [Engine.advance, hphase, hblank, hkey, hlook] at hfin
          | some found => exact hstays (by rw [hlook]; rfl)
      | missed =>
        simp only [Engine.advance, hphase, hkey] at hfin
        split at hfin
        · cases hfin
        · rename_i hne
          have hok : (e.renderFresh disk job.name (e.effectiveContext job.ctx)).1 =
              .ok content := Phase.finished.inj hfin
          exact absurd rfl (hne content key hok)
      | computed k found =>
        have hcomputed := (hw.jobs job hmem).phase
        rw [hphase] at hcomputed
        obtain rfl : key = k := Option.some.inj (hkey.symm.trans hcomputed.1)
        simp only [Engine.advance, hphase, hr.lookup?_keep]
        rfl
      | finished outcome =>
        simp only [Engine.advance, hphase] at hfin
        exact hstays (hkept job hmem content key (hphase.trans hfin) hkey)
  | drift hd => exact hstays (hkept other hother content key hfin hkey)

/-- The output of a render is in the store before the render has looked for it. -/
structure Served (e : Engine) (store : CacheStore σ) (key : String) (j : Nat) (w : World σ) :
    Prop where
  /-- The output is there. -/
  there : (store.lookup? w.store key).isSome = true
  /-- The render has not started, or it has returned without asking a loader. -/
  idle : ∀ job, w.jobs[j]? = some job → job.requests = [] ∧
    e.key? job.name (e.effectiveContext job.ctx) = some key ∧
      (job.phase = .waiting ∨ ∃ outcome, job.phase = .finished outcome)

theorem Served.moves (hr : store.Reliable drift) {key : String} {j : Nat}
    (hs : e.Served store key j w) (h : Moves e disk store drift w w') :
    e.Served store key j w' := by
  refine ⟨isSome_lookup?_moves hr hs.there h, fun other hother => ?_⟩
  cases h with
  | @advance i job hi =>
    by_cases hij : i = j
    · subst hij
      obtain ⟨hrequests, hkey, hphase⟩ := hs.idle job hi
      obtain ⟨hname, hctx⟩ := advance_name e disk store w.store job
      have hlt : i < w.jobs.length := (List.getElem?_eq_some_iff.mp hi).1
      rw [List.getElem?_set_self hlt] at hother
      obtain rfl := Option.some.inj hother
      rw [hname, hctx]
      obtain ⟨content, hlook⟩ := Option.isSome_iff_exists.mp hs.there
      rcases hphase with hphase | ⟨outcome, hphase⟩
      · by_cases hblank : job.name.toList.all isBlank = true
        · simp only [Engine.advance, hphase, if_pos hblank]
          exact ⟨hrequests, hkey, .inr ⟨_, rfl⟩⟩
        · simp only [Engine.advance, hphase, if_neg hblank, hkey, hlook]
          exact ⟨hrequests, trivial, .inr ⟨_, rfl⟩⟩
      · simp only [Engine.advance, hphase]
        exact ⟨hrequests, hkey, .inr ⟨outcome, rfl⟩⟩
    · rw [List.getElem?_set_ne hij] at hother
      exact hs.idle other hother
  | drift hd => exact hs.idle other hother

theorem Served.reaches (hr : store.Reliable drift) {key : String} {j : Nat}
    (hs : e.Served store key j w) (h : Reaches e disk store drift w w') :
    e.Served store key j w' := by
  induction h with
  | refl => exact hs
  | tail _ hstep ih => exact ih.moves hr hstep

theorem Kept.reaches (hstore : store.Honest drift Holds) (hr : store.Reliable drift)
    (hdigest : Cache.DigestsApart (e.pairs tasks)) (hw : WorldInv e disk Holds tasks w)
    (hkept : e.Kept store w) (h : Reaches e disk store drift w w') : e.Kept store w' := by
  induction h with
  | refl => exact hkept
  | tail hpath hstep ih => exact ih.moves hr (hw.reaches hstore hdigest hpath) hstep

end Engine

/-! ## The store does not show -/

/-- The steps that a render has yet to take, at most. -/
def Phase.left : Phase → Nat
  | .waiting => 3
  | .missed => 2
  | .computed _ _ => 1
  | .finished _ => 0

theorem Phase.left_eq_zero {phase : Phase} (h : phase.left = 0) :
    ∃ outcome, phase = .finished outcome := by
  cases phase with
  | finished outcome => exact ⟨outcome, rfl⟩
  | waiting | missed | computed key content => cases h

namespace Engine

theorem left_advance (e : Engine) (disk : Disk) (store : CacheStore σ) (s : σ) (job : Job) :
    (e.advance disk store s job).2.phase.left ≤ job.phase.left - 1 := by
  cases hphase : job.phase with
  | waiting | missed | computed key content | finished outcome =>
    simp only [advance, hphase]
    repeat' split
    all_goals simp [Phase.left]

/-- A context that holds a number without a notation goes into every render with that number. -/
theorem nonFinite?_effectiveContext {ctx : Context} (hu : Dict.KeysUnique ctx)
    (h : ctx.nonFinite? ≠ none) : (e.effectiveContext ctx).nonFinite? ≠ none := by
  intro hnone
  have hmerged : Context.nonFinite? (e.defaults.merge ctx) = none := by
    simp only [effectiveContext] at hnone
    split at hnone
    · exact Context.nonFinite?_escaped.mp hnone
    · exact hnone
  refine h (Context.nonFinite?_eq_none_iff_forall.mpr fun x hx => ?_)
  exact Context.nonFinite?_eq_none_iff_forall.mp hmerged x (Dict.mem_merge_of_mem hu hx)

/-- What the renders of a world show of the store they share: nothing. -/
structure Transparent (e : Engine) (disk : Disk) (store : CacheStore σ) (drift : σ → σ → Prop)
    (tasks : List (String × Context)) (w : World σ) : Prop where
  /-- The renders are those that were asked for. -/
  same : w.jobs.map (fun job => (job.name, job.ctx)) = tasks
  /-- A render returns what it returns without a cache. -/
  right : ∀ job ∈ w.jobs, ∀ outcome, job.phase = .finished outcome →
    outcome = ({ e with cacheEnabled := false }.render disk store w.store job.name job.ctx).outcome
  /-- A render has returned after three steps, whatever the store does in between. -/
  returns : ∀ job ∈ w.jobs, ∀ s₁ s₂ s₃, ∃ outcome,
    (e.advance disk store s₃ (e.advance disk store s₂
      (e.advance disk store s₁ job).2).2).2.phase = .finished outcome
  /-- The store is never asked about a context with an infinity or what is not a number, nor given
  output of it. -/
  untouched : ∀ job ∈ w.jobs,
    (Dict.KeysUnique job.ctx ∧ job.ctx.nonFinite? ≠ none) ∨
      (e.effectiveContext job.ctx).nonFinite? ≠ none →
    job.lookups = [] ∧ job.puts = []
  /-- Over a reliable store, a render that follows a successful one of the same template and
  context asks no loader. -/
  repeats : store.Reliable drift → e.cacheEnabled = true →
    ∀ job ∈ w.jobs, ∀ content, job.phase = .finished (.ok content) →
    (e.effectiveContext job.ctx).nonFinite? = none →
    ∀ (j : Nat) (again : Job), w.jobs[j]? = some again → again.phase = .waiting →
    again.name = job.name → again.ctx = job.ctx →
    ∀ w', Reaches e disk store drift w w' → ∀ later : Job, w'.jobs[j]? = some later →
    later.requests = []

/-- **A shared store does not show.** Over a store that starts empty and may fail and forget, in
every order of the steps of any number of renders. -/
theorem reaches_transparent (hstore : store.Honest drift Holds) {s₀ : σ}
    (hempty : ∀ key bytes, ¬ Holds s₀ key bytes) (hdigest : Cache.DigestsApart (e.pairs tasks))
    (hw : Reaches e disk store drift (World.start s₀ tasks) w) :
    Transparent e disk store drift tasks w := by
  have hinv : WorldInv e disk Holds tasks w :=
    (WorldInv.start hempty).reaches hstore hdigest hw
  refine ⟨hinv.same, ?_, ?_, ?_, ?_⟩
  · intro job hjob outcome hfin
    have hphase := (hinv.jobs job hjob).phase
    rw [hfin] at hphase
    rw [render_disabled]
    exact hphase
  · intro job hjob s₁ s₂ s₃
    refine Phase.left_eq_zero ?_
    have h₁ := left_advance e disk store s₁ job
    have h₂ := left_advance e disk store s₂ (e.advance disk store s₁ job).2
    have h₃ := left_advance e disk store s₃
      (e.advance disk store s₂ (e.advance disk store s₁ job).2).2
    have h₀ : job.phase.left ≤ 3 := by cases job.phase <;> simp [Phase.left]
    omega
  · intro job hjob hctx
    have hnone : (e.effectiveContext job.ctx).nonFinite? ≠ none := by
      rcases hctx with ⟨hu, hctx⟩ | hctx
      · exact nonFinite?_effectiveContext hu hctx
      · exact hctx
    refine (hinv.jobs job hjob).keyless ?_
    cases hkey : e.key? job.name (e.effectiveContext job.ctx) with
    | none => rfl
    | some key => exact absurd (Cache.key?_eq_ok.mp (key?_eq_some.mp hkey).2).1 hnone
  · intro hr hcache job hjob content hfin hfinite j again hj hwaiting hname hctx w' hw' later hlater
    have hkept : e.Kept store w := by
      have hstart : e.Kept store (World.start s₀ tasks) := by
        intro other hother content' key' hfin'
        obtain ⟨task, -, rfl⟩ := List.mem_map.mp hother
        cases hfin'
      exact hstart.reaches hstore hr hdigest (WorldInv.start hempty) hw
    obtain ⟨key, hkey⟩ : ∃ key, e.key? job.name (e.effectiveContext job.ctx) = some key :=
      ⟨_, key?_eq_some.mpr ⟨hcache, Cache.key?_eq_ok.mpr ⟨hfinite, rfl⟩⟩⟩
    have hserved : e.Served store key j w := by
      refine ⟨hkept job hjob content _ hfin hkey, fun other hother => ?_⟩
      obtain rfl := Option.some.inj (hj.symm.trans hother)
      have hphase := (hinv.jobs again (List.mem_of_getElem? hj)).phase
      rw [hwaiting] at hphase
      exact ⟨hphase, by rw [hname, hctx]; exact hkey, .inl hwaiting⟩
    exact ((hserved.reaches hr hw').idle later hlater).1

/-- A template with one variable. -/
def counter : Engine := { sources := [("page", "n = {n}".toList)] }

/-- Three renders of it, two of them in the same context. -/
def visits : List (String × Context) :=
  [("page", [("n", .int 1)]), ("page", [("n", .int 2)]), ("page", [("n", .int 1)])]

/-- They take their steps over a store that loses its entries after the first and reads nothing from
then on. -/
def outage : World CacheStore.Faulty :=
  let before := counter.play ⟨[], [], none⟩ .faulty [0, 1, 0, 0]
      (World.start ⟨[], true, true⟩ visits)
  counter.play ⟨[], [], none⟩ .faulty [1, 2, 1, 2, 2]
    { before with store := { before.store with entries := [], readable := false } }

theorem reaches_outage :
    Reaches counter ⟨[], [], none⟩ .faulty CacheStore.Faulty.drift
      (World.start ⟨[], true, true⟩ visits) outage :=
  have hdrift : ∀ {s : CacheStore.Faulty}, s.drift { s with entries := [], readable := false } :=
    fun k b h => absurd h (CacheStore.memory_empty k b)
  (reaches_play _).trans (.head (.drift hdrift) (reaches_play _))

/-- Two renders side by side, of which one has returned; the third asks no loader. Where the store
has lost what it was given, it asks again, and returns the same. -/
theorem reaches_transparent_visits :
    (Transparent counter ⟨[], [], none⟩ .memory Eq visits
        (counter.play ⟨[], [], none⟩ .memory [0, 1, 0, 1, 0] (World.start [] visits)) ∧
      (counter.play ⟨[], [], none⟩ .memory [0, 1, 0, 1, 0] (World.start [] visits)).jobs.map
        (·.requests) = [["page"], ["page"], []]) ∧
      Transparent counter ⟨[], [], none⟩ .faulty CacheStore.Faulty.drift visits outage ∧
        outage.jobs.map (·.requests) = [["page"], ["page"], ["page"]] :=
  ⟨⟨reaches_transparent CacheStore.memory_honest CacheStore.memory_empty (by decide +kernel)
      (reaches_play _), by decide +kernel⟩,
    reaches_transparent CacheStore.faulty_honest CacheStore.memory_empty (by decide +kernel)
      reaches_outage, by decide +kernel⟩

end Engine

end Stencil
