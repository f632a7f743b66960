import Stencil.Proofs.Cache.Fresh
import Stencil.Proofs.Clearing.Struck
import Stencil.Proofs.Composition.Lockstep
import Stencil.Proofs.Composition.Survey
import Stencil.Proofs.Composition.Walk
import Stencil.Proofs.Document.Render

/-!
# Removing tags without a value

An engine may remove the tags that have no value, and it does so wherever it replaces tags: in every
row of a loop, in every partial, and in the whole document. Where no template includes another and
loops hide no value, this comes to the same as removing them from the finished output. A tag that a
partial brings into a loop, though, is removed before the loop gives it its value.
-/

namespace Stencil

open Recognizer Outline

/-! ## Tags without a value -/

/-- Whether the tag of a variable stays in the output: its path is a reserved word, or leads to
something that has no text. -/
def Variable.stands (ctx : Context) (v : Variable) : Bool :=
  reservedWords.any (· = v.path) || (ctx.resolve? v.path).any (!·.isScalar)

namespace Delimiters

/-- A tag of a variable that leads nowhere. -/
def Unresolved (d : Delimiters) (ctx : Context) (body : Text) : Prop :=
  ∃ v ∈ reading d d.variableTag body, reservedWords.any (· = v.path) = false ∧
    ctx.resolve? v.path = none

instance (d : Delimiters) (ctx : Context) (body : Text) : Decidable (d.Unresolved ctx body) :=
  inferInstanceAs (Decidable (∃ v ∈ reading d d.variableTag body, _ ∧ _))

/-- A tag that is none of a variable, or stays in the output. -/
def Stands (d : Delimiters) (ctx : Context) (body : Text) : Prop :=
  ∀ v, reading d d.variableTag body = some v → v.stands ctx = true

/-- A tag that opens no region and includes nothing, and that has no filters and is no tag of a
conditional if it is one of a variable. -/
structure Lone (d : Delimiters) (body : Text) : Prop where
  /-- It opens no region. -/
  region : reading d d.regionOpening body = none
  /-- It includes nothing. -/
  include_ : reading d d.includeTag body = none
  /-- A variable has no filters. -/
  chain : ∀ v ∈ reading d d.variableTag body, v.chain? = none
  /-- A variable is no part of a conditional. -/
  choice : ∀ v ∈ reading d d.variableTag body, reservedWords.any (· = v.path) = false →
    reading d d.conditionalTag body = none

instance (d : Delimiters) (body : Text) : Decidable (d.Lone body) :=
  decidable_of_iff (_ ∧ _ ∧ _ ∧ _)
    ⟨fun h => ⟨h.1, h.2.1, h.2.2.1, h.2.2.2⟩, fun h => ⟨h.region, h.include_, h.chain, h.choice⟩⟩

end Delimiters

namespace Engine

/-- The engine, with tags without a value removed. -/
def clearing (e : Engine) : Engine := { e with clearUnresolved := true }

/-- Removes the tags of variables from a text, but for those that stay. -/
def strike (e : Engine) (ctx : Context) (s : Text) : Text :=
  s.replaceTags e.delimiters.variableTag fun t => if t.content.stands ctx then t.lexeme else []

/-- Every source that an engine can load is made of text and lone tags. -/
def Flat (e : Engine) (disk : Disk) : Prop :=
  ∀ name s, Loader.loadFirst disk e.allLoaders name = .ok s →
    ∃ ps : List (Piece Text), s = write e.delimiters id ps ∧ Tidy e.delimiters id ps ∧
      ∀ body, .tag body ∈ ps → e.delimiters.Lone body

/-- Loops hide no value: a path that leads nowhere in a row leads nowhere outside. -/
def HidesNothing (e : Engine) (disk : Disk) (outer : Context) : Prop :=
  ∀ c, e.Scope disk outer c → ∀ front head x, e.Uses disk front →
    head ∈ (loopPairing e.delimiters).heads front → x ∈ (Loop.rows c head).zipIdx →
      ∀ body, e.Uses disk body →
        e.delimiters.Unresolved (Loop.rowContext head.form c x.2 x.1) body →
          e.delimiters.Unresolved c body

variable {e : Engine} {disk : Disk} {ctx : Context} {full bare : Text}

/-- Tags of sources that have no value. -/
abbrev Missing (e : Engine) (disk : Disk) (ctx : Context) (body : Text) : Prop :=
  e.Uses disk body ∧ e.delimiters.Unresolved ctx body

theorem Flat.lone (hd : e.delimiters.Apart) (h : e.Flat disk) {body : Text}
    (hbody : e.Uses disk body) : e.delimiters.Lone body := by
  obtain ⟨name, s, hload, hfree, hinfix⟩ := hbody.isInfix
  obtain ⟨ps, rfl, htidy, hlone⟩ := h name s hload
  exact hlone body (mem_of_isInfix hd htidy hfree hinfix)

/-! ## One pass -/

/-- What becomes of the tag of a variable without filters: it stays in any case, or has no value, or
has one. -/
theorem text?_cases (hclear : e.clearUnresolved = false) (ctx : Context) {v : Variable}
    (hchain : v.chain? = none) :
    (v.stands ctx = true ∧ e.substitution.text? ctx v = none ∧
      e.clearing.substitution.text? ctx v = none) ∨
    ((reservedWords.any (· = v.path) = false ∧ ctx.resolve? v.path = none) ∧
      e.substitution.text? ctx v = none ∧ e.clearing.substitution.text? ctx v = some []) ∨
    ∃ t, e.substitution.text? ctx v = some t ∧ e.clearing.substitution.text? ctx v = some t := by
  have hfiltered : ∀ (σ : Substitution) value, σ.filtered v.chain? value = value := by
    intro σ value
    rw [hchain]
    rfl
  cases hreserved : reservedWords.any (· = v.path) with
  | true =>
    refine .inl ⟨?_, ?_, ?_⟩
    · rw [Variable.stands, hreserved, Bool.true_or]
    · rw [Substitution.text?, if_pos hreserved]
    · rw [Substitution.text?, if_pos hreserved]
  | false =>
    have hne : ¬ reservedWords.any (· = v.path) = true := by simp [hreserved]
    simp only [Substitution.text?, if_neg hne, hfiltered]
    cases hresolve : ctx.resolve? v.path with
    | none =>
      refine .inr (.inl ⟨⟨trivial, rfl⟩, ?_, ?_⟩)
      · simp only [substitution, hclear]
        rfl
      · rfl
    | some value =>
      cases hscalar : value.isScalar with
      | true =>
        refine .inr (.inr ⟨value.text, ?_, ?_⟩)
        · simp only [hscalar, if_pos]
        · simp only [hscalar, if_pos]
      | false =>
        refine .inl ⟨?_, ?_, ?_⟩
        · simp [Variable.stands, hresolve, hscalar]
        · simp [hscalar]
        · simp [hscalar]

/-- A pass that clears gives the twin of what a pass gives that does not. Of the tags that both
still have, all stay. -/
theorem twins_apply (hd : e.delimiters.Apart) (hclear : e.clearUnresolved = false)
    (hsources : e.Flat disk)
    (hputs : ∀ body v t, e.Uses disk body →
    reading e.delimiters e.delimiters.variableTag body = some v →
      e.substitution.text? ctx v = some t → e.delimiters.Plain t)
    (h : Twins e.delimiters (e.Uses disk) (e.Missing disk ctx) full bare) :
    Twins e.delimiters (fun body => e.Uses disk body ∧ e.delimiters.Stands ctx body)
      (e.Missing disk ctx) (e.substitution.apply full ctx)
        (e.clearing.substitution.apply bare ctx) := by
  obtain ⟨ps, hps, rfl, rfl⟩ := h
  have hfull : e.substitution.apply (write e.delimiters (Remnant.full e.delimiters) ps) ctx =
      ps.flatMap fun q => substituted e.substitution id ctx q.restored := by
    rw [← write_restored]
    exact (apply_write (σ := e.substitution) hd (tidy_restored hps) ctx).trans
      (by rw [List.flatMap_map])
  have hbare : e.clearing.substitution.apply (write e.delimiters Remnant.bare ps) ctx =
      ps.flatMap (substituted e.clearing.substitution Remnant.bare ctx) :=
    apply_write (σ := e.clearing.substitution) hd (tidy_bare hps) ctx
  rw [hfull, hbare]
  refine Twins.flatMap fun q hq => ?_
  have hfits := hps q hq
  have hdelimiters : e.substitution.delimiters = e.delimiters := rfl
  have hdelimiters' : e.clearing.substitution.delimiters = e.delimiters := rfl
  rcases q with ⟨s | body⟩ | body
  · exact Twins.piece (q := .plain (.text s)) hfits
  · -- a struck tag is left alone, as its path still leads nowhere
    obtain ⟨hfree, huse, v, hread, hreserved, hresolve⟩ := hfits
    have hnone : e.substitution.text? ctx v = none := by
      simp [Substitution.text?, hreserved, hresolve, substitution, hclear]
    have hstays : substituted e.substitution id ctx (.tag body) = e.delimiters.enclose body := by
      simp [substituted, hdelimiters, Option.mem_def.mp hread, hnone]
    rw [Piece.restored, hstays]
    exact Twins.piece (q := .plain (.struck body)) ⟨hfree, huse, v, hread, hreserved, hresolve⟩
  · obtain ⟨hfree, huse⟩ := hfits
    rw [Piece.restored]
    cases hread : reading e.delimiters e.delimiters.variableTag body with
    | none =>
      simp only [substituted, hdelimiters, hdelimiters', hread, Option.map_none, Option.getD_none]
      exact Twins.piece (q := .tag body) ⟨hfree, huse, fun v hv => by simp [hread] at hv⟩
    | some v =>
      simp only [substituted, hdelimiters, hdelimiters', hread, Option.map_some, Option.getD_some]
      rcases text?_cases hclear ctx ((hsources.lone hd huse).chain v hread) with
        ⟨hstands, hfull, hbare⟩ | ⟨⟨hreserved, hresolve⟩, hfull, hbare⟩ | ⟨t, hfull, hbare⟩
      · rw [hfull, hbare]
        refine Twins.piece (q := .tag body) ⟨hfree, huse, fun x hx => ?_⟩
        rwa [← Option.some.inj (hread.symm.trans hx)]
      · rw [hfull, hbare]
        exact Twins.piece (q := .plain (.struck body))
          ⟨hfree, huse, v, hread, hreserved, hresolve⟩
      · rw [hfull, hbare]
        exact Twins.piece (q := .plain (.text t)) (hputs body v t huse hread hfull)

/-! ## A whole document -/

/-- The bodies of loops become twins, row by row, and so do texts with loops. -/
theorem twins_expandLoops (hd : e.delimiters.Apart) (hclear : e.clearUnresolved = false)
    (hsources : e.Flat disk) {outer : Context}
    (hputs : ∀ t, e.Puts disk outer t → e.delimiters.Plain t) (hloops : e.HidesNothing disk outer)
    (hctx : e.Scope disk outer ctx) {ps : List (Piece Text)}
    (hps : ∀ q ∈ ps, q.shared.Fits e.delimiters (e.Uses disk) (e.Missing disk ctx)) :
    Twins e.delimiters (e.Uses disk) (e.Missing disk ctx)
      (expandLoops e.delimiters e.renderBody (write e.delimiters id ps) ctx)
      (expandLoops e.delimiters e.clearing.renderBody (write e.delimiters id ps) ctx) := by
  -- the bodies of loops are shorter outlines
  induction hn : ps.length using Nat.strongRecOn generalizing ps ctx with
  | ind n ih =>
    have htidy : Tidy e.delimiters id ps := by
      intro q hq
      cases q with
      | plain s => exact hps _ hq
      | tag body => exact (hps _ hq).1
    rw [expandLoops_write hd _ htidy, expandLoops_write hd _ htidy]
    refine Twins.flatMap fun x hx => ?_
    have hpieces := mem_of_mem_pieces hx
    cases x with
    | piece q =>
      have hfits := hps q (hpieces q (by simp [Segment.pieces]))
      cases q with
      | plain s => exact Twins.piece hfits
      | tag body => exact Twins.piece hfits
    | pair head front inside back =>
      have huse : e.Uses disk front := (hps _ (hpieces (.tag front) (by simp [Segment.pieces]))).2
      have hhead := head_of_mem_segments hx
      have hlt : inside.length < n := hn ▸ length_inside_lt hx
      rw [replaced, replaced]
      refine Twins.flatMap fun x hx => ?_
      have hinner : e.Scope disk outer (Loop.rowContext head.form ctx x.2 x.1) :=
        .row hctx huse hhead hx
      have hinside : ∀ q ∈ inside, q.shared.Fits e.delimiters (e.Uses disk)
          (e.Missing disk (Loop.rowContext head.form ctx x.2 x.1)) := by
        intro q hq
        have hfits := hps q (hpieces q (by simp [Segment.pieces, hq]))
        cases q with
        | plain s => exact hfits
        | tag body => exact hfits
      have hexpanded := ih inside.length hlt hinner hinside rfl
      have hresolved :=
        hexpanded.resolveConditionals hd (Loop.rowContext head.form ctx x.2 x.1) <| by
        rintro body ⟨huse, v, hread, hreserved, -⟩
        exact (hsources.lone hd huse).choice v hread hreserved
      have hrendered := twins_apply hd hclear hsources
        (fun body v t huse hread htext => hputs t ⟨_, body, v, hinner, huse, hread, htext⟩)
          hresolved
      -- what is struck from a row has no value outside either
      exact hrendered.mono (fun body hbody => hbody.1) fun body hbody =>
        ⟨hbody.1, hloops ctx hctx front head x huse hhead hx body hbody.1 hbody.2⟩

/-- What is done to a composed text. -/
theorem twins_process (hd : e.delimiters.Apart) (hclear : e.clearUnresolved = false)
    (hplugins : e.plugins = []) (hsources : e.Flat disk)
    (hputs : ∀ t, e.Puts disk ctx t → e.delimiters.Plain t) (hloops : e.HidesNothing disk ctx)
    {ps : List (Piece Text)}
    (hps : ∀ q ∈ ps, q.shared.Fits e.delimiters (e.Uses disk) (e.Missing disk ctx)) :
    Twins e.delimiters (fun body => e.Uses disk body ∧ e.delimiters.Stands ctx body)
      (e.Missing disk ctx) (e.process ctx true (write e.delimiters id ps))
      (e.clearing.process ctx true (write e.delimiters id ps)) := by
  have hexpanded := twins_expandLoops hd hclear hsources hputs hloops .here hps
  have happlied := twins_apply hd hclear hsources
    (fun body v t huse hread htext => hputs t ⟨_, body, v, .here, huse, hread, htext⟩) hexpanded
  rw [process_eq hplugins, process_eq (e := e.clearing) hplugins]
  exact happlied.resolveConditionals hd ctx fun body ⟨huse, v, hread, hreserved, _⟩ =>
    (hsources.lone hd huse).choice v hread hreserved

/-- Where all tags that are left stay, one twin is the other without the tags that do not. -/
theorem eq_strike_of_twins (hd : e.delimiters.Apart)
    (h : Twins e.delimiters (fun body => e.Uses disk body ∧ e.delimiters.Stands ctx body)
      (e.Missing disk ctx) full bare) : bare = e.strike ctx full := by
  obtain ⟨ps, hps, rfl, rfl⟩ := h
  rw [← write_restored, strike, replaceTags_write hd (Delimiters.delimited_variableTag hd)
    (tidy_restored hps) fun v lexeme => if v.stands ctx then lexeme else [],
      List.flatMap_map, write, List.flatMap_def, List.flatMap_def]
  refine congrArg List.flatten (List.map_congr_left fun q hq => ?_)
  have hfits := hps q hq
  rcases q with ⟨s | body⟩ | body
  · rfl
  · obtain ⟨-, -, v, hread, hreserved, hresolve⟩ := hfits
    have hstands : v.stands ctx = false := by
      rw [Variable.stands, hreserved, hresolve]
      rfl
    simp [Piece.restored, Piece.text, Remnant.bare, Option.mem_def.mp hread, hstands]
  · cases hread : reading e.delimiters e.delimiters.variableTag body with
    | none => simp [Piece.restored, Piece.text, hread]
    | some v => simp [Piece.restored, Piece.text, hread, hfits.2.2 v hread]

/-! ## Composition -/

/-- A flat source is sound, and nothing of it is put aside. -/
theorem Flat.sound (h : e.Flat disk) {name : String} {s : Text}
    (hload : Loader.loadFirst disk e.allLoaders name = .ok s) :
    ∃ ps : List (Piece Text), s = Fragment.source e.delimiters (ps.map .piece) ∧
      Fragment.Sound e.delimiters (ps.map .piece) ∧
      ∀ body, .tag body ∈ ps → e.delimiters.Lone body := by
  obtain ⟨ps, rfl, htidy, hlone⟩ := h name s hload
  exact ⟨ps, (Fragment.source_pieces ps).symm,
    Fragment.sound_pieces (fun _ hs => htidy _ hs) fun body hbody =>
      ⟨htidy _ hbody, (hlone body hbody).region⟩, hlone⟩

/-- Composing a flat template goes on with its source as it is. -/
theorem compose_flat (hd : e.delimiters.Apart) {ps : List (Piece Text)}
    (hsound : Fragment.Sound e.delimiters (ps.map .piece))
    (hlone : ∀ body, .tag body ∈ ps → e.delimiters.Lone body) {name : String}
    (hload : Loader.loadFirst disk e.allLoaders name =
      .ok (Fragment.source e.delimiters (ps.map .piece))) (fuel : Nat) {ancestry : Ancestry}
    (hname : name ∉ ancestry) (definitions : Blocks) (p : Progress) :
    e.compose disk ctx (fuel + 1) ancestry definitions name p =
      e.finish disk ctx fuel (ancestry ++ [name]) definitions (write e.delimiters id ps)
        ⟨p.regions, p.requests ++ [name]⟩ := by
  rw [compose_source ctx hd id ProtectedRegions.placeholder (fun _ => rfl) (fun _ => rfl) hsound
      hload (Fragment.tidy_shelve hd hsound) fuel ancestry definitions p hname,
    Fragment.shelve_pieces, Fragment.contents_pieces, List.append_nil,
    insertAll_write _ fun body hbody => (hlone body hbody).include_]
  rfl

/-- Flat templates are composed alike, whether or not tags without a value are removed. -/
theorem Flat.compose_clearing (hd : e.delimiters.Apart) (h : e.Flat disk) (fuel : Nat) :
    e.clearing.compose disk ctx fuel = e.compose disk ctx fuel := by
  have hdelimiters : e.clearing.delimiters = e.delimiters := rfl
  induction fuel with
  | zero => rfl
  | succ fuel ih =>
    funext ancestry definitions name p
    by_cases hname : name ∈ ancestry
    · rw [compose_succ, if_pos hname, compose_succ, if_pos hname]
    · cases hload : Loader.loadFirst disk e.allLoaders name with
      | error err =>
        have hload' : Loader.loadFirst disk e.clearing.allLoaders name = .error err := hload
        rw [compose_succ, if_neg hname, compose_succ, if_neg hname, request_run, request_run, hload,
          hload']
        simp only [andThen]
      | ok source =>
        -- only partials are processed on the way, and a flat source has none
        obtain ⟨ps, rfl, hsound, hlone⟩ := h.sound hload
        rw [compose_flat hd hsound hlone hload fuel hname,
          compose_flat (e := e.clearing) hd hsound hlone hload fuel hname, finish, finish, ih,
          hdelimiters]

/-- A composed text is made of tags of the sources, and no region has been put aside. -/
theorem Flat.compose_outline (hd : e.delimiters.Apart) (hplugins : e.plugins = [])
    (h : e.Flat disk) (hputs : ∀ t, e.Puts disk ctx t → e.delimiters.Plain t) {fuel : Nat}
    {name : String} {t : Text} {p : Progress}
    (hcompose : e.compose disk ctx fuel [] [] name {} = (.ok t, p)) :
    p.regions = [] ∧ ∃ ps : List (Piece Text), t = write e.delimiters id ps ∧
      ∀ q ∈ ps, q.shared.Fits e.delimiters (e.Uses disk) (e.Missing disk ctx) := by
  have hlibrary : (plainWeave e.delimiters fun body => e.Uses disk body ∧ True).Library e disk
      fun _ => False :=
    { plain := id
      shelved := ProtectedRegions.placeholder
      write_plain := fun _ _ => rfl
      write_shelved := fun _ _ => rfl
      source := by
        intro name s hload
        obtain ⟨ps, rfl, hsound, -⟩ := h.sound hload
        refine ⟨ps.map .piece, rfl, hsound, fun n => ?_, ?_⟩
        · exact Fragment.forall_mem_shelve (fun _ hs => hsound.plain hs) hd.plain_placeholder
            (fun body hbody => ⟨hsound.free hbody, ⟨name, _, hload, hsound, hbody⟩, trivial⟩) n
        · rw [Fragment.contents_pieces]
          simp }
  obtain ⟨p', hregions, hrun⟩ := Weave.lockstep_compose hd hplugins (plainWeave_scopes hputs)
    (c := fun _ => ctx) .here hlibrary fuel [] Weave.definitions_nil name (p := {}) (by simp)
  rcases hrun with ⟨err, herr⟩ | ⟨text, ⟨ps, hps, htext⟩, hok⟩
  · have hrun : (Except.ok t, p) = (Except.error err, p') := hcompose.symm.trans (herr ())
    cases hrun
  · have hrun : (Except.ok t, p) = (Except.ok (text ()), p') := hcompose.symm.trans (hok ())
    obtain ⟨htext', rfl⟩ := Prod.mk.inj hrun
    obtain rfl := Except.ok.inj htext'
    refine ⟨List.eq_nil_iff_forall_not_mem.mpr hregions, ps, htext (), fun q hq => ?_⟩
    cases q with
    | plain s => exact hps _ hq
    | tag body => exact ⟨(hps _ hq).1, (hps _ hq).2.1⟩

/-! ## Renders -/

/-- **Clearing is one policy for the output**, as long as no template includes another and loops
hide no value: a render that removes tags without a value gives what a render gives that leaves
them, with these tags removed at the end. -/
theorem render_clearing {σ : Type} (hd : e.delimiters.Apart) (hcache : e.cacheEnabled = false)
    (hplugins : e.plugins = []) (hclear : e.clearUnresolved = false) (hsources : e.Flat disk)
    (hputs : ∀ t, e.Puts disk (e.effectiveContext ctx) t → e.delimiters.Plain t)
    (hloops : e.HidesNothing disk (e.effectiveContext ctx)) (store : CacheStore σ) (s : σ)
    (name : String) :
    (e.clearing.render disk store s name ctx).outcome =
      (e.render disk store s name ctx).outcome.map (e.strike (e.effectiveContext ctx)) := by
  cases hname : name.toList.all isBlank with
  | true =>
    rw [render_blank store s hname, render_blank store s hname]
    rfl
  | false =>
    -- the flag does not show in composition, so one text is processed in two ways
    have heffective : e.clearing.effectiveContext ctx = e.effectiveContext ctx := rfl
    rw [render_uncached hcache store s hname,
      render_uncached (e := e.clearing) hcache store s hname, heffective]
    have hsame : e.clearing.compose disk (e.effectiveContext ctx) (e.clearing.depthBound disk) [] []
        name {} = e.compose disk (e.effectiveContext ctx) (e.depthBound disk) [] [] name {} :=
      congrArg (fun compose => compose [] [] name {})
        (hsources.compose_clearing hd (e.depthBound disk))
    rcases hcompose : e.compose disk (e.effectiveContext ctx) (e.depthBound disk) [] [] name {} with
      ⟨err | t, p⟩
    · rw [renderFresh_error hcompose, renderFresh_error (hsame.trans hcompose)]
      rfl
    · obtain ⟨hregions, ps, rfl, hps⟩ := hsources.compose_outline hd hplugins hputs hcompose
      rw [renderFresh_ok hcompose, renderFresh_ok (hsame.trans hcompose), hregions]
      exact congrArg Except.ok
        (eq_strike_of_twins hd (twins_process hd hclear hplugins hsources hputs hloops hps))

/-! ## A loop, and a partial in a loop -/

/-- A template that shows a field of every row, and then what there is no value for. -/
def ledger : Engine := single "\x7br in rows\x7d\x7br.x\x7d\x7bend rows\x7d\x7bgap\x7d".toList

/-- The tags of the template. -/
def ledgerTags : List Text := ["r in rows", "r.x", "end rows", "gap"].map String.toList

theorem flat_ledger : ledger.Flat disk := by
  intro name s hload
  refine ⟨ledgerTags.map .tag, loadFirst_single hload, by decide, ?_⟩
  intro body hbody
  have hmem : body ∈ ledgerTags := by simpa using hbody
  have hlone : ∀ body ∈ ledgerTags, ledger.delimiters.Lone body := by decide +kernel
  exact hlone body hmem

theorem uses_ledger {body : Text} (h : ledger.Uses disk body) : body ∈ ledgerTags := by
  obtain ⟨name, s, hload, hfree, hinfix⟩ := h.isInfix
  obtain rfl := loadFirst_single hload
  have htidy : Tidy (P := Text) Delimiters.braces id (ledgerTags.map .tag) := by decide
  simpa using mem_of_isInfix Delimiters.apart_braces htidy hfree hinfix

/-- One row. -/
def ledgerContext : Context := [("rows", .list [.object [("x", .str "1")]])]

/-- The context for the row. -/
def ledgerRow : Context :=
  ledgerContext.set "r" (.object (Loop.bindings 0 (.object [("x", .str "1")])))

/-- The loop leads to the row, from outside and from inside. -/
theorem rowContext_ledger {c : Context} (hc : c = ledgerContext ∨ c = ledgerRow) {front : Text}
    (hfront : ledger.Uses disk front) {head : LoopHead}
    (hhead : head ∈ (loopPairing ledger.delimiters).heads front) {x : Value × Nat}
    (hx : x ∈ (Loop.rows c head).zipIdx) : Loop.rowContext head.form c x.2 x.1 = ledgerRow := by
  have hall : ((ledgerTags.flatMap (loopPairing ledger.delimiters).heads).flatMap fun head =>
      (Loop.rows c head).zipIdx.map fun x => Loop.rowContext head.form c x.2 x.1) =
        [ledgerRow] := by
    rcases hc with rfl | rfl <;> rfl
  have hmem : Loop.rowContext head.form c x.2 x.1 ∈ [ledgerRow] := by
    rw [← hall]
    exact List.mem_flatMap.mpr ⟨head, List.mem_flatMap.mpr ⟨front, uses_ledger hfront, hhead⟩,
      List.mem_map.mpr ⟨x, hx, rfl⟩⟩
  exact List.mem_singleton.mp hmem

theorem scope_ledger {c : Context} (h : ledger.Scope disk ledgerContext c) :
    c = ledgerContext ∨ c = ledgerRow := by
  induction h with
  | here => exact .inl rfl
  | row outside used opens mem ih => exact .inr (rowContext_ledger ih used opens mem)

theorem hidesNothing_ledger : ledger.HidesNothing disk ledgerContext := by
  intro c hc front head x hfront hhead hx body hbody hinner
  rw [rowContext_ledger (scope_ledger hc) hfront hhead hx] at hinner
  have houter : ∀ body ∈ ledgerTags, ledger.delimiters.Unresolved ledgerRow body →
      ledger.delimiters.Unresolved ledgerContext body := by decide +kernel
  rcases scope_ledger hc with rfl | rfl
  · exact houter body (uses_ledger hbody) hinner
  · exact hinner

theorem plain_of_puts_ledger {t : Text} (h : ledger.Puts disk ledgerContext t) :
    ledger.delimiters.Plain t := by
  obtain ⟨c, body, v, hc, hbody, hread, htext⟩ := h
  have hall : ∀ c ∈ [ledgerContext, ledgerRow], ∀ body ∈ ledgerTags,
      ∀ v ∈ reading ledger.delimiters ledger.delimiters.variableTag body,
        ∀ t ∈ ledger.substitution.text? c v, ledger.delimiters.Plain t := by decide +kernel
  have hmem : c ∈ [ledgerContext, ledgerRow] := by simpa using scope_ledger hc
  exact hall c hmem body (uses_ledger hbody) v hread t htext

/-- The gap is removed at the end, or where it stands. -/
theorem render_clearing_ledger :
    (ledger.clearing.render ⟨[], [], none⟩ .memory [] "t" ledgerContext).outcome =
      (ledger.render ⟨[], [], none⟩ .memory [] "t" ledgerContext).outcome.map
        (ledger.strike ledgerContext) :=
  render_clearing Delimiters.apart_braces rfl rfl rfl flat_ledger (fun _ => plain_of_puts_ledger)
    hidesNothing_ledger .memory [] "t"

/-- A loop that includes a template, which shows a field of the row. -/
def included (on : Bool) : Engine :=
  { including .braces "\x7brow in rows\x7d\x7binclude: p\x7d\x7bend rows\x7d".toList
    "\x7brow.x\x7d".toList with clearUnresolved := on }

/-- One row. -/
def includedRows : Context := [("rows", .list [.object [("x", .int 1)]])]

/-- What is left of the partial. -/
def includedBody (on : Bool) : Doc Nat := if on then .nil else .value "row.x".toList none .nil

/-- The document that the loop becomes. -/
def includedDoc (on : Bool) : Doc Nat := .loop ⟨.bound "row", "rows".toList⟩ (includedBody on) .nil

theorem obeys_includedDoc (on : Bool) : (includedDoc on).Obeys (numberedRules .braces []) := by
  have hstep : ∀ c, isNameChar c = true → IsStep [c] := fun c hc => ⟨c, hc, .inl rfl⟩
  have hrows : IsPath "rows".toList :=
    ⟨'r', "ows".toList, rfl, by decide,
      .step (hstep 'o' (by decide))
        (.step (hstep 'w' (by decide)) (.step (hstep 's' (by decide)) .nil))⟩
  have hfield : IsPath "row.x".toList :=
    ⟨'r', "ow.x".toList, rfl, by decide,
      .step (hstep 'o' (by decide)) (.step (hstep 'w' (by decide))
        (.step (w := ['.', 'x']) ⟨'x', by decide, .inr (.inl rfl)⟩ .nil))⟩
  have hname : ∀ c ∈ "ow".toList, isNameChar c = true := List.all_eq_true.mp (by decide)
  refine ⟨⟨⟨hrows, by decide⟩, ⟨'r', "ow".toList, rfl, by decide, fun c hc =>
    isWordChar_of_isNameChar (hname c hc)⟩, by decide⟩, ?_, trivial⟩
  cases on with
  | true => trivial
  | false => exact ⟨⟨⟨hfield, by decide⟩, by simp⟩, trivial⟩

/-- The loop gives the tag of the partial its value, if it is still there. -/
theorem process_includedDoc (on : Bool) :
    (included on).process includedRows true (write .braces id (includedDoc on).pieces) =
      if on then [] else ['1'] := by
  refine (Doc.process_eq_meaning (e := included on) Delimiters.apart_braces rfl
    (List.forall_mem_nil _) (strict_numberedRules .braces []) (obeys_includedDoc on)
    ⟨?_, trivial⟩ true).trans ?_
  · cases on with
    | true => exact fun _ _ => trivial
    | false =>
      have hzip : (Loop.rows includedRows ⟨.bound "row", "rows".toList⟩).zipIdx =
          [(.object [("x", .int 1)], 0)] := rfl
      rw [hzip]
      exact List.forall_mem_cons.mpr ⟨⟨⟨['1'], rfl, by decide⟩, trivial⟩, by simp⟩
  · cases on <;> rfl

/-- The partial is rendered before the loop, and what is left of it is the body of the loop. -/
theorem compose_included (on : Bool) (fuel : Nat) :
    (included on).compose ⟨[], [], none⟩ includedRows (fuel + 2) [] [] "t" {} =
      (.ok (write .braces id (includedDoc on).pieces), ⟨[], ["t", "p"]⟩) := by
  have hpartial : (included on).process includedRows false "\x7brow.x\x7d".toList =
      if on then [] else "\x7brow.x\x7d".toList := by
    rw [process_unclosed rfl (List.isEmpty_iff.mp (by cases on <;> decide +kernel))
      (List.isEmpty_iff.mp (by cases on <;> decide +kernel))]
    cases on <;> decide +kernel
  have hinclude : Tag.scan (included on).delimiters.includeTag
      "\x7brow in rows\x7d\x7binclude: p\x7d\x7bend rows\x7d".toList =
        [⟨13, "\x7binclude: p\x7d".toList, "p", by decide⟩] := by cases on <;> rfl
  have hsplice : Text.splice "\x7brow in rows\x7d\x7binclude: p\x7d\x7bend rows\x7d".toList
      [⟨13, 25, if on then [] else "\x7brow.x\x7d".toList⟩] =
        write .braces id (includedDoc on).pieces := by cases on <;> rfl
  have hbase : Tag.scan (included on).delimiters.baseTag
      (write .braces id (includedDoc on).pieces) = [] :=
    List.isEmpty_iff.mp (by cases on <;> decide +kernel)
  have hblocks : Tag.scan (included on).delimiters.blockClosing
      (write .braces id (includedDoc on).pieces) = [] :=
    List.isEmpty_iff.mp (by cases on <;> decide +kernel)
  refine (compose_including (by decide) rfl (by cases on <;> decide +kernel) hinclude rfl
    (by cases on <;> decide +kernel) (List.isEmpty_iff.mp (by cases on <;> decide +kernel))
    (List.isEmpty_iff.mp (by cases on <;> decide +kernel))
    (List.isEmpty_iff.mp (by cases on <;> decide +kernel)) hpartial fuel).trans ?_
  have hstop : Tag.stop ⟨13, "\x7binclude: p\x7d".toList, "p", by decide⟩ = 25 := rfl
  rw [hstop, hsplice, finish, hbase]
  dsimp only [List.head?_nil]
  rw [Blocks.resolve_unclosed hblocks]

/-- A tag that a partial brings into a loop is removed before the loop gives it its value. -/
theorem render_included :
    ((included false).render ⟨[], [], none⟩ .memory [] "t" includedRows).outcome = .ok ['1'] ∧
      ((included true).render ⟨[], [], none⟩ .memory [] "t" includedRows).outcome = .ok [] := by
  have hrender : ∀ on, ((included on).render ⟨[], [], none⟩ .memory [] "t" includedRows).outcome =
      .ok (if on then [] else ['1']) := by
    intro on
    have heffective : (included on).effectiveContext includedRows = includedRows := rfl
    obtain ⟨n, hn⟩ := (included on).exists_depthBound ⟨[], [], none⟩
    rw [render_uncached rfl _ _ (by decide), heffective,
      renderFresh_ok (hn ▸ compose_included on n), process_includedDoc]
    rfl
  exact ⟨hrender false, hrender true⟩

end Engine

end Stencil
