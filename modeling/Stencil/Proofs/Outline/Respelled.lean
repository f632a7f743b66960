import Stencil.Proofs.Composition.Step
import Stencil.Proofs.Outline.Loops
import Stencil.Proofs.Outline.Matched

/-!
# Other spellings of an outline

A tag can be spelled in many ways. Two tags are alike if every pass of rendering reads them alike:
as values that are replaced by the same texts, as tags of the same loops and of the same
conditionals. An outline whose tags are replaced by tags like them is rendered to the same text, if
no tag is left in that text.

Every pass keeps outlines that are respellings of each other what they are. Of two such outlines
without tags, both are the same.
-/

namespace Stencil

open Recognizer Outline
open List (Forall₂)

/-! ## Rendering an outline segment by segment -/

namespace Engine

variable {e : Engine} {ps : List (Piece Text)}

/-- A row of a loop, with its own loops expanded and rendered on the spot. -/
def rowText (e : Engine) (ctx : Context) (inside : List (Piece Text)) : Text :=
  e.renderBody (expandLoops e.delimiters e.renderBody (write e.delimiters id inside) ctx) ctx

/-- What takes the place of a loop. -/
def rowTexts (e : Engine) (ctx : Context) (head : LoopHead) (inside : List (Piece Text)) : Text :=
  (Loop.rows ctx head).zipIdx.flatMap fun x =>
    e.rowText (Loop.rowContext head.form ctx x.2 x.1) inside

/-- A piece in the place of a segment, which is text where a loop was. -/
def settled (e : Engine) (ctx : Context) : Segment Text LoopHead → Piece Text
  | .piece q => q
  | .pair head _ inside _ => .plain (e.rowTexts ctx head inside)

/-- An outline without its loops. -/
def expanded (e : Engine) (ctx : Context) (ps : List (Piece Text)) : List (Piece Text) :=
  (segments (loopPairing e.delimiters) ps).map (e.settled ctx)

/-- Expanding loops replaces the segments of an outline. -/
theorem expandLoops_eq_write (hd : e.delimiters.Apart) (hps : Tidy e.delimiters id ps)
    (ctx : Context) :
    expandLoops e.delimiters e.renderBody (write e.delimiters id ps) ctx =
      write e.delimiters id (e.expanded ctx ps) := by
  rw [expandLoops_write hd _ hps, write, expanded, List.flatMap_map]
  congr 1
  funext x
  cases x <;> rfl

/-- Every loop of an outline makes text in which no tag starts, and so does every loop in one. -/
inductive Settles (e : Engine) : Context → List (Piece Text) → Prop where
  /-- If it is so for all loops that are not in another. -/
  | of_pairs {ctx : Context} {ps : List (Piece Text)}
    (settles : ∀ {head front inside back},
      .pair head front inside back ∈ segments (loopPairing e.delimiters) ps →
        ∀ x ∈ (Loop.rows ctx head).zipIdx,
          Settles e (Loop.rowContext head.form ctx x.2 x.1) inside)
    (plain : ∀ {head front inside back},
      .pair head front inside back ∈ segments (loopPairing e.delimiters) ps →
        ∀ x ∈ (Loop.rows ctx head).zipIdx,
          e.delimiters.Plain (e.rowText (Loop.rowContext head.form ctx x.2 x.1) inside)) :
    Settles e ctx ps

/-- What a segment must be like in an outline that settles. -/
def SegmentSettles (e : Engine) (ctx : Context) : Segment Text LoopHead → Prop
  | .piece _ => True
  | .pair head _ inside _ => ∀ x ∈ (Loop.rows ctx head).zipIdx,
    e.Settles (Loop.rowContext head.form ctx x.2 x.1) inside ∧
      e.delimiters.Plain (e.rowText (Loop.rowContext head.form ctx x.2 x.1) inside)

theorem Settles.of_segments {ctx : Context}
    (h : ∀ x ∈ segments (loopPairing e.delimiters) ps, e.SegmentSettles ctx x) : e.Settles ctx ps :=
  .of_pairs (fun hpair x hx => (h _ hpair x hx).1) fun hpair x hx => (h _ hpair x hx).2

theorem Settles.tidy {ctx : Context} (h : e.Settles ctx ps) (hps : Tidy e.delimiters id ps) :
    Tidy e.delimiters id (e.expanded ctx ps) := by
  obtain ⟨-, hplain⟩ := h
  intro q hq
  obtain ⟨x, hx, rfl⟩ := List.mem_map.mp hq
  cases x with
  | piece q => exact hps q (mem_of_mem_pieces hx q (by simp [Segment.pieces]))
  | pair head front inside back =>
    intro hmem
    obtain ⟨row, hrow, hmem⟩ := List.mem_flatMap.mp hmem
    exact hplain hx row hrow hmem

end Engine

namespace Outline

/-! ## Tags that are alike -/

/-- Two tags that every pass of rendering reads alike, given the paths at which legacy loops are
closed. -/
structure Alike (σ : Substitution) (legacy : List Text) (body body' : Text) : Prop where
  /-- There is no delimiter in them. -/
  free : σ.delimiters.Free body ∧ σ.delimiters.Free body'
  /-- They are the same tags of conditionals. -/
  conditional : reading σ.delimiters σ.delimiters.conditionalTag body =
    reading σ.delimiters σ.delimiters.conditionalTag body'
  /-- They are replaced by the same texts. -/
  value : ∀ ctx, (reading σ.delimiters σ.delimiters.variableTag body).bind (σ.text? ctx) =
    (reading σ.delimiters σ.delimiters.variableTag body').bind (σ.text? ctx)
  /-- They open the same bound loops. -/
  opening : reading σ.delimiters σ.delimiters.loopOpening body =
    reading σ.delimiters σ.delimiters.loopOpening body'
  /-- They open the same legacy loops, of those that are closed. -/
  legacyOpening : ∀ {head}, head.path ∈ legacy →
    (reading σ.delimiters σ.delimiters.legacyOpening body = some head ↔
      reading σ.delimiters σ.delimiters.legacyOpening body' = some head)
  /-- They close the same bound loops. -/
  closing : reading σ.delimiters σ.delimiters.loopClosing body =
    reading σ.delimiters σ.delimiters.loopClosing body'
  /-- They close the same legacy loops. -/
  legacyClosing : reading σ.delimiters σ.delimiters.legacyClosing body =
    reading σ.delimiters σ.delimiters.legacyClosing body'
  /-- The loops they close are among those that are closed. -/
  closed : ∀ {path}, reading σ.delimiters σ.delimiters.legacyClosing body = some path →
    path ∈ legacy

/-- Two outlines that are the same but for how their tags are spelled. -/
abbrev Respelled (σ : Substitution) (legacy : List Text) :
    List (Piece Text) → List (Piece Text) → Prop :=
  Forall₂ (Matched (Alike σ legacy))

/-- Whether a loop may be closed, given the paths at which legacy loops are. -/
def LoopHead.live (legacy : List Text) (head : LoopHead) : Bool :=
  match head.form with
  | .bound _ => true
  | .legacy => legacy.contains head.path

variable {σ : Substitution} {legacy : List Text} {ps qs : List (Piece Text)}

theorem respects_choices :
    (choicePairing σ.delimiters).Respects (fun _ => true) (Alike σ legacy) where
  heads h := by simp only [choicePairing, h.conditional]
  opens _ h := by simp only [choicePairing, opensChoice, h.conditional]
  closes _ h := by simp only [choicePairing, closesChoice, h.conditional]
  dead h := absurd h (by simp)

theorem LoopHead.mem_of_live {head : LoopHead} (hform : head.form = .legacy)
    (h : LoopHead.live legacy head = true) : head.path ∈ legacy := by
  simpa [LoopHead.live, hform] using h

/-- Tags that are alike open the same legacy loops that may be closed. -/
theorem Alike.legacyHeads {body body' : Text} (h : Alike σ legacy body body') :
    (reading σ.delimiters σ.delimiters.legacyOpening body).toList.filter (LoopHead.live legacy) =
      (reading σ.delimiters σ.delimiters.legacyOpening body').toList.filter
        (LoopHead.live legacy) := by
  have hfilter : ∀ o : Option LoopHead,
      o.toList.filter (LoopHead.live legacy) = (o.filter (LoopHead.live legacy)).toList := by
    intro o
    cases o with
    | none => rfl
    | some head => cases hlive : LoopHead.live legacy head <;> simp [Option.filter, hlive]
  rw [hfilter, hfilter]
  congr 1
  ext head
  rw [Option.filter_eq_some_iff, Option.filter_eq_some_iff]
  constructor
  · rintro ⟨hr, hlive⟩
    exact ⟨(h.legacyOpening (LoopHead.mem_of_live (legacy_of_reading hr) hlive)).mp hr, hlive⟩
  · rintro ⟨hr, hlive⟩
    exact ⟨(h.legacyOpening (LoopHead.mem_of_live (legacy_of_reading hr) hlive)).mpr hr, hlive⟩

/-- The path of a legacy loop says all of it. -/
theorem reading_loopOpen_legacy {d : Delimiters} {body path : Text} :
    reading d (loopOpen d .legacy) body = some path ↔
      reading d d.legacyOpening body = some ⟨.legacy, path⟩ := by
  rw [loopOpen, reading_map, Option.map_eq_some_iff]
  constructor
  · rintro ⟨⟨form, path⟩, hr, rfl⟩
    obtain rfl : form = .legacy := legacy_of_reading hr
    exact hr
  · exact fun hr => ⟨_, hr, rfl⟩

theorem respects_loops :
    (loopPairing σ.delimiters).Respects (LoopHead.live legacy) (Alike σ legacy) where
  heads h := by
    simp only [loopPairing, List.filter_append, h.opening, h.legacyHeads]
  opens {a body body'} ha h := by
    obtain ⟨form, path⟩ := a
    simp only [loopPairing, readsAs]
    refine decide_eq_decide.mpr ?_
    cases form with
    | bound name => rw [loopOpen, reading_map, reading_map, h.opening]
    | legacy =>
      rw [reading_loopOpen_legacy, reading_loopOpen_legacy]
      exact h.legacyOpening (LoopHead.mem_of_live rfl ha)
  closes {a body body'} _ h := by
    simp only [loopPairing, readsAs]
    refine decide_eq_decide.mpr ?_
    cases a.form with
    | bound name => rw [loopClose, h.closing]
    | legacy => rw [loopClose, h.legacyClosing]
  dead {a body body'} ha h := by
    obtain ⟨form, path⟩ := a
    obtain rfl : form = .legacy := by
      cases form with
      | bound name => exact absurd ha (by simp [LoopHead.live])
      | legacy => rfl
    -- a legacy loop outside the paths would have to be closed by a tag whose path is one of them
    have hpath : path ∉ legacy := by simpa [LoopHead.live] using ha
    have hnot : reading σ.delimiters σ.delimiters.legacyClosing body ≠ some path :=
      fun hr => hpath (h.closed hr)
    simp only [loopPairing, readsAs, loopClose, ← h.legacyClosing]
    simp [hnot]

namespace Respelled

/-- A respelling of a tidy outline is tidy. -/
theorem tidy (h : Respelled σ legacy ps qs) (hps : Tidy σ.delimiters id ps) :
    Tidy σ.delimiters id qs := by
  induction h with
  | nil => exact hps
  | cons hq _ ih =>
    refine List.forall_mem_cons.mpr ⟨?_, ih hps.tail⟩
    cases hq with
    | plain s => exact hps.head
    | tag hb => exact hb.free.2

/-- If no tag is left, nothing is spelled in another way. -/
theorem eq_of_plain (h : Respelled σ legacy ps qs)
    (hplain : σ.delimiters.Plain (write σ.delimiters id ps)) :
    ps = qs := by
  induction h with
  | nil => rfl
  | cons hq _ ih =>
    rw [write_cons, Delimiters.plain_append] at hplain
    cases hq with
    | plain s => exact congrArg _ (ih hplain.2)
    | @tag body body' _ =>
      refine absurd ?_ hplain.1
      rw [Piece.text, Delimiters.enclose]
      exact List.mem_append_left _ σ.delimiters.mark_mem

end Respelled

/-! ## Replacing values -/

/-- A piece, or the text of the value that it stands for. -/
def replacedValue (σ : Substitution) (ctx : Context) : Piece Text → Piece Text
  | .plain s => .plain s
  | .tag body =>
    match (reading σ.delimiters σ.delimiters.variableTag body).bind (σ.text? ctx) with
    | some t => .plain t
    | none => .tag body

/-- No tag starts in the values of an outline. -/
def Fills (σ : Substitution) (ctx : Context) (ps : List (Piece Text)) : Prop :=
  ∀ body, .tag body ∈ ps → ∀ t,
    (reading σ.delimiters σ.delimiters.variableTag body).bind (σ.text? ctx) = some t →
      σ.delimiters.Plain t

theorem apply_eq_write (hd : σ.delimiters.Apart) (hps : Tidy σ.delimiters id ps) (ctx : Context) :
    σ.apply (write σ.delimiters id ps) ctx =
      write σ.delimiters id (ps.map (replacedValue σ ctx)) := by
  rw [apply_write hd hps, write, List.flatMap_map]
  congr 1
  funext q
  cases q with
  | plain s => rfl
  | tag body =>
    rw [substituted, replacedValue]
    cases reading σ.delimiters σ.delimiters.variableTag body with
    | none => rfl
    | some v =>
      rw [Option.map_some, Option.getD_some, Option.bind_some]
      cases σ.text? ctx v <;> rfl

theorem Fills.tidy {ctx : Context} (h : Fills σ ctx ps) (hps : Tidy σ.delimiters id ps) :
    Tidy σ.delimiters id (ps.map (replacedValue σ ctx)) := by
  intro q' hq'
  obtain ⟨q, hq, rfl⟩ := List.mem_map.mp hq'
  cases q with
  | plain s => exact hps _ hq
  | tag body =>
    rw [replacedValue]
    split
    · exact h body hq _ ‹_›
    · exact hps _ hq

theorem Respelled.replacedValue (h : Respelled σ legacy ps qs) (ctx : Context) :
    Respelled σ legacy (ps.map (replacedValue σ ctx)) (qs.map (Outline.replacedValue σ ctx)) := by
  refine List.rel_map (fun q q' hq => ?_) h
  cases hq with
  | plain s => exact .plain s
  | tag hb =>
    rw [Outline.replacedValue, Outline.replacedValue, ← hb.value ctx]
    split
    · exact .plain _
    · exact .tag hb

/-! ## Resolving conditionals -/

/-- Resolving the conditionals of two spellings leaves two spellings of what is left. -/
theorem Respelled.resolve (hd : σ.delimiters.Apart) (ctx : Context) (h : Respelled σ legacy ps qs)
    (hps : Tidy σ.delimiters id ps) :
    ∃ us vs, Respelled σ legacy us vs ∧ (∀ q ∈ us, q ∈ ps) ∧
      resolveConditionals σ.delimiters ctx (write σ.delimiters id ps) = write σ.delimiters id us ∧
      resolveConditionals σ.delimiters ctx (write σ.delimiters id qs) =
        write σ.delimiters id vs := by
  -- the branches of conditionals are shorter outlines
  induction hn : ps.length using Nat.strongRecOn generalizing ps qs with
  | ind n ih =>
    rw [resolveConditionals_write hd ctx hps, resolveConditionals_write hd ctx (h.tidy hps)]
    have hpieces : ∀ x ∈ segments (choicePairing σ.delimiters) ps, ∀ q ∈ x.pieces, q ∈ ps :=
      fun x hx => mem_of_mem_pieces hx
    have hlength : ∀ a front inside back,
        .pair a front inside back ∈ segments (choicePairing σ.delimiters) ps → inside.length < n :=
      fun _ _ _ _ hx => hn ▸ length_inside_lt hx
    have hsegments := segments_matched respects_choices h
    generalize segments (choicePairing σ.delimiters) ps = xs at hsegments hpieces hlength ⊢
    generalize segments (choicePairing σ.delimiters) qs = ys at hsegments ⊢
    induction hsegments with
    | nil => exact ⟨[], [], .nil, by simp, rfl, rfl⟩
    | @cons x y xs ys hxy _ ihs =>
      obtain ⟨us, vs, huv, hus, hu, hv⟩ := ihs (fun x hx => hpieces x (by simp [hx]))
        fun a front inside back hx => hlength a front inside back (by simp [hx])
      rw [List.flatMap_cons, List.flatMap_cons, hu, hv]
      have hx := hpieces x (by simp)
      cases hxy with
      | @piece q q' hq =>
        refine ⟨q :: us, q' :: vs, .cons hq huv, List.forall_mem_cons.mpr ⟨?_, hus⟩, ?_, ?_⟩
        · exact hx q (by simp [Segment.pieces])
        · rw [write_cons]; rfl
        · rw [write_cons]; rfl
      | @pair condition front front' back back' inside inside' _ hinside _ =>
        have hsurvivor := survivor_matched ctx
          (branches_matched (fun h => h.conditional) hinside 0 (some condition) .nil)
        simp only [replaced]
        generalize hb : survivor ctx (branches σ.delimiters 0 (some condition) [] inside) =
          b at hsurvivor
        generalize survivor ctx (branches σ.delimiters 0 (some condition) [] inside') =
          b' at hsurvivor
        cases hsurvivor with
        | none => exact ⟨us, vs, huv, hus, rfl, rfl⟩
        | @some branch branch' hbranch =>
          obtain ⟨condition?, hmem⟩ := survivor_mem hb
          have hof := branchOf_of_mem hmem
          have hsub : ∀ q ∈ branch, q ∈ ps := fun q hq =>
            hx q (by
              rcases hof.pieces q hq with hq | hq
              · exact absurd hq (by simp)
              · simp [Segment.pieces, hq])
          have hlt : branch.length < n := by
            have := hlength condition front inside back (by simp)
            have := hof.length
            simp only [List.length_nil, Nat.zero_add] at this
            omega
          obtain ⟨us', vs', huv', hus', hu', hv'⟩ :=
            ih branch.length hlt hbranch (fun q hq => hps q (hsub q hq)) rfl
          refine ⟨us' ++ us, vs' ++ vs, List.rel_append huv' huv,
            List.forall_mem_append.mpr ⟨fun q hq => hsub q (hus' q hq), hus⟩, ?_, ?_⟩
          · rw [write_append, Option.map_some, Option.getD_some, hu']
          · rw [write_append, Option.map_some, Option.getD_some, hv']

end Outline

/-! ## Rendering -/

namespace Outline.Respelled

variable {e : Engine} {legacy : List Text} {ps qs : List (Piece Text)} {ctx : Context}

/-- The body of a loop is rendered to the same text, if no tag is left. -/
theorem renderBody (hd : e.delimiters.Apart) (h : Respelled e.substitution legacy ps qs)
    (hps : Tidy e.delimiters id ps)
    (hplain : e.delimiters.Plain (e.renderBody (write e.delimiters id ps) ctx)) :
    e.renderBody (write e.delimiters id qs) ctx = e.renderBody (write e.delimiters id ps) ctx := by
  obtain ⟨us, vs, huv, hus, hu, hv⟩ := h.resolve (σ := e.substitution) hd ctx hps
  have htidy : Tidy e.delimiters id us := fun q hq => hps q (hus q hq)
  have hfillu := apply_eq_write (σ := e.substitution) hd htidy ctx
  have hfillv := apply_eq_write (σ := e.substitution) hd (huv.tidy htidy) ctx
  have hrender : e.renderBody (write e.delimiters id ps) ctx =
      write e.delimiters id (us.map (Outline.replacedValue e.substitution ctx)) :=
    (congrArg (e.substitution.apply · ctx) hu).trans hfillu
  rw [hrender] at hplain ⊢
  rw [(huv.replacedValue ctx).eq_of_plain hplain]
  exact (congrArg (e.substitution.apply · ctx) hv).trans hfillv

/-- Loops are expanded alike, if they settle. -/
theorem expanded (hd : e.delimiters.Apart) (h : Respelled e.substitution legacy ps qs)
    (hps : Tidy e.delimiters id ps) (hsettles : e.Settles ctx ps) :
    Respelled e.substitution legacy (e.expanded ctx ps) (e.expanded ctx qs) := by
  induction hsettles generalizing qs with
  | @of_pairs ctx ps hsettles hplain ih =>
    -- both spellings of a loop make the same text
    have hrows : ∀ {head front inside back},
        .pair head front inside back ∈ segments (loopPairing e.delimiters) ps →
          ∀ inside', Respelled e.substitution legacy inside inside' →
            e.rowTexts ctx head inside' = e.rowTexts ctx head inside := by
      intro head front inside back hpair inside' hinside
      have htidy : Tidy e.delimiters id inside := fun q hq =>
        hps q (mem_of_mem_pieces hpair q (by simp [Segment.pieces, hq]))
      refine congrArg List.flatten (List.map_congr_left fun x hx => ?_)
      have hrow := hplain hpair x hx
      have hbody := hsettles hpair x hx
      have hexpand := ih hpair x hx hinside htidy
      generalize Loop.rowContext head.form ctx x.2 x.1 = inner at hrow hbody hexpand ⊢
      rw [Engine.rowText, Engine.expandLoops_eq_write hd htidy] at hrow
      rw [Engine.rowText, Engine.rowText, Engine.expandLoops_eq_write hd htidy,
        Engine.expandLoops_eq_write hd (tidy (σ := e.substitution) hinside htidy)]
      exact renderBody hd hexpand (hbody.tidy htidy) hrow
    have hsegments : Forall₂ (SegmentMatched (Alike e.substitution legacy))
        (segments (loopPairing e.delimiters) ps) (segments (loopPairing e.delimiters) qs) :=
      segments_matched (respects_loops (σ := e.substitution)) h
    rw [Engine.expanded, Engine.expanded]
    clear hsettles hplain ih
    generalize segments (loopPairing e.delimiters) ps = xs at hrows hsegments ⊢
    generalize segments (loopPairing e.delimiters) qs = ys at hsegments ⊢
    induction hsegments with
    | nil => exact .nil
    | cons hxy _ ihs =>
      refine .cons ?_ (ihs fun hmem => hrows (List.mem_cons_of_mem _ hmem))
      cases hxy with
      | piece hq => exact hq
      | @pair head _ _ _ _ _ inside' _ hinside _ =>
        rw [Engine.settled, Engine.settled, hrows List.mem_cons_self inside' hinside]
        exact .plain _

/-- Rendering gives the same text for every spelling, if its loops settle, no tag starts in its
values, and no tag is left. -/
theorem process (hd : e.delimiters.Apart) (hplugins : e.plugins = [])
    (h : Respelled e.substitution legacy ps qs) (hps : Tidy e.delimiters id ps)
    (hsettles : e.Settles ctx ps) (hfills : Fills e.substitution ctx (e.expanded ctx ps))
    {isDocument : Bool}
    (hplain : e.delimiters.Plain (e.process ctx isDocument (write e.delimiters id ps))) :
    e.process ctx isDocument (write e.delimiters id qs) =
      e.process ctx isDocument (write e.delimiters id ps) := by
  -- loops, values and conditionals leave respellings, and the last of them have no tags
  have hexpanded := h.expanded hd hps hsettles
  have htidy := hsettles.tidy hps
  have htidy' := tidy (σ := e.substitution) hexpanded htidy
  obtain ⟨us, vs, huv, -, hu, hv⟩ :=
    (hexpanded.replacedValue ctx).resolve (σ := e.substitution) hd ctx
    (hfills.tidy htidy)
  have hprocess : ∀ {ps : List (Piece Text)}, Tidy e.delimiters id ps →
      Tidy e.delimiters id (e.expanded ctx ps) →
        e.process ctx isDocument (write e.delimiters id ps) = resolveConditionals e.delimiters ctx
          (write e.delimiters id
          ((e.expanded ctx ps).map (Outline.replacedValue e.substitution ctx))) := by
    intro ps hps hexpanded
    rw [Engine.process_eq hplugins, Engine.expandLoops_eq_write hd hps]
    exact congrArg _ (apply_eq_write (σ := e.substitution) hd hexpanded ctx)
  have hps' := (hprocess hps htidy).trans hu
  rw [hps'] at hplain ⊢
  rw [(hprocess (tidy (σ := e.substitution) h hps) htidy').trans hv, huv.eq_of_plain hplain]

end Outline.Respelled

end Stencil
