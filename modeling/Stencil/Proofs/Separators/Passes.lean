import Stencil.Proofs.Outline.Parallel
import Stencil.Proofs.Separators.Loops
import Stencil.Proofs.Separators.Tags

/-!
# The separators of paths, from pass to pass

Two outlines with followed tags are spelled alike if they are nested alike, with other separators in
their paths. They have the same loops over the same rows, and the same branches of their
conditionals survive. So every pass leaves outlines that are spelled alike, and in the end followed
tags that have been looked up in the same contexts.
-/

namespace Stencil

open Recognizer Outline Delimiters
open List (Forall₂)

/-! ## Pieces that are spelled alike -/

/-- Two pieces that are spelled alike: the same text, or followed tags that have the same texts in
all contexts. Where they are not the same tag, the tag is among those that may be `changed`. -/
inductive Followed.Respelled (σ : Substitution) (changed : Text → Prop) :
    Piece Followed → Piece Followed → Prop where
  /-- The same text. -/
  | text (s : Text) : Respelled σ changed (.plain (.text s)) (.plain (.text s))
  /-- Followed tags. -/
  | tag {body body' : Text} (trail : List Context) (put : ∀ ctx, σ.put? body ctx = σ.put? body' ctx)
    (same : body' = body ∨ changed body) :
    Respelled σ changed (.plain (.tag body trail)) (.plain (.tag body' trail))

namespace Delimiters

variable {d : Delimiters} {legacy : List Text} {body body' : Text}

/-- A word says the same with conditions that say the same. -/
theorem sameChoice_conditionalOf (word : Text) {c c' : Text} (h : SameTruth c c') :
    SameChoice (conditionalOf word c) (conditionalOf word c') := by
  unfold conditionalOf
  split
  · exact .branch (.some h)
  · split
    · exact .branch .none
    · split
      · exact .closing
      · exact .opening h

/-- A tag that is no value is not replaced. -/
theorem Reads.put?_eq_none {σ : Substitution} {x : Profile} (h : σ.delimiters.Reads legacy body x)
    (hx : x.value? = none) (ctx : Context) : σ.put? body ctx = none := by
  rw [Substitution.put?, bind_text?_filter, h.value, hx]
  rfl

namespace ChoiceRespelled

/-- Neither spelling of the tag of a conditional is one of a loop. -/
theorem idle (hd : d.Apart) (h : ChoiceRespelled d legacy body body') :
    Idle d legacy body ∧ Idle d legacy body' := by
  obtain ⟨_, _, _, _, _, hreads, hreads'⟩ := h.reads hd
  exact ⟨hreads.idle rfl rfl rfl rfl, hreads'.idle rfl rfl rfl rfl⟩

/-- Neither spelling of the tag of a conditional is replaced. -/
theorem put?_eq_none {σ : Substitution} (hd : σ.delimiters.Apart)
    (h : ChoiceRespelled σ.delimiters legacy body body') (ctx : Context) :
    σ.put? body ctx = none ∧ σ.put? body' ctx = none := by
  obtain ⟨_, _, _, _, _, hreads, hreads'⟩ := h.reads hd
  exact ⟨hreads.put?_eq_none rfl ctx, hreads'.put?_eq_none rfl ctx⟩

end ChoiceRespelled

end Delimiters

/-- Followed tags are plain, and both spellings of the tags of conditionals say the same. -/
theorem Followed.lawful {σ : Substitution} (hd : σ.delimiters.Apart) (changed : Text → Prop)
    (legacy : List Text) :
    Lawful σ.delimiters (Followed.Respelled σ changed) (ChoiceRespelled σ.delimiters legacy) where
  plain h := by
    cases h with
    | text s => exact ⟨⟨_, rfl⟩, _, rfl⟩
    | tag trail put same => exact ⟨⟨_, rfl⟩, _, rfl⟩
  reads h := by
    obtain ⟨word, c, c', -, htruth, hreads, hreads'⟩ := h.reads hd
    exact ⟨_, _, hreads.conditional, hreads'.conditional, sameChoice_conditionalOf word htruth⟩

/-- Looking up followed tags leaves them spelled alike. -/
theorem Followed.Respelled.lookUp {σ : Substitution} {changed : Text → Prop} {q q' : Piece Followed}
    (h : Followed.Respelled σ changed q q') (ctx : Context) :
    Followed.Respelled σ changed (q.lookUp σ ctx) (q'.lookUp σ ctx) := by
  cases h with
  | text s => exact .text s
  | tag trail put same => exact .tag (trail ++ [ctx]) put same

/-- A tag that closes a legacy loop at one of some paths, if it closes one. -/
def Delimiters.ClosesAt (d : Delimiters) (legacy : List Text) (back : Text) : Prop :=
  ∀ path, reading d d.legacyClosing back = some path → path ∈ legacy

/-- An outline in which legacy loops are closed at some paths only. -/
def Outline.ClosedAt (d : Delimiters) (legacy : List Text) (ps : List (Piece Followed)) : Prop :=
  ∀ back, .tag back ∈ ps → d.ClosesAt legacy back

theorem Outline.closedAt_cons {d : Delimiters} {legacy : List Text} {q : Piece Followed}
    {ps : List (Piece Followed)} :
    ClosedAt d legacy (q :: ps) ↔
      (∀ back, q = .tag back → d.ClosesAt legacy back) ∧ ClosedAt d legacy ps := by
  simp only [ClosedAt, List.mem_cons, or_imp, forall_and, eq_comm]

theorem Outline.closedAt_append {d : Delimiters} {legacy : List Text}
    {ps us : List (Piece Followed)} :
    ClosedAt d legacy (ps ++ us) ↔ ClosedAt d legacy ps ∧ ClosedAt d legacy us := by
  simp only [ClosedAt, List.mem_append, or_imp, forall_and]

namespace Engine

variable {e : Engine} {legacy : List Text} {changed : Text → Prop} {inside : Bool} {c : Context}
  {ps qs us vs : List (Piece Followed)}

/-- Two outlines with followed tags that are spelled alike, given the paths at which legacy loops
are closed. -/
abbrev Respelled (e : Engine) (legacy : List Text) (changed : Text → Prop) :
    Bool → List (Piece Followed) → List (Piece Followed) → Prop :=
  Parallel e.delimiters (Followed.Respelled e.substitution changed) LoopRespelled
    (ChoiceRespelled e.delimiters legacy)

/-- Two outlines with followed tags that are spelled alike, without loops. -/
abbrev RespelledLoopless (e : Engine) (legacy : List Text) (changed : Text → Prop) :
    Bool → List (Piece Followed) → List (Piece Followed) → Prop :=
  Parallel.Loopless e.delimiters (Followed.Respelled e.substitution changed)
    (ChoiceRespelled e.delimiters legacy)

/-- A loop that may be closed. -/
def Closable (legacy : List Text) (head : LoopHead) :
    Prop := head.form = .legacy → head.path ∈ legacy

/-- An outline that is nested as its loops are. -/
abbrev LoopNested (e : Engine) (legacy : List Text) :
    List (Piece Followed) → List (Segment Followed LoopHead) → Prop :=
  WellNested (loopPairing e.delimiters) (Closable legacy) (e.delimiters.ClosesAt legacy)

/-! ## Loops -/

/-- Two segments of outlines that are spelled alike. -/
inductive LoopMatched (e : Engine) (legacy : List Text) (changed : Text → Prop) :
    Segment Followed LoopHead → Segment Followed LoopHead → Prop where
  /-- Pieces. -/
  | piece {q q' : Piece Followed} (related : Followed.Respelled e.substitution changed q q') :
    LoopMatched e legacy changed (.piece q) (.piece q')
  /-- Tags of conditionals. -/
  | choice {body body' : Text} (related : ChoiceRespelled e.delimiters legacy body body') :
    LoopMatched e legacy changed (.piece (.tag body)) (.piece (.tag body'))
  /-- Loops over the same rows. -/
  | pair {form : LoopForm} {p p' front back front' back' : Text} {us vs : List (Piece Followed)}
    (respelled : Path.Respelled p p') (within : e.Respelled legacy changed false us vs) :
    LoopMatched e legacy changed (.pair ⟨form, p⟩ front us back) (.pair ⟨form, p'⟩ front' vs back')

/-- The tag of a conditional belongs to no loop. -/
theorem LoopNested.idle {ss : List (Segment Followed LoopHead)} (h : e.LoopNested legacy ps ss)
    {body : Text} (hbody : Idle e.delimiters legacy body) :
    e.LoopNested legacy (.tag body :: ps) (.piece (.tag body) :: ss) :=
  .other (hbody.ignores fun _ hback => hback) (fun _ ha => opens_eq_false hbody ha) h

/-- The two tags of a loop enclose it. -/
theorem LoopNested.loop {ss ts : List (Segment Followed LoopHead)} (hus : e.LoopNested legacy us ts)
    (hps : e.LoopNested legacy ps ss) {head : LoopHead} {front back : Text}
    (htags : LoopTags e.delimiters head front back) (hback : e.delimiters.ClosesAt legacy back) :
    e.LoopNested legacy (.tag front :: (us ++ .tag back :: ps))
      (.pair head front us back :: ss) := by
  refine .pair htags.heads ⟨fun hform => ?_, ?_⟩ (fun b _ => ?_) hus hps
  · unfold LoopTags at htags
    rw [hform] at htags
    exact hback _ htags.2.legacyClosing
  · rw [(htags.pairing head).2.2.2, head.matches_self]
  · obtain ⟨hopens, hcloses, hopens', hcloses'⟩ := htags.pairing b
    exact ⟨hcloses, hopens', hcloses'.trans hopens.symm⟩

/-- Outlines that are spelled alike fall into segments that match. -/
theorem nested_loops (hd : e.delimiters.Apart) (h : e.Respelled legacy changed inside ps qs)
    (hps : ClosedAt e.delimiters legacy ps) (hqs : ClosedAt e.delimiters legacy qs) :
    ∃ ss ts, e.LoopNested legacy ps ss ∧ e.LoopNested legacy qs ts ∧
      Forall₂ (LoopMatched e legacy changed) ss ts := by
  induction h with
  | nil => exact ⟨[], [], .nil, .nil, .nil⟩
  | leaf hq _ ih =>
    obtain ⟨ss, ts, hss, hts, hmatched⟩ := ih (closedAt_cons.mp hps).2 (closedAt_cons.mp hqs).2
    obtain ⟨⟨p, rfl⟩, p', rfl⟩ := (Followed.lawful (σ := e.substitution) hd changed legacy).plain hq
    exact ⟨_, _, hss.plain p, hts.plain p', .cons (.piece hq) hmatched⟩
  | branch hb _ _ ih =>
    obtain ⟨ss, ts, hss, hts, hmatched⟩ := ih (closedAt_cons.mp hps).2 (closedAt_cons.mp hqs).2
    obtain ⟨hidle, hidle'⟩ := hb.idle hd
    exact ⟨_, _, hss.idle hidle, hts.idle hidle', .cons (.choice hb) hmatched⟩
  | loop hl hwithin _ ih ih' =>
    simp only [closedAt_cons, closedAt_append] at hps hqs
    obtain ⟨ss, ts, hss, hts, -⟩ := ih hps.2.1 hqs.2.1
    obtain ⟨ss', ts', hss', hts', hmatched⟩ := ih' hps.2.2.2 hqs.2.2.2
    obtain ⟨form, p, p', hpath, huse, huse'⟩ := hl.use hd
    exact ⟨_, _, hss.loop hss' huse.tags (hps.2.2.1 _ rfl),
      hts.loop hts' huse'.tags (hqs.2.2.1 _ rfl), .cons (.pair hpath hwithin) hmatched⟩
  | choice ho _ hc _ _ _ ih ih' =>
    simp only [closedAt_cons, closedAt_append] at hps hqs
    obtain ⟨ss, ts, hss, hts, hmatched⟩ := ih hps.2.1 hqs.2.1
    obtain ⟨ss', ts', hss', hts', hmatched'⟩ := ih' hps.2.2.2 hqs.2.2.2
    obtain ⟨hopening, hopening'⟩ := ho.idle hd
    obtain ⟨hclosing, hclosing'⟩ := hc.idle hd
    exact ⟨_, _, LoopNested.idle (hss.append (hss'.idle hclosing)) hopening,
      LoopNested.idle (hts.append (hts'.idle hclosing')) hopening',
      .cons (.choice ho) (List.rel_append hmatched (.cons (.choice hc) hmatched'))⟩

/-- Outlines that are spelled alike have segments that match. -/
theorem segments_loops (hd : e.delimiters.Apart) (h : e.Respelled legacy changed inside ps qs)
    (hps : ClosedAt e.delimiters legacy ps) (hqs : ClosedAt e.delimiters legacy qs) :
    Forall₂ (LoopMatched e legacy changed) (segments (loopPairing e.delimiters) ps)
      (segments (loopPairing e.delimiters) qs) := by
  obtain ⟨ss, ts, hss, hts, hmatched⟩ := nested_loops hd h hps hqs
  rwa [hss.segments_eq hps, hts.segments_eq hqs]

/-- Loops whose paths are spelled alike have the same rows. -/
theorem rows_respelled {p p' : Text} (h : Path.Respelled p p') (form : LoopForm) (c : Context) :
    Loop.rows c ⟨form, p⟩ = Loop.rows c ⟨form, p'⟩ := by
  rw [Loop.rows, Loop.rows, h.resolve? c]

/-! ## What is left when loops are expanded -/

theorem unrolled_nil (c : Context) : e.unrolled c [] = [] := by
  rw [unrolled_eq, segments]
  rfl

theorem unrolled_plain (c : Context) (p : Followed) (ps : List (Piece Followed)) :
    e.unrolled c (.plain p :: ps) = .plain p :: e.unrolled c ps := by
  rw [unrolled_eq, segments, unrolled_eq c ps]
  rfl

/-- A tag of a conditional is left. -/
theorem unrolled_idle (c : Context) {body : Text} (hbody : Idle e.delimiters legacy body)
    (hps : ClosedAt e.delimiters legacy ps) :
    e.unrolled c (.tag body :: ps) = .tag body :: e.unrolled c ps := by
  rw [unrolled_eq, segments_cons_none (pairFrom_of_ignores (hbody.ignores hps)), unrolled_eq c ps]
  rfl

/-- Outlines that are nested one by one are expanded one by one. -/
theorem unrolled_append (c : Context) {ss ts : List (Segment Followed LoopHead)}
    (hss : e.LoopNested legacy ps ss) (hts : e.LoopNested legacy us ts)
    (hps : ClosedAt e.delimiters legacy ps) (hus : ClosedAt e.delimiters legacy us) :
    e.unrolled c (ps ++ us) = e.unrolled c ps ++ e.unrolled c us := by
  rw [unrolled_eq, (hss.append hts).segments_eq (closedAt_append.mpr ⟨hps, hus⟩), unrolled_eq c ps,
    hss.segments_eq hps, unrolled_eq c us, hts.segments_eq hus, List.flatMap_append]

/-- For every row of a loop, the body of the loop is left. -/
theorem unrolled_loop (c : Context) {ss ts : List (Segment Followed LoopHead)}
    (hus : e.LoopNested legacy us ts) (hps : e.LoopNested legacy ps ss) {head : LoopHead}
    {front back : Text} (htags : LoopTags e.delimiters head front back)
    (hclosed : ClosedAt e.delimiters legacy (.tag front :: (us ++ .tag back :: ps))) :
    e.unrolled c (.tag front :: (us ++ .tag back :: ps)) =
      ((Loop.rows c head).zipIdx.flatMap fun row =>
        (chosen e.delimiters (Loop.rowContext head.form c row.2 row.1)
          (e.unrolled (Loop.rowContext head.form c row.2 row.1) us)).map
            (Piece.lookUp e.substitution (Loop.rowContext head.form c row.2 row.1))) ++
              e.unrolled c ps := by
  have hnested := LoopNested.loop hus hps htags (hclosed back (by simp))
  rw [unrolled_eq, hnested.segments_eq hclosed, unrolled_eq c ps,
    hps.segments_eq fun b hb => hclosed b (by simp [hb])]
  rfl

/-- Looking tags up leaves outlines without loops spelled alike. -/
theorem parallel_lookUp (hd : e.delimiters.Apart)
    (h : e.RespelledLoopless legacy changed inside ps qs) (c : Context) :
    e.RespelledLoopless legacy changed inside (ps.map (Piece.lookUp e.substitution c))
      (qs.map (Piece.lookUp e.substitution c)) := by
  refine h.map (fun hq => hq.lookUp c) (fun hl => hl.elim) (fun hb => ?_) (fun _ => id) fun _ => id
  obtain ⟨hnone, hnone'⟩ := hb.put?_eq_none (σ := e.substitution) hd c
  rw [Piece.lookUp, Piece.lookUp, hnone, hnone']
  exact ⟨rfl, rfl⟩

/-- Expanding loops leaves outlines that are spelled alike. -/
theorem parallel_unrolled (hd : e.delimiters.Apart) (h : e.Respelled legacy changed inside ps qs)
    (hps : ClosedAt e.delimiters legacy ps) (hqs : ClosedAt e.delimiters legacy qs) (c : Context) :
    e.RespelledLoopless legacy changed inside (e.unrolled c ps) (e.unrolled c qs) := by
  induction h generalizing c with
  | nil =>
    rw [unrolled_nil]
    exact .nil
  | leaf hq _ ih =>
    have hrest := ih (closedAt_cons.mp hps).2 (closedAt_cons.mp hqs).2 c
    obtain ⟨⟨p, rfl⟩, p', rfl⟩ := (Followed.lawful (σ := e.substitution) hd changed legacy).plain hq
    rw [unrolled_plain, unrolled_plain]
    exact .leaf hq hrest
  | branch hb hr _ ih =>
    rw [closedAt_cons] at hps hqs
    obtain ⟨hidle, hidle'⟩ := hb.idle hd
    rw [unrolled_idle c hidle hps.2, unrolled_idle c hidle' hqs.2]
    exact .branch hb hr (ih hps.2 hqs.2 c)
  | loop hl hwithin hrest ih ih' =>
    obtain ⟨form, p, p', hpath, huse, huse'⟩ := hl.use hd
    have hall := hps
    have hall' := hqs
    simp only [closedAt_cons, closedAt_append] at hps hqs
    obtain ⟨ss, ts, hss, hts, -⟩ := nested_loops hd hwithin hps.2.1 hqs.2.1
    obtain ⟨ss', ts', hss', hts', -⟩ := nested_loops hd hrest hps.2.2.2 hqs.2.2.2
    rw [unrolled_loop c hss hss' huse.tags hall, unrolled_loop c hts hts' huse'.tags hall',
      ← rows_respelled hpath]
    refine Parallel.append (Parallel.flatMap fun row _ => .of_leaves ?_) (ih' hps.2.2.2 hqs.2.2.2 c)
    -- for a row, related pieces are left of the body, and they are looked up
    rw [List.forall₂_map_left_iff, List.forall₂_map_right_iff]
    exact (Parallel.chosen (Followed.lawful (σ := e.substitution) hd changed legacy) _
      (ih hps.2.1 hqs.2.1 _)).imp fun _ _ hq => hq.lookUp _
  | choice ho hr hc he hwithin hrest ih ih' =>
    simp only [closedAt_cons, closedAt_append] at hps hqs
    obtain ⟨hopening, hopening'⟩ := ho.idle hd
    obtain ⟨hclosing, hclosing'⟩ := hc.idle hd
    obtain ⟨ss, ts, hss, hts, -⟩ := nested_loops hd hwithin hps.2.1 hqs.2.1
    obtain ⟨ss', ts', hss', hts', -⟩ := nested_loops hd hrest hps.2.2.2 hqs.2.2.2
    have hback := closedAt_cons.mpr hps.2.2
    have hback' := closedAt_cons.mpr hqs.2.2
    rw [unrolled_idle c hopening (closedAt_append.mpr ⟨hps.2.1, hback⟩),
      unrolled_idle c hopening' (closedAt_append.mpr ⟨hqs.2.1, hback'⟩),
      unrolled_append c hss (hss'.idle hclosing) hps.2.1 hback,
      unrolled_append c hts (hts'.idle hclosing') hqs.2.1 hback',
      unrolled_idle c hclosing hps.2.2.2, unrolled_idle c hclosing' hqs.2.2.2]
    exact .choice ho hr hc he (ih hps.2.1 hqs.2.1 c) (ih' hps.2.2.2 hqs.2.2.2 c)

/-- Rendering outlines that are spelled alike leaves related pieces, one by one. -/
theorem forall₂_rendered (hd : e.delimiters.Apart) (h : e.Respelled legacy changed false ps qs)
    (hps : ClosedAt e.delimiters legacy ps) (hqs : ClosedAt e.delimiters legacy qs) (c : Context) :
    Forall₂ (Followed.Respelled e.substitution changed) (e.rendered c ps) (e.rendered c qs) :=
  Parallel.chosen (Followed.lawful (σ := e.substitution) hd changed legacy) c
    (parallel_lookUp hd (parallel_unrolled hd h hps hqs c) c)

/-! ## Where tags are looked up -/

/-- Related lists have related members. -/
theorem exists_of_mem_right {α β : Type} {R : α → β → Prop} {xs : List α}
    {ys : List β} (h : Forall₂ R xs ys) {y : β} (hy : y ∈ ys) : ∃ x ∈ xs, R x y := by
  induction h with
  | nil => exact absurd hy (by simp)
  | cons hxy _ ih =>
    rcases List.mem_cons.mp hy with rfl | hy
    · exact ⟨_, .head _, hxy⟩
    · obtain ⟨x, hx, hR⟩ := ih hy
      exact ⟨x, .tail _ hx, hR⟩

/-- Where a tag is looked up, so is its other spelling. -/
theorem LooksUp.respelled (hd : e.delimiters.Apart) {body' : Text} {trail : List Context}
    (hup : e.LooksUp c qs body' trail) (h : e.Respelled legacy changed inside ps qs)
    (hps : ClosedAt e.delimiters legacy ps) (hqs : ClosedAt e.delimiters legacy qs) :
    ∃ body, e.LooksUp c ps body trail ∧
      ∀ ctx, e.substitution.put? body ctx = e.substitution.put? body' ctx := by
  induction hup generalizing inside ps with
  | here mem =>
    obtain ⟨x, hx, hmatched⟩ := exists_of_mem_right (segments_loops hd h hps hqs) mem
    cases hmatched with
    | piece related =>
      cases related with
      | tag _ put _ => exact ⟨_, .here hx, put⟩
  | row pair mem _ ih =>
    obtain ⟨x, hx, hmatched⟩ := exists_of_mem_right (segments_loops hd h hps hqs) pair
    cases hmatched with
    | pair hpath hwithin =>
      obtain ⟨body, hup, hput⟩ := ih hwithin (fun b hb => hps b (mem_of_mem_inside hx _ hb))
        fun b hb => hqs b (mem_of_mem_inside pair _ hb)
      exact ⟨body, .row hx (rows_respelled hpath _ _ ▸ mem) hup, hput⟩

/-- Where only good texts are found for followed tags, only good texts are put into either
outline. -/
theorem clean_respelled (hd : e.delimiters.Apart) {good : Text → Prop}
    (h : e.Respelled legacy changed inside ps qs) (hps : ClosedAt e.delimiters legacy ps)
    (hqs : ClosedAt e.delimiters legacy qs) (hfound : ∀ body trail, e.LooksUp c ps body trail →
      ∀ t ∈ trail.findSome? (e.substitution.put? body), good t) :
    e.Clean good c ps ∧ e.Clean good c qs := by
  -- the body of a loop is a shorter outline
  induction hn : ps.length using Nat.strongRecOn generalizing c inside ps qs with
  | ind n ih =>
    have hmatched := segments_loops hd h hps hqs
    -- of tags, those of conditionals are left
    obtain ⟨hleft, hleft'⟩ := (parallel_unrolled hd h hps hqs c).forall_mem
      (A := fun q => ∀ body, q = .tag body → e.substitution.put? body c = none)
      (B := fun q => ∀ body, q = .tag body → e.substitution.put? body c = none)
      (fun hq => by cases hq <;> simp) (fun hl => hl.elim) fun hb => by
        obtain ⟨hnone, hnone'⟩ := hb.put?_eq_none (σ := e.substitution) hd c
        exact ⟨fun _ heq => Piece.tag.inj heq ▸ hnone, fun _ heq => Piece.tag.inj heq ▸ hnone'⟩
    have hrow : ∀ {form p p' front back front' back'} {us vs : List (Piece Followed)},
        .pair ⟨form, p⟩ front us back ∈ segments (loopPairing e.delimiters) ps →
          .pair ⟨form, p'⟩ front' vs back' ∈ segments (loopPairing e.delimiters) qs →
            e.Respelled legacy changed false us vs → ∀ x ∈ (Loop.rows c ⟨form, p⟩).zipIdx,
              e.Clean good (Loop.rowContext form c x.2 x.1) us ∧
                e.Clean good (Loop.rowContext form c x.2 x.1) vs := by
      intro form p p' front back front' back' us vs hpair hpair' hwithin x hx
      refine ih us.length (hn ▸ length_inside_lt hpair) hwithin
        (fun b hb => hps b (mem_of_mem_inside hpair _ hb))
        (fun b hb => hqs b (mem_of_mem_inside hpair' _ hb))
        (fun body trail hup t ht => hfound body _ (.row hpair hx hup) t ?_) rfl
      rw [List.findSome?_append, ht]
      rfl
    constructor
    · refine .of_pairs hfound (fun body hbody t ht => ?_) fun {head front us back} hpair x hx => ?_
      · rw [hleft _ hbody body rfl] at ht
        exact absurd ht (by simp)
      · obtain ⟨y, hy, hxy⟩ := exists_of_mem_right hmatched.flip hpair
        cases hxy with
        | pair hpath hwithin => exact (hrow hpair hy hwithin x hx).1
    · refine .of_pairs (fun body' trail hup t ht => ?_) (fun body hbody t ht => ?_)
        fun {head front vs back} hpair x hx => ?_
      · obtain ⟨body, hup, hput⟩ := hup.respelled hd h hps hqs
        exact hfound body trail hup t (by rwa [funext hput])
      · rw [hleft' _ hbody body rfl] at ht
        exact absurd ht (by simp)
      · obtain ⟨y, hy, hxy⟩ := exists_of_mem_right hmatched hpair
        cases hxy with
        | pair hpath hwithin => exact (hrow hy hpair hwithin x (rows_respelled hpath _ _ ▸ hx)).2

end Engine

end Stencil
