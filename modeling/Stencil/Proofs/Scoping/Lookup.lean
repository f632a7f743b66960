import Stencil.Proofs.Composition.Step
import Stencil.Proofs.Document.Readings
import Stencil.Proofs.Outline.Concealed

/-!
# Where tags of variables are looked up

A tag in the body of a loop is looked up in the context of a row, and if it has no text there it is
left for the loop around, and then for the document. Such a tag is followed from pass to pass: its
trail are the contexts in which it has been looked up, from the inside out. To every pass a followed
tag is what a text in its place would be, whatever its trail, and what the pass does about it
depends on the trail alone: the first context on it that has a text for the tag puts that in its
place.
-/

namespace Stencil

open Recognizer Outline

/-- What a context puts in the place of a tag, if it has a text for it. -/
def Substitution.put? (σ : Substitution) (body : Text) (ctx : Context) : Option Text :=
  (reading σ.delimiters σ.delimiters.variableTag body).bind (σ.text? ctx)

/-- Plain content of an outline in which tags are followed. -/
inductive Followed where
  /-- Text. -/
  | text (s : Text)
  /-- A tag, by what stands between its delimiters, with the contexts in which it has been looked
  up. -/
  | tag (body : Text) (trail : List Context)

namespace Followed

/-- A followed tag is there to see, or what the first context on its trail that has a text puts in
its place. -/
def shown (σ : Substitution) : Followed → Piece Text
  | .text s => .plain s
  | .tag body trail =>
    match trail.findSome? (σ.put? body) with
    | some t => .plain t
    | none => .tag body

/-- Followed tags are covered by texts. -/
def covered (f : Text → Text) : Followed → Piece Text
  | .text s => .plain s
  | .tag body _ => .plain (f body)

/-- How followed tags may be seen: as what has become of them, or as texts that have been put in
their places from the start. -/
inductive Seen (σ : Substitution) (good : Text → Prop) : (Followed → Piece Text) → Prop where
  /-- As what has become of them. -/
  | shown : Seen σ good (shown σ)
  /-- As texts. -/
  | covered {f : Text → Text} (texts : ∀ body, good (f body)) : Seen σ good (covered f)

theorem Seen.text {σ : Substitution} {good : Text → Prop} {r : Followed → Piece Text}
    (h : Seen σ good r) (s : Text) : r (.text s) = .plain s := by
  cases h <;> rfl

end Followed

/-- A piece of an outline before any pass, given the paths at which legacy loops are closed. A
followed tag is a value, and opens none of these loops. -/
def Piece.Fresh (d : Delimiters) (legacy : List Text) : Piece Followed → Prop
  | .plain (.text s) => d.Plain s
  | .plain (.tag body trail) => trail = [] ∧ ∃ v, d.Reads legacy body { value? := some v }
  | .tag body => d.Free body ∧ ∀ path, reading d d.legacyClosing body = some path → path ∈ legacy

namespace Piece.Fresh

variable {d : Delimiters} {legacy : List Text} {σ : Substitution} {good : Text → Prop}
  {r : Followed → Piece Text}

theorem tidy {q : Piece Followed} (hgood : ∀ t, good t → d.Plain t) (h : q.Fresh d legacy)
    (hr : Followed.Seen σ good r) : (q.bind r).Tidy d id := by
  rcases q with ⟨s | ⟨body, trail⟩⟩ | body
  · cases hr <;> exact h
  · obtain ⟨rfl, v, hreads⟩ := h
    cases hr with
    | shown => exact hreads.free
    | covered texts => exact hgood _ (texts body)
  · exact h.1

/-- Plain content that is seen as a tag is a value. -/
theorem reads {p : Followed} {body : Text} (h : (Piece.plain p).Fresh d legacy)
    (hr : Followed.Seen σ good r) (hbody : r p = .tag body) :
    ∃ v, d.Reads legacy body { value? := some v } := by
  cases p with
  | text s => cases hr <;> exact absurd hbody (by simp [Followed.shown, Followed.covered])
  | tag body' trail =>
    obtain ⟨rfl, hreads⟩ := h
    cases hr with
    | shown => exact Piece.tag.inj hbody ▸ hreads
    | covered texts => exact absurd hbody (by simp [Followed.covered])

end Piece.Fresh

/-- Blocks ignore values. -/
theorem Delimiters.Reads.ignores_blocks {d : Delimiters} (hd : d.Apart)
    {legacy : List Text} {body : Text} {v : Variable} (h : d.Reads legacy body { value? := some v })
    (tags : Text → Prop) :
    (blockPairing d).Ignores tags body := by
  obtain ⟨hread, hpath⟩ := Option.filter_eq_some_iff.mp h.value
  constructor
  · intro name
    refine Bool.eq_false_iff.mpr fun hcloses => (of_decide_eq_true hpath) ?_
    refine reserved_of_composition hd h.free (.inr (.inr (.inr ?_))) hread
    simpa [blockPairing, readsAs] using hcloses
  · intro name hopens
    simp [blockPairing, readsAs, reading_map, h.silent.block] at hopens

/-- Loops ignore a tag that neither opens nor closes one. -/
theorem Idle.ignores {d : Delimiters} {legacy : List Text} {body : Text} (h : Idle d legacy body)
    {tags : Text → Prop}
    (htags : ∀ back, tags back → ∀ path, reading d d.legacyClosing back = some path →
      path ∈ legacy) :
    (loopPairing d).Ignores tags body where
  closes := closes_eq_false h
  opens a ha back hback := by
    refine Bool.eq_false_iff.mpr fun hc => ?_
    have hpath : a.form = .legacy → a.path ∈ legacy := fun hform =>
      htags back hback _ (by simpa [loopPairing, loopClose, hform, readsAs] using hc)
    rcases ha with ho | hmem
    · rw [opens_eq_false h hpath] at ho
      exact absurd ho (by simp)
    · obtain ⟨hform, hnot⟩ := h.heads a hmem
      exact hnot (hpath hform)

/-- A tag that is not one of a loop that is closed is idle. -/
theorem Delimiters.Reads.idle {d : Delimiters} {legacy : List Text} {body : Text} {x : Profile}
    (h : d.Reads legacy body x) (hopening : x.opening? = none) (hlegacy : x.legacyOpening? = none)
    (hclosing : x.closing? = none) (hlegacyClosing : x.legacyClosing? = none) :
    Idle d legacy body where
  heads a ha := by
    have hread : reading d d.legacyOpening body = some a := by
      simpa [loopPairing, h.opening, hopening] using ha
    refine ⟨legacy_of_reading hread, fun hmem => ?_⟩
    exact absurd ((h.legacyOpening hmem).mp hread) (by simp [hlegacy])
  closing := h.closing.trans hclosing
  legacyClosing := h.legacyClosing.trans hlegacyClosing

/-- Loops ignore a value that opens none of those that are closed. -/
theorem Delimiters.Reads.ignores_loops {d : Delimiters} {legacy : List Text}
    {body : Text} {v : Variable} (h : d.Reads legacy body { value? := some v }) {tags : Text → Prop}
    (htags : ∀ back, tags back → ∀ path, reading d d.legacyClosing back = some path →
      path ∈ legacy) :
    (loopPairing d).Ignores tags body :=
  (h.idle rfl rfl rfl rfl).ignores htags

namespace Engine

variable {e : Engine} {good : Text → Prop} {ctx c : Context} {legacy : List Text}
  {ps : List (Piece Followed)} {body : Text} {trail : List Context}

/-- Tags are replaced by good texts only: in a context, and for the rows of loops in the contexts
that these make. -/
inductive Tame (e : Engine) (good : Text → Prop) : Context → List (Piece Followed) → Prop where
  /-- If it is so in the context, and for all rows of the loops that are not in another. -/
  | of_pairs {ctx : Context} {ps : List (Piece Followed)}
    (here : ∀ body, .tag body ∈ ps ∨ .plain (.tag body []) ∈ ps →
      ∀ t ∈ e.substitution.put? body ctx, good t)
    (rows : ∀ {head front inside back},
      .pair head front inside back ∈ segments (loopPairing e.delimiters) ps →
        ∀ x ∈ (Loop.rows ctx head).zipIdx,
        Tame e good (Loop.rowContext head.form ctx x.2 x.1) inside) :
    Tame e good ctx ps

/-- The contexts in which a followed tag of an outline is looked up, from the inside out: those that
the loops around it make of some of their rows, and the context of the outline. -/
inductive LooksUp (e : Engine) : Context → List (Piece Followed) → Text → List Context → Prop where
  /-- A tag outside of loops. -/
  | here {ctx : Context} {ps : List (Piece Followed)} {body : Text}
    (mem : .piece (.plain (.tag body [])) ∈ segments (loopPairing e.delimiters) ps) :
    LooksUp e ctx ps body [ctx]
  /-- A tag in a loop, for one of the rows. -/
  | row {ctx : Context} {ps : List (Piece Followed)} {head : LoopHead} {front back body : Text}
    {inside : List (Piece Followed)} {x : Value × Nat} {trail : List Context}
    (pair : .pair head front inside back ∈ segments (loopPairing e.delimiters) ps)
    (mem : x ∈ (Loop.rows ctx head).zipIdx)
    (looksUp : LooksUp e (Loop.rowContext head.form ctx x.2 x.1) inside body trail) :
    LooksUp e ctx ps body (trail ++ [ctx])

theorem mem_of_mem_inside {head : LoopHead} {front back : Text} {inside : List (Piece Followed)}
    (hpair : .pair head front inside back ∈ segments (loopPairing e.delimiters) ps) :
    ∀ q ∈ inside, q ∈ ps :=
  fun q hq => mem_of_mem_pieces hpair q (by simp [Segment.pieces, hq])

theorem LooksUp.mem (h : e.LooksUp c ps body trail) : .plain (.tag body []) ∈ ps := by
  induction h with
  | here mem => exact mem_of_mem_pieces mem _ (by simp [Segment.pieces])
  | row pair mem looksUp ih => exact mem_of_mem_inside pair _ ih

/-- Wherever a followed tag is looked up, only good texts are put in its place. -/
theorem LooksUp.forall_good (h : e.LooksUp c ps body trail) (htame : e.Tame good c ps) :
    ∀ ctx ∈ trail, ∀ t ∈ e.substitution.put? body ctx, good t := by
  induction h with
  | here mem =>
    obtain ⟨hhere, -⟩ := htame
    have hbody := mem_of_mem_pieces mem _ (List.mem_singleton_self _)
    exact List.forall_mem_singleton.mpr (hhere _ (.inr hbody))
  | row pair mem looksUp ih =>
    obtain ⟨hhere, hrows⟩ := htame
    refine List.forall_mem_append.mpr ⟨ih (hrows pair _ mem), List.forall_mem_singleton.mpr ?_⟩
    exact hhere _ (.inr (mem_of_mem_inside pair _ looksUp.mem))

/-- What passes leave of an outline: its texts and those put into it, followed tags with their
trails, and its other tags. -/
def Remains (good : Text → Prop) (ps : List (Piece Followed))
    (trails : Text → List Context → Prop) :
    Piece Followed → Prop
  | .plain (.text s) => .plain (.text s) ∈ ps ∨ good s
  | .plain (.tag body trail) => trails body trail
  | .tag body => .tag body ∈ ps

/-- Followed tags are values, and only good texts are found for them on their trails. -/
def Trusted (e : Engine) (good : Text → Prop) (legacy : List Text)
    (trails : Text → List Context → Prop) : Prop :=
  ∀ body trail, trails body trail → (∃ v, e.delimiters.Reads legacy body { value? := some v }) ∧
    ∀ t ∈ trail.findSome? (e.substitution.put? body), good t

variable {trails : Text → List Context → Prop} {r : Followed → Piece Text} {q : Piece Followed}
  {s : (Followed → Piece Text) → Text}

/-- What is found is found on a longer trail as well. -/
theorem Trusted.init (h : e.Trusted good legacy trails) :
    e.Trusted good legacy fun body trail => trails body (trail ++ [c]) := by
  refine fun body trail hbody => ⟨(h body _ hbody).1, fun t ht => (h body _ hbody).2 t ?_⟩
  rw [List.findSome?_append, ht]
  rfl

theorem Remains.tidy (hgood : ∀ t, good t → e.delimiters.Plain t)
    (hps : ∀ q ∈ ps, q.Fresh e.delimiters legacy) (htrails : e.Trusted good legacy trails)
    (h : Remains good ps trails q) (hr : Followed.Seen e.substitution good r) :
    (q.bind r).Tidy e.delimiters id := by
  rcases q with ⟨s | ⟨body, trail⟩⟩ | body
  · have hplain : e.delimiters.Plain s := h.elim (hps _) (hgood s)
    cases hr <;> exact hplain
  · obtain ⟨⟨v, hreads⟩, hput⟩ := htrails body trail h
    cases hr with
    | covered texts => exact hgood _ (texts body)
    | shown =>
      rw [Piece.bind_plain, Followed.shown]
      cases hfound : trail.findSome? (e.substitution.put? body) with
      | none => exact hreads.free
      | some t => exact hgood t (hput t hfound)
  · exact (hps _ h).1

/-- Plain content that is seen as a tag is a value. -/
theorem Remains.reads (htrails : e.Trusted good legacy trails) {p : Followed}
    (h : Remains good ps trails (.plain p)) (hr : Followed.Seen e.substitution good r)
    (hbody : r p = .tag body) : ∃ v, e.delimiters.Reads legacy body { value? := some v } := by
  cases hr with
  | covered texts => cases p <;> exact absurd hbody (by simp [Followed.covered])
  | shown =>
    cases p with
    | text s => exact absurd hbody (by simp [Followed.shown])
    | tag body' trail =>
      rw [Followed.shown] at hbody
      cases hfound : trail.findSome? (e.substitution.put? body') with
      | some t => simp [hfound] at hbody
      | none =>
        rw [hfound] at hbody
        exact Piece.tag.inj hbody ▸ (htrails body' trail h).1

end Engine

/-! ## One pass -/

/-- Puts a text in the place of a tag if there is one, and notes that a followed tag has been looked
up. -/
def Piece.lookUp (σ : Substitution) (ctx : Context) : Piece Followed → Piece Followed
  | .plain (.text s) => .plain (.text s)
  | .plain (.tag body trail) => .plain (.tag body (trail ++ [ctx]))
  | .tag body =>
    match σ.put? body ctx with
    | some t => .plain (.text t)
    | none => .tag body

theorem substituted_tag (σ : Substitution) (ctx : Context) (body : Text) :
    substituted (P := Text) σ id ctx (.tag body) =
      (σ.put? body ctx).getD (σ.delimiters.enclose body) := by
  rw [substituted, Substitution.put?]
  cases reading σ.delimiters σ.delimiters.variableTag body <;> rfl

/-- Replacing a piece is looking it up, whichever way it is seen. -/
theorem substituted_bind {σ : Substitution} {good : Text → Prop} {r : Followed → Piece Text}
    (hr : Followed.Seen σ good r) (ctx : Context) (q : Piece Followed) :
    substituted σ id ctx (q.bind r) = ((q.lookUp σ ctx).bind r).text σ.delimiters id := by
  rcases q with ⟨s | ⟨body, trail⟩⟩ | body
  · cases hr <;> rfl
  · cases hr with
    | covered texts => rfl
    | shown =>
      rw [Piece.lookUp, Piece.bind_plain, Piece.bind_plain, Followed.shown, Followed.shown,
        List.findSome?_append]
      cases hfound : trail.findSome? (σ.put? body) with
      | some t => rfl
      | none =>
        rw [Option.none_or, List.findSome?_singleton]
        dsimp only
        rw [substituted_tag]
        cases σ.put? body ctx <;> rfl
  · rw [Piece.bind_tag, substituted_tag, Piece.lookUp]
    cases σ.put? body ctx with
    | some t => cases hr <;> rfl
    | none => rfl

/-- Replacing the variables of an outline is looking its pieces up, whichever way they are seen. -/
theorem apply_lookUp {σ : Substitution} (hd : σ.delimiters.Apart) {good : Text → Prop}
    {r : Followed → Piece Text} (hr : Followed.Seen σ good r) {qs : List (Piece Followed)}
    (htidy : ∀ q ∈ qs, (q.bind r).Tidy σ.delimiters id) (ctx : Context) :
    σ.apply (write σ.delimiters id (qs.map (Piece.bind r))) ctx =
      write σ.delimiters id ((qs.map (Piece.lookUp σ ctx)).map (Piece.bind r)) := by
  rw [apply_write hd (tidy_bind htidy), write, List.flatMap_map, List.flatMap_map, List.flatMap_map]
  exact congrArg (List.flatMap · qs) (funext (substituted_bind hr ctx))

namespace Engine

variable {e : Engine} {good : Text → Prop} {ctx c : Context} {legacy : List Text}
  {ps : List (Piece Followed)} {trails : Text → List Context → Prop} {r : Followed → Piece Text}
  {q : Piece Followed}

theorem Remains.lookUp (hleft : ∀ body, q = .tag body → ∀ t ∈ e.substitution.put? body c, good t)
    (h : Remains good ps (fun body trail => trails body (trail ++ [c])) q) :
    Remains good ps trails (q.lookUp e.substitution c) := by
  rcases q with ⟨s | ⟨body, trail⟩⟩ | body
  · exact h
  · exact h
  · rw [Piece.lookUp]
    cases hput : e.substitution.put? body c with
    | some t => exact .inr (hleft body rfl t hput)
    | none => exact h

/-! ## The passes -/

/-- What is left of an outline when its loops are expanded. -/
def unrolled (e : Engine) (ctx : Context) (ps : List (Piece Followed)) : List (Piece Followed) :=
  (segments (loopPairing e.delimiters) ps).attach.flatMap fun x =>
    match x with
    | ⟨.piece q, _⟩ => [q]
    | ⟨.pair head _ inside _, _⟩ =>
      (Loop.rows ctx head).zipIdx.flatMap fun row =>
        let inner := Loop.rowContext head.form ctx row.2 row.1
        (chosen e.delimiters inner (unrolled e inner inside)).map
        (Piece.lookUp e.substitution inner)
termination_by ps.length
decreasing_by exact length_inside_lt ‹_›

theorem unrolled_eq (ctx : Context) (ps : List (Piece Followed)) :
    e.unrolled ctx ps = (segments (loopPairing e.delimiters) ps).flatMap
      (Segment.leave fun head inside => (Loop.rows ctx head).zipIdx.flatMap fun row =>
        let inner := Loop.rowContext head.form ctx row.2 row.1
        (chosen e.delimiters inner (e.unrolled inner inside)).map
          (Piece.lookUp e.substitution inner)) := by
  rw [unrolled]
  refine (List.flatMap_subtype fun x hx => ?_).trans (by rw [List.unattach_attach])
  cases x <;> rfl

/-- What is left of an outline when it has been rendered. -/
def rendered (e : Engine) (ctx : Context) (ps : List (Piece Followed)) : List (Piece Followed) :=
  chosen e.delimiters ctx ((e.unrolled ctx ps).map (Piece.lookUp e.substitution ctx))

theorem tag_of_lookUp {σ : Substitution} {body : Text} (h : q.lookUp σ c = .tag body) :
    q = .tag body := by
  rcases q with ⟨s | ⟨body', trail⟩⟩ | body'
  · exact absurd h (by simp [Piece.lookUp])
  · exact absurd h (by simp [Piece.lookUp])
  · rw [Piece.lookUp] at h
    split at h
    · exact absurd h (by simp)
    · exact h

/-- The tags that are left when loops are expanded were there before. -/
theorem tag_mem_of_mem_unrolled {body : Text} (h : .tag body ∈ e.unrolled c ps) :
    .tag body ∈ ps := by
  -- the body of a loop is a shorter outline
  induction hn : ps.length using Nat.strongRecOn generalizing c ps with
  | ind n ih =>
    rw [unrolled_eq] at h
    rcases mem_leave h with hq | ⟨head, front, inside, back, hpair, hq⟩
    · exact mem_of_mem_pieces hq _ (List.mem_singleton_self _)
    · obtain ⟨row, hrow, hq⟩ := List.mem_flatMap.mp hq
      obtain ⟨x, hx, heq⟩ := List.mem_map.mp hq
      obtain rfl := tag_of_lookUp heq
      have hlt : inside.length < n := hn ▸ length_inside_lt hpair
      exact mem_of_mem_inside hpair _ (ih inside.length hlt (mem_of_mem_chosen hx) rfl)

/-- Only good texts are put in the places of tags: those that are found for followed tags, and those
for tags that are left of loops. -/
inductive Clean (e : Engine) (good : Text → Prop) : Context → List (Piece Followed) → Prop where
  /-- If it is so in the context, and for all rows of the loops that are not in another. -/
  | of_pairs {ctx : Context} {ps : List (Piece Followed)}
    (found : ∀ body trail, e.LooksUp ctx ps body trail →
      ∀ t ∈ trail.findSome? (e.substitution.put? body), good t)
    (left : ∀ body, .tag body ∈ e.unrolled ctx ps → ∀ t ∈ e.substitution.put? body ctx, good t)
    (rows : ∀ {head front inside back},
      .pair head front inside back ∈ segments (loopPairing e.delimiters) ps →
        ∀ x ∈ (Loop.rows ctx head).zipIdx,
        Clean e good (Loop.rowContext head.form ctx x.2 x.1) inside) :
    Clean e good ctx ps

/-- So it is if tags are replaced by good texts only. -/
theorem Tame.clean (h : e.Tame good c ps) : e.Clean good c ps := by
  induction h with
  | @of_pairs c ps here rows ih =>
    refine .of_pairs (fun body trail hup t ht => ?_) (fun body hbody => ?_) ih
    · obtain ⟨ctx, hctx, ht⟩ := List.exists_of_findSome?_eq_some ht
      exact hup.forall_good (.of_pairs here rows) ctx hctx t ht
    · exact here body (.inl (tag_mem_of_mem_unrolled hbody))

theorem trusted_looksUp (hps : ∀ q ∈ ps, q.Fresh e.delimiters legacy) (hclean : e.Clean good c ps) :
    e.Trusted good legacy (e.LooksUp c ps) := by
  obtain ⟨found, -, -⟩ := hclean
  exact fun body trail h => ⟨(hps _ h.mem).2, found body trail h⟩

/-- Expanding loops looks followed tags up in the contexts of rows. -/
theorem remains_unrolled (hclean : e.Clean good c ps)
    (hps : ∀ q ∈ ps, q.Fresh e.delimiters legacy) :
    ∀ q ∈ e.unrolled c ps,
      Remains good ps (fun body trail => e.LooksUp c ps body (trail ++ [c])) q := by
  induction hclean with
  | @of_pairs c ps found left rows ih =>
    intro q hq
    rw [unrolled_eq] at hq
    rcases mem_leave hq with hpiece | ⟨head, front, inside, back, hpair, hq⟩
    · have hmem := mem_of_mem_pieces hpiece q (List.mem_singleton_self q)
      rcases q with ⟨s | ⟨body, trail⟩⟩ | body
      · exact .inl hmem
      · obtain ⟨rfl, -⟩ := hps _ hmem
        exact .here hpiece
      · exact hmem
    · have hmem := mem_of_mem_inside hpair
      obtain ⟨row, hrow, hq⟩ := List.mem_flatMap.mp hq
      obtain ⟨x, hx, rfl⟩ := List.mem_map.mp hq
      obtain ⟨-, hleft, -⟩ := rows hpair row hrow
      have hremains :=
        (ih hpair row hrow (fun q hq => hps q (hmem q hq)) x (mem_of_mem_chosen hx)).lookUp
        (e := e) fun body hbody => hleft body (hbody ▸ mem_of_mem_chosen hx)
      generalize x.lookUp e.substitution (Loop.rowContext head.form c row.2 row.1) = q at hremains
      rcases q with ⟨s | ⟨body, trail⟩⟩ | body
      · exact hremains.imp_left (hmem _)
      · exact .row hpair hrow hremains
      · exact hmem _ hremains

theorem remains_rendered (hclean : e.Clean good c ps)
    (hps : ∀ q ∈ ps, q.Fresh e.delimiters legacy) :
    ∀ q ∈ e.rendered c ps, Remains good ps (e.LooksUp c ps) q := by
  intro q hq
  obtain ⟨x, hx, rfl⟩ := List.mem_map.mp (mem_of_mem_chosen hq)
  have hremains := remains_unrolled hclean hps x hx
  obtain ⟨-, hleft, -⟩ := hclean
  exact hremains.lookUp fun body hbody => hleft body (hbody ▸ hx)

/-- What remains of an outline is tidy, and its conditionals can be resolved. -/
theorem resolveConditionals_remains (hd : e.delimiters.Apart) (ctx : Context)
    (hgood : ∀ t, good t → e.delimiters.Plain t) (hps : ∀ q ∈ ps, q.Fresh e.delimiters legacy)
    (htrails : e.Trusted good legacy trails) {qs : List (Piece Followed)}
    (hqs : ∀ q ∈ qs, Remains good ps trails q) (hr : Followed.Seen e.substitution good r) :
    resolveConditionals e.delimiters ctx (write e.delimiters id (qs.map (Piece.bind r))) =
      write e.delimiters id ((chosen e.delimiters ctx qs).map (Piece.bind r)) := by
  refine resolveConditionals_chosen hd ctx (fun q hq => (hqs q hq).tidy hgood hps htrails hr)
    fun p body hp hbody => ?_
  obtain ⟨v, hreads⟩ := (hqs _ hp).reads htrails hr hbody
  exact hreads.conditional

/-- Expanding the loops of an outline, whichever way followed tags are seen. -/
theorem expandLoops_unrolled (hd : e.delimiters.Apart) (hgood : ∀ t, good t → e.delimiters.Plain t)
    (hclean : e.Clean good c ps) (hps : ∀ q ∈ ps, q.Fresh e.delimiters legacy)
    (hr : Followed.Seen e.substitution good r) :
    expandLoops e.delimiters e.renderBody (write e.delimiters id (ps.map (Piece.bind r))) c =
      write e.delimiters id ((e.unrolled c ps).map (Piece.bind r)) := by
  induction hclean with
  | @of_pairs c ps found left rows ih =>
    rw [expandLoops_write hd _ (tidy_bind fun q hq => (hps q hq).tidy hgood hr), unrolled_eq]
    refine replaced_bind (fun p body hp hbody => ?_) fun head front inside back hpair => ?_
    · obtain ⟨v, hreads⟩ := (hps _ hp).reads hr hbody
      exact hreads.ignores_loops fun back hback => (hps _ hback).2
    · have hinside : ∀ q ∈ inside, q.Fresh e.delimiters legacy :=
        fun q hq => hps q (mem_of_mem_inside hpair q hq)
      rw [List.map_flatMap, write_flatMap]
      refine congrArg List.flatten (List.map_congr_left fun row hrow => ?_)
      -- the body of the loop for one row
      have htrails := (trusted_looksUp hinside (rows hpair row hrow)).init
        (c := Loop.rowContext head.form c row.2 row.1)
      have hremains := remains_unrolled (rows hpair row hrow) hinside
      dsimp only
      rw [ih hpair row hrow hinside, renderBody,
        resolveConditionals_remains hd _ hgood hinside htrails hremains hr]
      exact apply_lookUp (σ := e.substitution) hd hr
        (fun q hq => (hremains q (mem_of_mem_chosen hq)).tidy hgood hinside htrails hr) _

/-- Rendering an outline, whichever way followed tags are seen. -/
theorem process_rendered (hd : e.delimiters.Apart) (hplugins : e.plugins = [])
    (hgood : ∀ t, good t → e.delimiters.Plain t) (hps : ∀ q ∈ ps, q.Fresh e.delimiters legacy)
    (hclean : e.Clean good c ps) (hr : Followed.Seen e.substitution good r) (isDocument : Bool) :
    e.process c isDocument (write e.delimiters id (ps.map (Piece.bind r))) =
      write e.delimiters id ((e.rendered c ps).map (Piece.bind r)) := by
  have htrails := trusted_looksUp hps hclean
  have hremains := remains_unrolled hclean hps
  have happlied := apply_lookUp (σ := e.substitution) hd hr
    (fun q hq => (hremains q hq).tidy hgood hps htrails.init hr) c
  have hlooked : ∀ q ∈ (e.unrolled c ps).map (Piece.lookUp e.substitution c),
      Remains good ps (e.LooksUp c ps) q := by
    intro q hq
    obtain ⟨x, hx, rfl⟩ := List.mem_map.mp hq
    obtain ⟨-, hleft, -⟩ := hclean
    exact (hremains x hx).lookUp fun body hbody => hleft body (hbody ▸ hx)
  rw [process_eq hplugins, expandLoops_unrolled hd hgood hclean hps hr]
  refine (congrArg (resolveConditionals e.delimiters c) happlied).trans ?_
  exact resolveConditionals_remains hd c hgood hps htrails hlooked hr

end Engine

end Stencil
