import Stencil.Proofs.Document.Stages
import Stencil.Proofs.Outline.Respelled

/-!
# The loops of documents

Loops are expanded before anything else, and the body of a loop is rendered on the spot: its own
loops are expanded, its conditionals resolved and its values replaced, for every row anew. So where
a loop stood there is text: what the loop means.
-/

namespace Stencil

open Recognizer Outline

variable {ρ : Type}

/-! ## Documents whose loops have been expanded -/

mutual

/-- A document without loops: of each, what it means. -/
def Doc.unrolled (e : Engine) (region : ρ → Text) (ctx : Context) : Doc ρ → Doc ρ
  | .nil => .nil
  | .text s rest => .text s (rest.unrolled e region ctx)
  | .region content rest => .region content (rest.unrolled e region ctx)
  | .value path chain? rest => .value path chain? (rest.unrolled e region ctx)
  | .loop head body rest =>
    .text ((Loop.rows ctx head).zipIdx.flatMap fun x =>
      body.meaning e region (Loop.rowContext head.form ctx x.2 x.1)) (rest.unrolled e region ctx)
  | .choice condition body others rest =>
    .choice condition (body.unrolled e region ctx) (others.unrolled e region ctx)
      (rest.unrolled e region ctx)

/-- Branches without loops. -/
def Branches.unrolled (e : Engine) (region : ρ → Text) (ctx : Context) : Branches ρ → Branches ρ
  | .nil => .nil
  | .otherwise body => .otherwise (body.unrolled e region ctx)
  | .elseif condition body others =>
    .elseif condition (body.unrolled e region ctx) (others.unrolled e region ctx)

end

mutual

/-- Expanding loops keeps the meaning. -/
theorem Doc.meaning_unrolled (e : Engine) (region : ρ → Text) (ctx : Context) : ∀ doc : Doc ρ,
    (doc.unrolled e region ctx).meaning e region ctx = doc.meaning e region ctx
  | .nil => rfl
  | .text s rest => by rw [Doc.unrolled, Doc.meaning, Doc.meaning, rest.meaning_unrolled]
  | .region content rest => by rw [Doc.unrolled, Doc.meaning, Doc.meaning, rest.meaning_unrolled]
  | .value path chain? rest => by rw [Doc.unrolled, Doc.meaning, Doc.meaning, rest.meaning_unrolled]
  | .loop head body rest => by rw [Doc.unrolled, Doc.meaning, Doc.meaning, rest.meaning_unrolled]
  | .choice condition body others rest => by
    rw [Doc.unrolled, Doc.meaning, Doc.meaning, body.meaning_unrolled, others.meanings_unrolled,
      rest.meaning_unrolled]

/-- So it does in branches. -/
theorem Branches.meanings_unrolled (e : Engine) (region : ρ → Text) (ctx : Context) :
    ∀ others : Branches ρ,
      (others.unrolled e region ctx).meanings e region ctx = others.meanings e region ctx
  | .nil => rfl
  | .otherwise body => by
    rw [Branches.unrolled, Branches.meanings, Branches.meanings, body.meaning_unrolled]
  | .elseif condition body others => by
    rw [Branches.unrolled, Branches.meanings, Branches.meanings, body.meaning_unrolled,
      others.meanings_unrolled]

end

/-! ## Values with plain texts -/

mutual

/-- Every value of a document is a text in which no tag starts, in every scope that it has. -/
def Doc.Resolves (e : Engine) : Doc ρ → Context → Prop
  | .nil, _ => True
  | .text _ rest, ctx => rest.Resolves e ctx
  | .region _ rest, ctx => rest.Resolves e ctx
  | .value path chain? rest, ctx =>
    (∃ t, e.substitution.text? ctx ⟨path, chain?.map Text.trim⟩ = some t ∧ e.delimiters.Plain t) ∧
      rest.Resolves e ctx
  | .loop head body rest, ctx =>
    (∀ x ∈ (Loop.rows ctx head).zipIdx, body.Resolves e (Loop.rowContext head.form ctx x.2 x.1)) ∧
      rest.Resolves e ctx
  | .choice _ body others rest, ctx =>
    body.Resolves e ctx ∧ others.Resolves e ctx ∧ rest.Resolves e ctx

/-- Every value of the branches is such a text. -/
def Branches.Resolves (e : Engine) : Branches ρ → Context → Prop
  | .nil, _ => True
  | .otherwise body, ctx => body.Resolves e ctx
  | .elseif _ body others, ctx => body.Resolves e ctx ∧ others.Resolves e ctx

end

mutual

theorem Doc.Yields.resolves {e : Engine} : ∀ {doc : Doc ρ} {ctx : Context},
    doc.Yields e ctx → doc.Resolves e ctx
  | .nil, _, _ => trivial
  | .text _ rest, ctx, h => show rest.Resolves e ctx from Doc.Yields.resolves h
  | .region _ rest, ctx, h => show rest.Resolves e ctx from Doc.Yields.resolves h
  | .value _ _ _, _, h =>
    ⟨h.1.imp fun _ ht => ⟨ht.1, ht.2.1⟩, h.2.resolves⟩
  | .loop _ _ _, _, h => ⟨fun x hx => (h.1 x hx).resolves, h.2.resolves⟩
  | .choice _ _ _ _, _, h => ⟨h.1.resolves, h.2.1.resolves, h.2.2.resolves⟩

theorem Branches.Yields.resolves {e : Engine} : ∀ {others : Branches ρ} {ctx : Context},
    others.Yields e ctx → others.Resolves e ctx
  | .nil, _, _ => trivial
  | .otherwise body, ctx, h => show body.Resolves e ctx from Doc.Yields.resolves h
  | .elseif _ _ _, _, h => ⟨h.1.resolves, h.2.resolves⟩

end

section

variable {e : Engine} {r : Rules ρ} {region : ρ → Text}

mutual

/-- If no tag starts in the texts, the values and the regions of a document, none starts in what it
means. -/
theorem Doc.plain_meaning (htext : ∀ {s}, r.text s → e.delimiters.Plain s)
    (hregion : ∀ content, e.delimiters.Plain (region content)) :
    ∀ (doc : Doc ρ) (ctx : Context), doc.Obeys r → doc.Resolves e ctx →
      e.delimiters.Plain (doc.meaning e region ctx)
  | .nil, _, _, _ => by simp [Doc.meaning, Delimiters.Plain]
  | .text s rest, ctx, h, hy =>
    Delimiters.plain_append.mpr ⟨htext h.1, rest.plain_meaning htext hregion ctx h.2 hy⟩
  | .region content rest, ctx, h, hy =>
    Delimiters.plain_append.mpr ⟨hregion content, rest.plain_meaning htext hregion ctx h.2 hy⟩
  | .value path chain? rest, ctx, h, hy => by
    obtain ⟨⟨t, ht, hplain⟩, hrest⟩ := hy
    rw [Doc.meaning, ht]
    exact Delimiters.plain_append.mpr ⟨hplain, rest.plain_meaning htext hregion ctx h.2 hrest⟩
  | .loop head body rest, ctx, h, hy => by
    rw [Doc.meaning]
    refine Delimiters.plain_append.mpr
      ⟨fun hmem => ?_, rest.plain_meaning htext hregion ctx h.2.2 hy.2⟩
    obtain ⟨x, hx, hmem⟩ := List.mem_flatMap.mp hmem
    exact body.plain_meaning htext hregion _ h.2.1 (hy.1 x hx) hmem
  | .choice condition body others rest, ctx, h, hy => by
    obtain ⟨-, hbody, hothers, hrest⟩ := h
    obtain ⟨hybody, hyothers, hyrest⟩ := hy
    rw [Doc.meaning]
    refine Delimiters.plain_append.mpr ⟨?_, rest.plain_meaning htext hregion ctx hrest hyrest⟩
    cases hs : survivor ctx ((some condition.trim, body.meaning e region ctx) ::
        others.meanings e region ctx) with
    | none => simp [Delimiters.Plain]
    | some t =>
      obtain ⟨condition?, hmem⟩ := survivor_mem hs
      rcases List.mem_cons.mp hmem with heq | hmem
      · exact (Prod.mk.inj heq).2 ▸ body.plain_meaning htext hregion ctx hbody hybody
      · exact others.plain_meanings htext hregion ctx hothers hyothers _ hmem

/-- So it is with branches. -/
theorem Branches.plain_meanings (htext : ∀ {s}, r.text s → e.delimiters.Plain s)
    (hregion : ∀ content, e.delimiters.Plain (region content)) :
    ∀ (others : Branches ρ) (ctx : Context), others.Obeys r → others.Resolves e ctx →
      ∀ x ∈ others.meanings e region ctx, e.delimiters.Plain x.2
  | .nil, _, _, _ => by simp [Branches.meanings]
  | .otherwise body, ctx, h, hy => by
    simpa [Branches.meanings] using body.plain_meaning htext hregion ctx h hy
  | .elseif _ body others, ctx, h, hy =>
    List.forall_mem_cons.mpr ⟨body.plain_meaning htext hregion ctx h.2.1 hy.1,
      others.plain_meanings htext hregion ctx h.2.2 hy.2⟩

end

end

/-! ## Meanings as rows of texts and regions -/

namespace ProtectedRegions

/-- A text that holds regions, whatever these are, and besides only texts that start no tag and open
no placeholder. -/
def Inscribed (d : Delimiters) (f : (Nat → Text) → Text) : Prop :=
  ∃ as : List (Atom Text), (∀ t, .glyph t ∈ as → d.Plain t ∧ opener ∉ t) ∧
    ∀ region, f region = shown id region as

namespace Inscribed

variable {d : Delimiters} {f g : (Nat → Text) → Text}

theorem nil : Inscribed d fun _ => [] := ⟨[], by simp, fun _ => rfl⟩

theorem text {t : Text} (h : d.Plain t ∧ opener ∉ t) : Inscribed d fun _ => t :=
  ⟨[.glyph t], by simpa using h, fun region => by simp⟩

theorem region (index : Nat) : Inscribed d fun region => region index :=
  ⟨[.shelved index], by simp, fun region => by simp⟩

theorem append (hf : Inscribed d f) (hg : Inscribed d g) :
    Inscribed d fun region => f region ++ g region := by
  obtain ⟨as, has, hf⟩ := hf
  obtain ⟨bs, hbs, hg⟩ := hg
  refine ⟨as ++ bs, fun t ht => ?_, fun region => by rw [shown_append, ← hf, ← hg]⟩
  rcases List.mem_append.mp ht with ht | ht
  · exact has t ht
  · exact hbs t ht

theorem flatMap {α : Type} {xs : List α} {f : α → (Nat → Text) → Text}
    (h : ∀ x ∈ xs, Inscribed d (f x)) :
    Inscribed d fun region => xs.flatMap fun x => f x region := by
  induction xs with
  | nil => exact nil
  | cons x xs ih =>
    simp only [List.flatMap_cons]
    exact (h x (by simp)).append (ih fun y hy => h y (by simp [hy]))

/-- Restoring such a text puts the regions into their places. -/
theorem restore (h : Inscribed d f) {regions : ProtectedRegions}
    (hregions : ∀ content ∈ regions, opener ∉ content) :
    regions.restore (f placeholder) = f fun i => (regions[i]?).getD (placeholder i) := by
  obtain ⟨as, has, hf⟩ := h
  rw [hf, hf]
  exact restore_shown (w := id) (fun t ht => (has t ht).2) hregions

end Inscribed

end ProtectedRegions

section

open ProtectedRegions

variable {e : Engine} {r : Rules Nat}

mutual

/-- The meaning of a document is such a text. -/
theorem Doc.inscribed (htext : ∀ {s}, r.text s → e.delimiters.Plain s ∧ opener ∉ s) :
    ∀ (doc : Doc Nat) (ctx : Context), doc.Obeys r → doc.Yields e ctx →
      Inscribed e.delimiters fun region => doc.meaning e region ctx
  | .nil, _, _, _ => .nil
  | .text s rest, ctx, h, hy =>
    (Inscribed.text (htext h.1)).append (rest.inscribed htext ctx h.2 hy)
  | .region index rest, ctx, h, hy =>
    (Inscribed.region index).append (rest.inscribed htext ctx h.2 hy)
  | .value path chain? rest, ctx, h, hy => by
    obtain ⟨⟨t, ht, hinert⟩, hrest⟩ := hy
    simp only [Doc.meaning, ht]
    exact (Inscribed.text hinert).append (rest.inscribed htext ctx h.2 hrest)
  | .loop head body rest, ctx, h, hy =>
    (Inscribed.flatMap fun x hx => body.inscribed htext _ h.2.1 (hy.1 x hx)).append
      (rest.inscribed htext ctx h.2.2 hy.2)
  | .choice condition body others rest, ctx, h, hy => by
    obtain ⟨-, hbody, hothers, hrest⟩ := h
    obtain ⟨hybody, hyothers, hyrest⟩ := hy
    obtain ⟨fs, hfs, hmeanings⟩ := others.inscribed htext ctx hothers hyothers
    -- which branch survives does not depend on the regions
    have hsurvivor : ∀ region, survivor ctx ((some condition.trim, body.meaning e region ctx) ::
        others.meanings e region ctx) =
          (survivor ctx ((some condition.trim, fun region => body.meaning e region ctx) :: fs)).map
            (· region) := fun region => by
      rw [hmeanings, ← survivor_map]
      rfl
    simp only [Doc.meaning, hsurvivor]
    refine Inscribed.append ?_ (rest.inscribed htext ctx hrest hyrest)
    cases hs : survivor ctx
      ((some condition.trim, fun region => body.meaning e region ctx) :: fs) with
    | none => exact .nil
    | some f =>
      obtain ⟨condition?, hmem⟩ := survivor_mem hs
      rcases List.mem_cons.mp hmem with heq | hmem
      · exact (Prod.mk.inj heq).2 ▸ body.inscribed htext ctx hbody hybody
      · exact hfs _ hmem

/-- So are those of branches. -/
theorem Branches.inscribed (htext : ∀ {s}, r.text s → e.delimiters.Plain s ∧ opener ∉ s) :
    ∀ (others : Branches Nat) (ctx : Context), others.Obeys r → others.Yields e ctx →
      ∃ fs : List (Option Text × ((Nat → Text) → Text)), (∀ x ∈ fs, Inscribed e.delimiters x.2) ∧
        ∀ region, others.meanings e region ctx = fs.map fun x => (x.1, x.2 region)
  | .nil, _, _, _ => ⟨[], by simp, fun _ => rfl⟩
  | .otherwise body, ctx, h, hy =>
    ⟨[(none, fun region => body.meaning e region ctx)], by
      simpa using body.inscribed htext ctx h hy, fun _ => rfl⟩
  | .elseif condition body others, ctx, h, hy => by
    obtain ⟨-, hbody, hothers⟩ := h
    obtain ⟨fs, hfs, hmeanings⟩ := others.inscribed htext ctx hothers hy.2
    refine ⟨(some condition.trim, fun region => body.meaning e region ctx) :: fs,
      ?_, fun region => ?_⟩
    · exact List.forall_mem_cons.mpr ⟨body.inscribed htext ctx hbody hy.1, hfs⟩
    · rw [Branches.meanings, hmeanings]
      rfl

end

end

/-! ## Expanding loops -/

/-- Rules for what is left when loops have been expanded: values have a text, and no tag starts in
it. -/
def Rules.unrolled (r : Rules ρ) (e : Engine) (ctx : Context) : Rules ρ where
  text := e.delimiters.Plain
  region := r.region
  value path chain? := r.value path chain? ∧
    ∃ t, e.substitution.text? ctx ⟨path, chain?.map Text.trim⟩ = some t ∧ e.delimiters.Plain t
  loop _ := False
  condition := r.condition

section

open ProtectedRegions

variable {d : Delimiters} {e : Engine} {legacy : List Text} {r : Rules Nat}

theorem Rules.Strict.unrolled (hr : r.Strict e.delimiters legacy) (ctx : Context) :
    (r.unrolled e ctx).Strict e.delimiters legacy :=
  ⟨id, fun h => hr.value h.1, fun h => absurd h id, hr.condition⟩

theorem Rules.filling_unrolled (r : Rules ρ) (e : Engine) (ctx : Context) :
    (r.unrolled e ctx).Filling e.substitution ctx :=
  fun h => h.2

mutual

/-- What is left obeys these rules. -/
theorem Doc.obeys_unrolled (hd : e.delimiters.Apart)
    (htext : ∀ {s}, r.text s → e.delimiters.Plain s) :
    ∀ (doc : Doc Nat) (ctx : Context), doc.Obeys r → doc.Resolves e ctx →
      (doc.unrolled e placeholder ctx).Obeys (r.unrolled e ctx)
  | .nil, _, _, _ => trivial
  | .text _ rest, ctx, h, hy => ⟨htext h.1, rest.obeys_unrolled hd htext ctx h.2 hy⟩
  | .region _ rest, ctx, h, hy => ⟨h.1, rest.obeys_unrolled hd htext ctx h.2 hy⟩
  | .value _ _ rest, ctx, h, hy => by
    obtain ⟨⟨t, ht, hplain⟩, hrest⟩ := hy
    exact ⟨⟨h.1, t, ht, hplain⟩, rest.obeys_unrolled hd htext ctx h.2 hrest⟩
  | .loop head body rest, ctx, h, hy => by
    refine ⟨fun hmem => ?_, rest.obeys_unrolled hd htext ctx h.2.2 hy.2⟩
    obtain ⟨x, hx, hmem⟩ := List.mem_flatMap.mp hmem
    exact body.plain_meaning htext hd.plain_placeholder _ h.2.1 (hy.1 x hx) hmem
  | .choice _ body others rest, ctx, h, hy =>
    ⟨h.1, body.obeys_unrolled hd htext ctx h.2.1 hy.1,
      others.obeys_unrolled hd htext ctx h.2.2.1 hy.2.1,
      rest.obeys_unrolled hd htext ctx h.2.2.2 hy.2.2⟩

/-- So do branches. -/
theorem Branches.obeys_unrolled (hd : e.delimiters.Apart)
    (htext : ∀ {s}, r.text s → e.delimiters.Plain s) :
    ∀ (others : Branches Nat) (ctx : Context), others.Obeys r → others.Resolves e ctx →
      (others.unrolled e placeholder ctx).Obeys (r.unrolled e ctx)
  | .nil, _, _, _ => trivial
  | .otherwise body, ctx, h, hy => body.obeys_unrolled hd htext ctx h hy
  | .elseif _ body others, ctx, h, hy =>
    ⟨h.1, body.obeys_unrolled hd htext ctx h.2.1 hy.1,
      others.obeys_unrolled hd htext ctx h.2.2 hy.2⟩

end

/-- Where no loop is opened, an outline goes on behind the tag. -/
theorem segments_idle (hd : d.Apart) (hlegacy : ∀ p ∈ legacy, Unreserved p) {body : Text}
    (hbody : Idle d legacy body) {ps : List (Piece Text)} (hps : ∀ q ∈ ps, Drawn d legacy q) :
    segments (loopPairing d) (.tag body :: ps) =
      .piece (.tag body) :: segments (loopPairing d) ps := by
  refine segments_cons_none (List.findSome?_eq_none_iff.mpr fun a ha => ?_)
  obtain ⟨hform, hpath⟩ := hbody.heads a ha
  rw [Option.map_eq_none_iff]
  cases hs : splitClose ((loopPairing d).opens a) ((loopPairing d).closes a) 0 ps with
  | none => rfl
  | some x =>
    -- the tag that closes it would be that of a legacy loop
    obtain ⟨inside, back, rest⟩ := x
    obtain ⟨rfl, hclose⟩ := splitClose_eq_some hs
    have hread : reading d d.legacyClosing back = some a.path := by
      simpa [loopPairing, readsAs, loopClose, hform] using hclose
    exact absurd ((hps (.tag back) (by simp)).mem_of_legacyClosing hd hlegacy hread) hpath

/-- Where a loop is opened, its body follows, and then its closing tag. -/
theorem segments_loop {r : Rules Nat} (hd : d.Apart) (hlegacy : ∀ p ∈ legacy, Unreserved p)
    (hr : r.Strict d legacy) {head : LoopHead} {body : Doc Nat} (hhead : r.loop head)
    (hbody : body.Obeys r) (ps : List (Piece Text)) :
    segments (loopPairing d)
        (.tag head.openingTag :: (body.pieces ++ .tag head.closingTag :: ps)) =
      .pair head head.openingTag body.pieces head.closingTag :: segments (loopPairing d) ps := by
  have hloop := hr.loop hhead
  obtain ⟨-, -, hopens, hcloses⟩ := (hloop.loopTags hd).pairing head
  have hlegacyHead : head.form = .legacy → head.path ∈ legacy := by
    intro hform
    have := hloop.2
    rwa [hform] at this
  have hsplit := (body.passes (suits_loops hd hlegacy hr hlegacyHead) hbody).split hopens
    (hcloses.trans head.matches_self) ps
  refine segments_cons_some ?_
  rw [pairFrom, (hloop.loopTags hd).heads, List.findSome?_singleton, hsplit]
  rfl

mutual

/-- The segments of a document: its outermost loops, and the pieces between them. -/
def Doc.segments : Doc Nat → List (Segment Text LoopHead)
  | .nil => []
  | .text s rest => .piece (.plain s) :: rest.segments
  | .region index rest => .piece (.plain (placeholder index)) :: rest.segments
  | .value path chain? rest => .piece (.tag (valueTag path chain?)) :: rest.segments
  | .loop head body rest =>
    .pair head head.openingTag body.pieces head.closingTag :: rest.segments
  | .choice condition body others rest =>
    .piece (.tag (ifTag condition)) ::
      (body.segments ++ (others.segments ++ .piece (.tag "endif".toList) :: rest.segments))

/-- The segments of branches. -/
def Branches.segments : Branches Nat → List (Segment Text LoopHead)
  | .nil => []
  | .otherwise body => .piece (.tag "else".toList) :: body.segments
  | .elseif condition body others =>
    .piece (.tag (elseifTag condition)) :: (body.segments ++ others.segments)

end

mutual

/-- An outline that starts with that of a document starts with the segments of the document. -/
theorem Doc.segments_pieces (hd : d.Apart) (hlegacy : ∀ p ∈ legacy, Unreserved p)
    (hr : r.Strict d legacy) : ∀ doc : Doc Nat, doc.Obeys r →
      ∀ qs : List (Piece Text), (∀ q ∈ qs, Drawn d legacy q) →
        Outline.segments (loopPairing d) (doc.pieces ++ qs) =
          doc.segments ++ Outline.segments (loopPairing d) qs
  | .nil, _, _, _ => rfl
  | .text s rest, h, qs, hqs => by
    rw [Doc.pieces_text, List.cons_append, Outline.segments,
      rest.segments_pieces hd hlegacy hr h.2 qs hqs]
    rfl
  | .region index rest, h, qs, hqs => by
    rw [Doc.pieces_region, List.cons_append, Outline.segments,
      rest.segments_pieces hd hlegacy hr h.2 qs hqs]
    rfl
  | .value path chain? rest, h, qs, hqs => by
    have hdrawn := List.forall_mem_append.mpr ⟨rest.drawn hd hr h.2, hqs⟩
    rw [Doc.pieces_value, List.cons_append,
      segments_idle hd hlegacy (idle_valueTag hd (hr.value h.1)) hdrawn,
      rest.segments_pieces hd hlegacy hr h.2 qs hqs]
    rfl
  | .loop head body rest, h, qs, hqs => by
    rw [Doc.pieces_loop, List.cons_append, List.append_assoc, List.cons_append,
      segments_loop hd hlegacy hr h.1 h.2.1, rest.segments_pieces hd hlegacy hr h.2.2 qs hqs]
    rfl
  | .choice condition body others rest, h, qs, hqs => by
    obtain ⟨hcondition, hbody, hothers, hrest⟩ := h
    have hopening : ChoiceTag d (ifTag condition) _ := .opening (hr.condition hcondition)
    have hclosing : ChoiceTag d "endif".toList _ := .closing
    -- what follows each part
    have hrest' := List.forall_mem_append.mpr ⟨rest.drawn hd hr hrest, hqs⟩
    have hend := List.forall_mem_cons.mpr ⟨.choice hclosing, hrest'⟩
    have hothers' := List.forall_mem_append.mpr ⟨others.drawn hd hr hothers, hend⟩
    have hbody' := List.forall_mem_append.mpr ⟨body.drawn hd hr hbody, hothers'⟩
    rw [Doc.pieces_choice, List.cons_append, List.append_assoc, List.append_assoc, List.cons_append,
      segments_idle hd hlegacy (hopening.idle hd hlegacy) hbody',
      body.segments_pieces hd hlegacy hr hbody _ hothers',
      others.segments_pieces hd hlegacy hr hothers _ hend,
      segments_idle hd hlegacy (hclosing.idle hd hlegacy) hrest',
      rest.segments_pieces hd hlegacy hr hrest qs hqs, Doc.segments]
    simp only [List.cons_append, List.append_assoc]

/-- So it goes for branches. -/
theorem Branches.segments_pieces (hd : d.Apart) (hlegacy : ∀ p ∈ legacy, Unreserved p)
    (hr : r.Strict d legacy) : ∀ others : Branches Nat, others.Obeys r →
      ∀ qs : List (Piece Text), (∀ q ∈ qs, Drawn d legacy q) →
        Outline.segments (loopPairing d) (others.pieces ++ qs) =
          others.segments ++ Outline.segments (loopPairing d) qs
  | .nil, _, _, _ => rfl
  | .otherwise body, h, qs, hqs => by
    have hdrawn := List.forall_mem_append.mpr ⟨body.drawn hd hr h, hqs⟩
    rw [Branches.pieces_otherwise, List.cons_append,
      segments_idle hd hlegacy (ChoiceTag.otherwise.idle hd hlegacy) hdrawn,
      body.segments_pieces hd hlegacy hr h qs hqs]
    rfl
  | .elseif condition body others, h, qs, hqs => by
    obtain ⟨hcondition, hbody, hothers⟩ := h
    have htag : ChoiceTag d (elseifTag condition) _ := .elseif (hr.condition hcondition)
    have hothers' := List.forall_mem_append.mpr ⟨others.drawn hd hr hothers, hqs⟩
    have hbody' := List.forall_mem_append.mpr ⟨body.drawn hd hr hbody, hothers'⟩
    rw [Branches.pieces_elseif, List.cons_append, List.append_assoc,
      segments_idle hd hlegacy (htag.idle hd hlegacy) hbody',
      body.segments_pieces hd hlegacy hr hbody _ hothers',
      others.segments_pieces hd hlegacy hr hothers qs hqs, Branches.segments]
    simp only [List.cons_append, List.append_assoc]

end

/-- The segments of the outline of a document. -/
theorem Doc.segments_eq (hd : d.Apart) (hlegacy : ∀ p ∈ legacy, Unreserved p)
    (hr : r.Strict d legacy) {doc : Doc Nat} (h : doc.Obeys r) :
    Outline.segments (loopPairing d) doc.pieces = doc.segments := by
  have hsegments := doc.segments_pieces hd hlegacy hr h [] (by simp)
  rwa [List.append_nil, Outline.segments, List.append_nil] at hsegments

/-- The body of a loop is rendered as what it means, once its loops are expanded. -/
theorem Doc.rowText_of_expanded (hd : e.delimiters.Apart) (hr : r.Strict e.delimiters legacy)
    {doc : Doc Nat} {ctx : Context} (h : doc.Obeys r) (hy : doc.Resolves e ctx)
    (hexpanded : e.expanded ctx doc.pieces = (doc.unrolled e placeholder ctx).pieces) :
    e.rowText ctx doc.pieces = doc.meaning e placeholder ctx :=
  calc e.rowText ctx doc.pieces
      = e.renderBody (write e.delimiters id (doc.unrolled e placeholder ctx).pieces) ctx := by
        rw [Engine.rowText, Engine.expandLoops_eq_write hd (doc.tidy hd hr h), hexpanded]
    _ = (doc.unrolled e placeholder ctx).meaning e placeholder ctx :=
        Doc.render_body hd (hr.unrolled ctx) (r.filling_unrolled e ctx) (fun _ => id)
          (doc.obeys_unrolled hd hr.text ctx h hy)
    _ = doc.meaning e placeholder ctx := doc.meaning_unrolled e placeholder ctx

mutual

/-- The segments of a document give the document without loops. -/
theorem Doc.settled_segments (hd : e.delimiters.Apart) (hlegacy : ∀ p ∈ legacy, Unreserved p)
    (hr : r.Strict e.delimiters legacy) : ∀ (doc : Doc Nat) (ctx : Context), doc.Obeys r →
      doc.Resolves e ctx →
        doc.segments.map (e.settled ctx) = (doc.unrolled e placeholder ctx).pieces
  | .nil, _, _, _ => rfl
  | .text _ rest, ctx, h, hy =>
    congrArg _ (rest.settled_segments hd hlegacy hr ctx h.2 hy)
  | .region _ rest, ctx, h, hy =>
    congrArg _ (rest.settled_segments hd hlegacy hr ctx h.2 hy)
  | .value _ _ rest, ctx, h, hy =>
    congrArg _ (rest.settled_segments hd hlegacy hr ctx h.2 hy.2)
  | .loop head body rest, ctx, h, hy => by
    -- every row makes what the body means in its context
    have hrows : e.rowTexts ctx head body.pieces = (Loop.rows ctx head).zipIdx.flatMap fun x =>
        body.meaning e placeholder (Loop.rowContext head.form ctx x.2 x.1) := by
      refine congrArg List.flatten (List.map_congr_left fun x hx => ?_)
      have hbody := hy.1 x hx
      generalize Loop.rowContext head.form ctx x.2 x.1 = inner at hbody ⊢
      refine Doc.rowText_of_expanded hd hr h.2.1 hbody ?_
      rw [Engine.expanded, Doc.segments_eq hd hlegacy hr h.2.1,
        body.settled_segments hd hlegacy hr inner h.2.1 hbody]
    rw [Doc.segments, List.map_cons, Engine.settled, hrows,
      rest.settled_segments hd hlegacy hr ctx h.2.2 hy.2]
    rfl
  | .choice condition body others rest, ctx, h, hy => by
    obtain ⟨-, hbody, hothers, hrest⟩ := h
    obtain ⟨hybody, hyothers, hyrest⟩ := hy
    rw [Doc.segments, List.map_cons, List.map_append, List.map_append, List.map_cons,
      body.settled_segments hd hlegacy hr ctx hbody hybody,
      others.settled_segments hd hlegacy hr ctx hothers hyothers,
      rest.settled_segments hd hlegacy hr ctx hrest hyrest]
    rfl

/-- So it goes for branches. -/
theorem Branches.settled_segments (hd : e.delimiters.Apart)
    (hlegacy : ∀ p ∈ legacy, Unreserved p) (hr : r.Strict e.delimiters legacy) :
    ∀ (others : Branches Nat) (ctx : Context), others.Obeys r → others.Resolves e ctx →
      others.segments.map (e.settled ctx) = (others.unrolled e placeholder ctx).pieces
  | .nil, _, _, _ => rfl
  | .otherwise body, ctx, h, hy =>
    congrArg _ (body.settled_segments hd hlegacy hr ctx h hy)
  | .elseif condition body others, ctx, h, hy => by
    rw [Branches.segments, List.map_cons, List.map_append,
      body.settled_segments hd hlegacy hr ctx h.2.1 hy.1,
      others.settled_segments hd hlegacy hr ctx h.2.2 hy.2]
    rfl

end

/-- Expanding the loops of the outline of a document. -/
theorem Doc.expanded_pieces (hd : e.delimiters.Apart) (hlegacy : ∀ p ∈ legacy, Unreserved p)
    (hr : r.Strict e.delimiters legacy) {doc : Doc Nat} {ctx : Context} (h : doc.Obeys r)
    (hy : doc.Resolves e ctx) :
    e.expanded ctx doc.pieces = (doc.unrolled e placeholder ctx).pieces := by
  rw [Engine.expanded, Doc.segments_eq hd hlegacy hr h,
    doc.settled_segments hd hlegacy hr ctx h hy]

mutual

/-- The loops of a document settle. -/
theorem Doc.settles_segments (hd : e.delimiters.Apart) (hlegacy : ∀ p ∈ legacy, Unreserved p)
    (hr : r.Strict e.delimiters legacy) : ∀ (doc : Doc Nat) (ctx : Context), doc.Obeys r →
      doc.Resolves e ctx → ∀ x ∈ doc.segments, e.SegmentSettles ctx x
  | .nil, _, _, _ => List.forall_mem_nil _
  | .text _ rest, ctx, h, hy =>
    List.forall_mem_cons.mpr ⟨trivial, rest.settles_segments hd hlegacy hr ctx h.2 hy⟩
  | .region _ rest, ctx, h, hy =>
    List.forall_mem_cons.mpr ⟨trivial, rest.settles_segments hd hlegacy hr ctx h.2 hy⟩
  | .value _ _ rest, ctx, h, hy =>
    List.forall_mem_cons.mpr ⟨trivial, rest.settles_segments hd hlegacy hr ctx h.2 hy.2⟩
  | .loop head body rest, ctx, h, hy => by
    refine List.forall_mem_cons.mpr
      ⟨fun x hx => ?_, rest.settles_segments hd hlegacy hr ctx h.2.2 hy.2⟩
    have hbody := hy.1 x hx
    generalize Loop.rowContext head.form ctx x.2 x.1 = inner at hbody ⊢
    constructor
    · exact .of_segments (Doc.segments_eq hd hlegacy hr h.2.1 ▸
        body.settles_segments hd hlegacy hr inner h.2.1 hbody)
    · rw [Doc.rowText_of_expanded hd hr h.2.1 hbody
        (Doc.expanded_pieces hd hlegacy hr h.2.1 hbody)]
      exact body.plain_meaning hr.text hd.plain_placeholder inner h.2.1 hbody
  | .choice _ body others rest, ctx, h, hy =>
    List.forall_mem_cons.mpr ⟨trivial, List.forall_mem_append.mpr
      ⟨body.settles_segments hd hlegacy hr ctx h.2.1 hy.1, List.forall_mem_append.mpr
        ⟨others.settles_segments hd hlegacy hr ctx h.2.2.1 hy.2.1, List.forall_mem_cons.mpr
          ⟨trivial, rest.settles_segments hd hlegacy hr ctx h.2.2.2 hy.2.2⟩⟩⟩⟩

/-- So do those of branches. -/
theorem Branches.settles_segments (hd : e.delimiters.Apart)
    (hlegacy : ∀ p ∈ legacy, Unreserved p) (hr : r.Strict e.delimiters legacy) :
    ∀ (others : Branches Nat) (ctx : Context), others.Obeys r → others.Resolves e ctx →
      ∀ x ∈ others.segments, e.SegmentSettles ctx x
  | .nil, _, _, _ => List.forall_mem_nil _
  | .otherwise body, ctx, h, hy =>
    List.forall_mem_cons.mpr ⟨trivial, body.settles_segments hd hlegacy hr ctx h hy⟩
  | .elseif _ body others, ctx, h, hy =>
    List.forall_mem_cons.mpr ⟨trivial, List.forall_mem_append.mpr
      ⟨body.settles_segments hd hlegacy hr ctx h.2.1 hy.1,
        others.settles_segments hd hlegacy hr ctx h.2.2 hy.2⟩⟩

end

theorem Doc.settles (hd : e.delimiters.Apart) (hlegacy : ∀ p ∈ legacy, Unreserved p)
    (hr : r.Strict e.delimiters legacy) {doc : Doc Nat} {ctx : Context} (h : doc.Obeys r)
    (hy : doc.Resolves e ctx) : e.Settles ctx doc.pieces :=
  .of_segments (Doc.segments_eq hd hlegacy hr h ▸ doc.settles_segments hd hlegacy hr ctx h hy)

/-- What is done to the text of a document gives what the document means. -/
theorem Doc.process_eq_meaning (hd : e.delimiters.Apart) (hplugins : e.plugins = [])
    (hlegacy : ∀ p ∈ legacy, Unreserved p) (hr : r.Strict e.delimiters legacy) {doc : Doc Nat}
    {ctx : Context} (h : doc.Obeys r) (hy : doc.Resolves e ctx) (isDocument : Bool) :
    e.process ctx isDocument (write e.delimiters id doc.pieces) =
      doc.meaning e placeholder ctx := by
  rw [Engine.process_eq hplugins, Engine.expandLoops_eq_write hd (doc.tidy hd hr h),
    Doc.expanded_pieces hd hlegacy hr h hy, ← doc.meaning_unrolled]
  exact Doc.render_whole hd (hr.unrolled _) (r.filling_unrolled e _) (fun _ => id)
    (doc.obeys_unrolled hd hr.text _ h hy)

end

end Stencil
