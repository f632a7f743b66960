import Stencil.Proofs.Document.Render
import Stencil.Proofs.Document.Spelled

/-!
# Documents in documents

The regions of a document can stand for other documents. Grafting puts these in the places of the
regions. What the grafted document means is what the document means with its regions meaning what
the others mean; but a loop gives its body other contexts, so no region may stand in one.
-/

namespace Stencil

open Recognizer Outline Delimiters
open List (Forall₂)

variable {ρ τ : Type}

/-! ## Grafting -/

mutual

/-- A document with others in the places of its regions. -/
def Doc.graft (g : ρ → Doc τ) : Doc ρ → Doc τ
  | .nil => .nil
  | .text s rest => .text s (rest.graft g)
  | .region content rest => (g content).append (rest.graft g)
  | .value path chain? rest => .value path chain? (rest.graft g)
  | .loop head body rest => .loop head (body.graft g) (rest.graft g)
  | .choice condition body others rest =>
    .choice condition (body.graft g) (others.graft g) (rest.graft g)

/-- Branches with documents in the places of their regions. -/
def Branches.graft (g : ρ → Doc τ) : Branches ρ → Branches τ
  | .nil => .nil
  | .otherwise body => .otherwise (body.graft g)
  | .elseif condition body others => .elseif condition (body.graft g) (others.graft g)

end

mutual

/-- No region of a document stands in a loop. -/
def Doc.Outside : Doc ρ → Prop
  | .nil => True
  | .text _ rest => rest.Outside
  | .region _ rest => rest.Outside
  | .value _ _ rest => rest.Outside
  | .loop _ body rest => body.contents = [] ∧ rest.Outside
  | .choice _ body others rest => body.Outside ∧ others.Outside ∧ rest.Outside

/-- None of branches does. -/
def Branches.Outside : Branches ρ → Prop
  | .nil => True
  | .otherwise body => body.Outside
  | .elseif _ body others => body.Outside ∧ others.Outside

end

mutual

theorem Doc.outside_of_contents : ∀ {doc : Doc ρ}, doc.contents = [] → doc.Outside
  | .nil, _ => trivial
  | .text _ rest, h => show rest.Outside from Doc.outside_of_contents h
  | .region _ _, h => absurd h (by simp [Doc.contents])
  | .value _ _ rest, h => show rest.Outside from Doc.outside_of_contents h
  | .loop _ _ _, h => by
    obtain ⟨hbody, hrest⟩ := List.append_eq_nil_iff.mp h
    exact ⟨hbody, Doc.outside_of_contents hrest⟩
  | .choice _ _ _ _, h => by
    obtain ⟨hbody, hrest⟩ := List.append_eq_nil_iff.mp h
    obtain ⟨hothers, hrest⟩ := List.append_eq_nil_iff.mp hrest
    exact ⟨Doc.outside_of_contents hbody, Branches.outside_of_contents hothers,
      Doc.outside_of_contents hrest⟩

theorem Branches.outside_of_contents :
    ∀ {others : Branches ρ}, others.contents = [] → others.Outside
  | .nil, _ => trivial
  | .otherwise body, h => show body.Outside from Doc.outside_of_contents h
  | .elseif _ _ _, h => by
    obtain ⟨hbody, hothers⟩ := List.append_eq_nil_iff.mp h
    exact ⟨Doc.outside_of_contents hbody, Branches.outside_of_contents hothers⟩

end

/-! ## What grafted documents mean -/

section

variable {e : Engine} {region : τ → Text} {f : ρ → Text} {g : ρ → Doc τ}

mutual

/-- A grafted document means what the document means, with its regions meaning what stands in their
places. -/
theorem Doc.meaning_graft : ∀ (doc : Doc ρ) (ctx : Context), doc.Outside →
    (∀ content ∈ doc.contents, (g content).meaning e region ctx = f content) →
      (doc.graft g).meaning e region ctx = doc.meaning e f ctx
  | .nil, _, _, _ => rfl
  | .text _ rest, ctx, h, hg => congrArg _ (rest.meaning_graft ctx h hg)
  | .region content rest, ctx, h, hg => by
    obtain ⟨hcontent, hrest⟩ := List.forall_mem_cons.mp hg
    rw [Doc.graft, Doc.meaning_append, hcontent, rest.meaning_graft ctx h hrest]
    rfl
  | .value _ _ rest, ctx, h, hg => congrArg _ (rest.meaning_graft ctx h hg)
  | .loop head body rest, ctx, h, hg => by
    have hbody : ∀ ctx, (body.graft g).meaning e region ctx = body.meaning e f ctx := fun ctx =>
      body.meaning_graft ctx (Doc.outside_of_contents h.1) (h.1 ▸ List.forall_mem_nil _)
    have hrest := rest.meaning_graft ctx h.2 (List.forall_mem_append.mp hg).2
    simp only [Doc.graft, Doc.meaning, hbody, hrest]
  | .choice condition body others rest, ctx, h, hg => by
    obtain ⟨hbody, hothers, hrest⟩ := h
    obtain ⟨hgbody, hg⟩ := List.forall_mem_append.mp hg
    obtain ⟨hgothers, hgrest⟩ := List.forall_mem_append.mp hg
    rw [Doc.graft, Doc.meaning, Doc.meaning, body.meaning_graft ctx hbody hgbody,
      others.meanings_graft ctx hothers hgothers, rest.meaning_graft ctx hrest hgrest]

/-- So do grafted branches. -/
theorem Branches.meanings_graft : ∀ (others : Branches ρ) (ctx : Context), others.Outside →
    (∀ content ∈ others.contents, (g content).meaning e region ctx = f content) →
      (others.graft g).meanings e region ctx = others.meanings e f ctx
  | .nil, _, _, _ => rfl
  | .otherwise body, ctx, h, hg => by
    rw [Branches.graft, Branches.meanings, Branches.meanings, body.meaning_graft ctx h hg]
  | .elseif condition body others, ctx, h, hg => by
    obtain ⟨hgbody, hgothers⟩ := List.forall_mem_append.mp hg
    rw [Branches.graft, Branches.meanings, Branches.meanings, body.meaning_graft ctx h.1 hgbody,
      others.meanings_graft ctx h.2 hgothers]

end

/-! ## Values and wording -/

theorem Doc.resolves_append {doc' : Doc ρ} {ctx : Context} (h' : doc'.Resolves e ctx) :
    ∀ {doc : Doc ρ}, doc.Resolves e ctx → (doc.append doc').Resolves e ctx := by
  intro doc h
  cases doc with
  | nil => exact h'
  | text s rest =>
    show (rest.append doc').Resolves e ctx
    exact Doc.resolves_append h' h
  | region content rest =>
    show (rest.append doc').Resolves e ctx
    exact Doc.resolves_append h' h
  | value path chain? rest => exact ⟨h.1, Doc.resolves_append h' h.2⟩
  | loop head body rest => exact ⟨h.1, Doc.resolves_append h' h.2⟩
  | choice condition body others rest => exact ⟨h.1, h.2.1, Doc.resolves_append h' h.2.2⟩

mutual

/-- The values of a grafted document have plain texts if those of the document and of what is
grafted have. -/
theorem Doc.resolves_graft : ∀ (doc : Doc ρ) (ctx : Context), doc.Outside → doc.Resolves e ctx →
    (∀ content ∈ doc.contents, (g content).Resolves e ctx) → (doc.graft g).Resolves e ctx
  | .nil, _, _, _, _ => trivial
  | .text _ rest, ctx, h, hy, hg => rest.resolves_graft ctx h hy hg
  | .region _ rest, ctx, h, hy, hg =>
    have ⟨hcontent, hrest⟩ := List.forall_mem_cons.mp hg
    Doc.resolves_append (rest.resolves_graft ctx h hy hrest) hcontent
  | .value _ _ rest, ctx, h, hy, hg => ⟨hy.1, rest.resolves_graft ctx h hy.2 hg⟩
  | .loop _ body rest, ctx, h, hy, hg =>
    ⟨fun x hx => body.resolves_graft _ (Doc.outside_of_contents h.1) (hy.1 x hx)
        (h.1 ▸ List.forall_mem_nil _),
      rest.resolves_graft ctx h.2 hy.2 (List.forall_mem_append.mp hg).2⟩
  | .choice _ body others rest, ctx, h, hy, hg =>
    have ⟨hgbody, hg⟩ := List.forall_mem_append.mp hg
    have ⟨hgothers, hgrest⟩ := List.forall_mem_append.mp hg
    ⟨body.resolves_graft ctx h.1 hy.1 hgbody, others.resolves_graft ctx h.2.1 hy.2.1 hgothers,
      rest.resolves_graft ctx h.2.2 hy.2.2 hgrest⟩

/-- So it is with branches. -/
theorem Branches.resolves_graft : ∀ (others : Branches ρ) (ctx : Context), others.Outside →
    others.Resolves e ctx → (∀ content ∈ others.contents, (g content).Resolves e ctx) →
      (others.graft g).Resolves e ctx
  | .nil, _, _, _, _ => trivial
  | .otherwise body, ctx, h, hy, hg => body.resolves_graft ctx h hy hg
  | .elseif _ body others, ctx, h, hy, hg =>
    have ⟨hgbody, hgothers⟩ := List.forall_mem_append.mp hg
    ⟨body.resolves_graft ctx h.1 hy.1 hgbody, others.resolves_graft ctx h.2 hy.2 hgothers⟩

end

end

/-- What the parts of a document must be like to have the wording of their kind, wherever its
regions come from. -/
def wording (d : Delimiters) (legacy : List Text) (ρ : Type) : Rules ρ where
  text := d.Plain
  region _ := True
  value := IsValue d legacy
  loop := IsLoop legacy
  condition := IsCondition d

section

variable {d : Delimiters} {legacy : List Text} {g : ρ → Doc τ}

theorem strict_wording : (wording d legacy ρ).Strict d legacy := ⟨id, id, id, id⟩

mutual

/-- A grafted document has the wording of the document and of what is grafted. -/
theorem Doc.obeys_graft : ∀ {doc : Doc ρ}, doc.Obeys (wording d legacy ρ) →
    (∀ content ∈ doc.contents, (g content).Obeys (wording d legacy τ)) →
      (doc.graft g).Obeys (wording d legacy τ)
  | .nil, _, _ => trivial
  | .text _ _, h, hg => ⟨h.1, Doc.obeys_graft h.2 hg⟩
  | .region _ _, h, hg =>
    have ⟨hcontent, hrest⟩ := List.forall_mem_cons.mp hg
    Doc.obeys_append (Doc.obeys_graft h.2 hrest) hcontent
  | .value _ _ _, h, hg => ⟨h.1, Doc.obeys_graft h.2 hg⟩
  | .loop _ _ _, h, hg =>
    have ⟨hgbody, hgrest⟩ := List.forall_mem_append.mp hg
    ⟨h.1, Doc.obeys_graft h.2.1 hgbody, Doc.obeys_graft h.2.2 hgrest⟩
  | .choice _ _ _ _, h, hg =>
    have ⟨hgbody, hg⟩ := List.forall_mem_append.mp hg
    have ⟨hgothers, hgrest⟩ := List.forall_mem_append.mp hg
    ⟨h.1, Doc.obeys_graft h.2.1 hgbody, Branches.obeys_graft h.2.2.1 hgothers,
      Doc.obeys_graft h.2.2.2 hgrest⟩

/-- So do branches. -/
theorem Branches.obeys_graft : ∀ {others : Branches ρ}, others.Obeys (wording d legacy ρ) →
    (∀ content ∈ others.contents, (g content).Obeys (wording d legacy τ)) →
      (others.graft g).Obeys (wording d legacy τ)
  | .nil, _, _ => trivial
  | .otherwise _, h, hg => Doc.obeys_graft h hg
  | .elseif _ _ _, h, hg =>
    have ⟨hgbody, hgothers⟩ := List.forall_mem_append.mp hg
    ⟨h.1, Doc.obeys_graft h.2.1 hgbody, Branches.obeys_graft h.2.2 hgothers⟩

end

end

/-! ## Skeletons of grafted documents -/

/-- The content of a part, if it is a region. -/
def Part.content? : Part ρ → Option ρ
  | .text _ => none
  | .region content => some content
  | .mark _ => none

/-- A part with a document in its place, if it is a region. -/
def Part.graft (g : ρ → Doc τ) : Part ρ → List (Part τ)
  | .text s => [.text s]
  | .region content => (g content).skeleton
  | .mark m => [.mark m]

mutual

/-- The regions of a document are those in its skeleton. -/
theorem Doc.contents_eq : ∀ doc : Doc ρ, doc.contents = doc.skeleton.filterMap Part.content?
  | .nil => rfl
  | .text _ rest => rest.contents_eq
  | .region content rest => congrArg (content :: ·) rest.contents_eq
  | .value _ _ rest => rest.contents_eq
  | .loop _ body rest => by
    rw [Doc.contents, Doc.skeleton, List.filterMap_cons_none rfl, List.filterMap_append,
      List.filterMap_cons_none rfl, body.contents_eq, rest.contents_eq]
  | .choice _ body others rest => by
    rw [Doc.contents, Doc.skeleton, List.filterMap_cons_none rfl, List.filterMap_append,
      List.filterMap_append, List.filterMap_cons_none rfl, body.contents_eq, others.contents_eq,
      rest.contents_eq]

/-- So are those of branches. -/
theorem Branches.contents_eq : ∀ others : Branches ρ,
    others.contents = others.skeleton.filterMap Part.content?
  | .nil => rfl
  | .otherwise body => body.contents_eq
  | .elseif _ body others => by
    rw [Branches.contents, Branches.skeleton, List.filterMap_cons_none rfl, List.filterMap_append,
      body.contents_eq, others.contents_eq]

end

theorem Doc.mem_contents {doc : Doc ρ} {content : ρ} :
    content ∈ doc.contents ↔ .region content ∈ doc.skeleton := by
  rw [Doc.contents_eq, List.mem_filterMap]
  constructor
  · rintro ⟨x, hx, heq⟩
    cases x with
    | region content' => exact Option.some.inj heq ▸ hx
    | _ => exact absurd heq (by simp [Part.content?])
  · exact fun h => ⟨_, h, rfl⟩

theorem Doc.skeleton_append : ∀ doc doc' : Doc ρ,
    (doc.append doc').skeleton = doc.skeleton ++ doc'.skeleton
  | .nil, _ => rfl
  | .text _ rest, doc' => congrArg _ (rest.skeleton_append doc')
  | .region _ rest, doc' => congrArg _ (rest.skeleton_append doc')
  | .value _ _ rest, doc' => congrArg _ (rest.skeleton_append doc')
  | .loop _ _ rest, doc' => by simp [Doc.append, Doc.skeleton, rest.skeleton_append doc']
  | .choice _ _ _ rest, doc' => by simp [Doc.append, Doc.skeleton, rest.skeleton_append doc']

mutual

/-- Grafting puts the skeletons of documents in the places of regions. -/
theorem Doc.skeleton_graft (g : ρ → Doc τ) : ∀ doc : Doc ρ,
    (doc.graft g).skeleton = doc.skeleton.flatMap (Part.graft g)
  | .nil => rfl
  | .text _ rest => congrArg _ (rest.skeleton_graft g)
  | .region content rest => by
    rw [Doc.graft, Doc.skeleton_append, rest.skeleton_graft g]
    rfl
  | .value _ _ rest => congrArg _ (rest.skeleton_graft g)
  | .loop _ body rest => by
    simp [Doc.graft, Doc.skeleton, Part.graft, body.skeleton_graft g, rest.skeleton_graft g]
  | .choice _ body others rest => by
    simp [Doc.graft, Doc.skeleton, Part.graft, body.skeleton_graft g, others.skeleton_graft g,
      rest.skeleton_graft g]

/-- It does so in branches. -/
theorem Branches.skeleton_graft (g : ρ → Doc τ) : ∀ others : Branches ρ,
    (others.graft g).skeleton = others.skeleton.flatMap (Part.graft g)
  | .nil => rfl
  | .otherwise body => congrArg _ (body.skeleton_graft g)
  | .elseif _ body others => by
    simp [Branches.graft, Branches.skeleton, Part.graft, body.skeleton_graft g,
      others.skeleton_graft g]

end

/-- If the pieces of a spelling are replaced by spellings of what is grafted, the outcome spells the
grafted document. -/
theorem Doc.SpelledBy.flatMap {d : Delimiters} {region : ρ → Piece Text → Prop}
    {region' : τ → Piece Text → Prop} {doc : Doc ρ} {ps : List (Piece Text)}
    (h : doc.SpelledBy d region ps) {g : ρ → Doc τ} {fill : Piece Text → List (Piece Text)}
    (hfill : ∀ x ∈ doc.skeleton, ∀ q, x.SpelledBy d region q →
      Forall₂ (Part.SpelledBy d region') (x.graft g) (fill q)) :
    (doc.graft g).SpelledBy d region' (ps.flatMap fill) := by
  rw [Doc.SpelledBy] at h ⊢
  rw [Doc.skeleton_graft]
  generalize doc.skeleton = xs at h hfill
  induction h with
  | nil => exact .nil
  | cons hq _ ih =>
    obtain ⟨hx, hxs⟩ := List.forall_mem_cons.mp hfill
    exact List.rel_append (hx _ hq) (ih hxs)

end Stencil
