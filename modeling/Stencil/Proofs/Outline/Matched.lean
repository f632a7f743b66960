import Stencil.Proofs.Outline.Choices
import Mathlib.Data.List.Forall2

/-!
# Outlines that match

Two outlines match if they have the same plain pieces, and tags in some relation. Where the relation
keeps what a pairing sees in a tag, the outlines fall into the same pairs; where it keeps what tags
say about conditionals, they fall into the same branches.

Of what a tag may open, only that counts which some tag can close.
-/

namespace Stencil

namespace Outline

open List (Forall₂)

variable {P α β : Type} {R : Text → Text → Prop}

/-- Two pieces that are the same text, or tags in some relation. -/
inductive Matched (R : Text → Text → Prop) : Piece P → Piece P → Prop where
  /-- The same text. -/
  | plain (p : P) : Matched R (.plain p) (.plain p)
  /-- Tags. -/
  | tag {body body' : Text} (related : R body body') : Matched R (.tag body) (.tag body')

/-- Every tag of an outline that matches another is related to one, and so is every tag of the
other. -/
theorem forall_tag_of_matched {A : Text → Prop}
    (hA : ∀ {body body'}, R body body' → A body ∧ A body') {ps qs : List (Piece P)}
    (h : Forall₂ (Matched R) ps qs) :
    (∀ body, .tag body ∈ ps → A body) ∧ ∀ body, .tag body ∈ qs → A body := by
  induction h with
  | nil => simp
  | cons hq _ ih =>
    cases hq with
    | plain p => simpa using ih
    | tag hb =>
      simp only [List.mem_cons, Piece.tag.injEq, forall_eq_or_imp]
      exact ⟨⟨(hA hb).1, ih.1⟩, (hA hb).2, ih.2⟩

/-! ## Pairs -/

/-- Two ways to split outlines that match. -/
structure SplitMatched (R : Text → Text → Prop) (x y : List (Piece P) × Text × List (Piece P)) :
    Prop where
  /-- What is in front of the closing tags. -/
  inside : Forall₂ (Matched R) x.1 y.1
  /-- The closing tags. -/
  back : R x.2.1 y.2.1
  /-- What is behind them. -/
  rest : Forall₂ (Matched R) x.2.2 y.2.2

theorem splitMatched_cons {q q' : Piece P} {x y : Option (List (Piece P) × Text × List (Piece P))}
    (hq : Matched R q q') (h : Option.Rel (SplitMatched R) x y) :
    Option.Rel (SplitMatched R) (x.map fun x => (q :: x.1, x.2))
      (y.map fun y => (q' :: y.1, y.2)) := by
  cases h with
  | none => exact .none
  | some h => exact .some ⟨.cons hq h.inside, h.back, h.rest⟩

/-- Outlines that match are split alike. -/
theorem splitClose_matched {opens closes : Text → Bool}
    (hR : ∀ {body body'}, R body body' → opens body = opens body' ∧ closes body = closes body')
    {ps qs : List (Piece P)} (h : Forall₂ (Matched R) ps qs) (depth : Nat) :
    Option.Rel (SplitMatched R) (splitClose opens closes depth ps)
      (splitClose opens closes depth qs) := by
  induction h generalizing depth with
  | nil => exact .none
  | @cons q q' ps qs hq hps ih =>
    cases hq with
    | plain p => exact splitMatched_cons (.plain p) (ih depth)
    | @tag body body' hb =>
      obtain ⟨hopens, hcloses⟩ := hR hb
      have hcons : ∀ depth, Option.Rel (SplitMatched R)
          ((splitClose opens closes depth ps).map fun x => (.tag body :: x.1, x.2))
          ((splitClose opens closes depth qs).map fun y => (.tag body' :: y.1, y.2)) :=
        fun depth => splitMatched_cons (.tag hb) (ih depth)
      cases ho : opens body with
      | true =>
        cases hc : closes body with
        | true =>
          simp only [splitClose, ho, hc, ← hopens, ← hcloses]
          exact hcons depth
        | false =>
          rw [splitClose_opens ho hc, splitClose_opens (hopens ▸ ho) (hcloses ▸ hc)]
          exact hcons (depth + 1)
      | false =>
        cases hc : closes body with
        | false =>
          rw [splitClose_other ho hc, splitClose_other (hopens ▸ ho) (hcloses ▸ hc)]
          exact hcons depth
        | true =>
          cases depth with
          | zero =>
            rw [splitClose_found ho hc, splitClose_found (hopens ▸ ho) (hcloses ▸ hc)]
            exact .some ⟨.nil, hb, hps⟩
          | succ depth =>
            rw [splitClose_closes ho hc, splitClose_closes (hopens ▸ ho) (hcloses ▸ hc)]
            exact hcons depth

theorem splitClose_eq_none {opens closes : Text → Bool} {ps : List (Piece P)}
    (h : ∀ body, .tag body ∈ ps → closes body = false) (depth : Nat) :
    splitClose opens closes depth ps = none := by
  cases hs : splitClose opens closes depth ps with
  | none => rfl
  | some x =>
    obtain ⟨inside, back, rest⟩ := x
    obtain ⟨rfl, hclose⟩ := splitClose_eq_some hs
    rw [h back (by simp)] at hclose
    exact absurd hclose (by simp)

end Outline

/-- A pairing sees the same in related tags, but for what no tag closes. -/
structure Pairing.Respects {α : Type} (g : Pairing α) (live : α → Bool) (R : Text → Text → Prop) :
    Prop where
  /-- Related tags open the same. -/
  heads : ∀ {body body'}, R body body' → (g.heads body).filter live = (g.heads body').filter live
  /-- Related tags open pairs of the same kinds. -/
  opens : ∀ {a body body'}, live a = true → R body body' → g.opens a body = g.opens a body'
  /-- Related tags close pairs of the same kinds. -/
  closes : ∀ {a body body'}, live a = true → R body body' → g.closes a body = g.closes a body'
  /-- What is left out is closed by none. -/
  dead : ∀ {a body body'}, live a = false → R body body' →
    g.closes a body = false ∧ g.closes a body' = false

namespace Outline

open List (Forall₂)
open Recognizer

variable {P α β : Type} {R : Text → Text → Prop}

/-- Two segments that match. -/
inductive SegmentMatched (R : Text → Text → Prop) : Segment P α → Segment P α → Prop where
  /-- Pieces. -/
  | piece {q q' : Piece P} (matched : Matched R q q') : SegmentMatched R (.piece q) (.piece q')
  /-- Pairs. -/
  | pair (a : α) {front front' back back' : Text} {inside inside' : List (Piece P)}
    (front_related : R front front') (inside_matched : Forall₂ (Matched R) inside inside')
    (back_related : R back back') :
    SegmentMatched R (.pair a front inside back) (.pair a front' inside' back')

section

variable {g : Pairing α} {live : α → Bool} {ps qs : List (Piece P)}

/-- What no tag closes makes no pair. -/
theorem pairFrom_eq_filter
    (h : ∀ a, live a = false → ∀ body, .tag body ∈ ps → g.closes a body = false) (front : Text) :
    pairFrom g front ps = ((g.heads front).filter live).findSome? fun a =>
      (splitClose (g.opens a) (g.closes a) 0 ps).map (a, ·) := by
  rw [pairFrom]
  induction g.heads front with
  | nil => rfl
  | cons a as ih =>
    rw [List.findSome?_cons, ih]
    cases ha : live a with
    | true => rw [List.filter_cons_of_pos ha, List.findSome?_cons]
    | false => rw [List.filter_cons_of_neg (by simp [ha]), splitClose_eq_none (h a ha) 0]; rfl

/-- Outlines that match have the same pair in front. -/
theorem pairFrom_matched (hg : g.Respects live R) {front front' : Text} (hfront : R front front')
    (h : Forall₂ (Matched R) ps qs) :
    Option.Rel (fun x y => x.1 = y.1 ∧ SplitMatched R x.2 y.2) (pairFrom g front ps)
      (pairFrom g front' qs) := by
  -- what nothing closes does not count, and of the rest both tags open the same
  have hdead := fun a (ha : live a = false) =>
    forall_tag_of_matched (A := fun body => g.closes a body = false) (hg.dead ha) h
  rw [pairFrom_eq_filter fun a ha => (hdead a ha).1, pairFrom_eq_filter fun a ha => (hdead a ha).2,
    ← hg.heads hfront]
  have hlive : ∀ a ∈ (g.heads front).filter live, live a = true := fun a ha =>
    (List.mem_filter.mp ha).2
  generalize (g.heads front).filter live = as at hlive
  induction as with
  | nil => exact .none
  | cons a as ih =>
    have hsplit : Option.Rel (SplitMatched R) (splitClose (g.opens a) (g.closes a) 0 ps)
        (splitClose (g.opens a) (g.closes a) 0 qs) :=
      splitClose_matched
        (fun hb => ⟨hg.opens (hlive a (by simp)) hb, hg.closes (hlive a (by simp)) hb⟩) h 0
    have ih := ih fun b hb => hlive b (by simp [hb])
    rw [List.findSome?_cons, List.findSome?_cons]
    cases hx : splitClose (g.opens a) (g.closes a) 0 ps with
    | none =>
      rw [hx] at hsplit
      cases hy : splitClose (g.opens a) (g.closes a) 0 qs with
      | none => exact ih
      | some y => rw [hy] at hsplit; cases hsplit
    | some x =>
      rw [hx] at hsplit
      cases hy : splitClose (g.opens a) (g.closes a) 0 qs with
      | none => rw [hy] at hsplit; cases hsplit
      | some y =>
        rw [hy] at hsplit
        exact .some ⟨rfl, Option.rel_some_some.mp hsplit⟩

/-- Outlines that match fall into segments that match. -/
theorem segments_matched (hg : g.Respects live R) (h : Forall₂ (Matched R) ps qs) :
    Forall₂ (SegmentMatched R) (segments g ps) (segments g qs) := by
  -- the segments of the second outline are not recursed over: each case reads them off the first
  fun_induction segments g ps generalizing qs with
  | case1 =>
    cases h
    rw [segments]
    exact .nil
  | case2 p ps ih =>
    obtain ⟨q', qs, hq, hps, rfl⟩ := List.forall₂_cons_left_iff.mp h
    cases hq
    rw [segments]
    exact .cons (.piece (.plain p)) (ih hps)
  | case3 body ps hnone ih =>
    obtain ⟨q', qs, hq, hps, rfl⟩ := List.forall₂_cons_left_iff.mp h
    cases hq with
    | @tag _ body' hbody =>
      have hpair := pairFrom_matched hg hbody hps
      rw [hnone] at hpair
      generalize hy : pairFrom g body' qs = y at hpair
      cases hpair with
      | none =>
        rw [segments_cons_none hy]
        exact .cons (.piece (.tag hbody)) (ih hps)
  | case4 body ps a inside back rest hsome hlt ih =>
    obtain ⟨q', qs, hq, hps, rfl⟩ := List.forall₂_cons_left_iff.mp h
    cases hq with
    | @tag _ body' hbody =>
      have hpair := pairFrom_matched hg hbody hps
      rw [hsome] at hpair
      generalize hy : pairFrom g body' qs = y at hpair
      cases hpair with
      | @some _ y hpair =>
        obtain ⟨a', inside', back', rest'⟩ := y
        obtain ⟨rfl, hsplit⟩ := hpair
        rw [segments_cons_some hy]
        exact .cons (.pair a hbody hsplit.inside hsplit.back) (ih hsplit.rest)

end

/-! ## Branches -/

section

variable {d : Delimiters}

/-- Outlines that match have branches that match. -/
theorem branches_matched
    (hR : ∀ {body body'}, R body body' →
      reading d d.conditionalTag body = reading d d.conditionalTag body')
    {ps qs : List (Piece P)} (h : Forall₂ (Matched R) ps qs) (depth : Nat)
    (condition? : Option Text) {sofar sofar' : List (Piece P)}
    (hsofar : Forall₂ (Matched R) sofar sofar') :
    Forall₂ (fun x y => x.1 = y.1 ∧ Forall₂ (Matched R) x.2 y.2)
      (branches d depth condition? sofar ps) (branches d depth condition? sofar' qs) := by
  induction h generalizing depth condition? sofar sofar' with
  | nil => exact .cons ⟨rfl, hsofar⟩ .nil
  | @cons q q' ps qs hq _ ih =>
    have hgrown : Forall₂ (Matched R) (sofar ++ [q]) (sofar' ++ [q']) :=
      List.rel_append hsofar (.cons hq .nil)
    cases hq with
    | plain p => exact ih depth condition? hgrown
    | @tag body body' hb =>
      have hread := hR hb
      cases hr : reading d d.conditionalTag body with
      | none =>
        simp only [branches, ← hread, hr]
        exact ih depth condition? hgrown
      | some c =>
        cases c with
        | opening condition =>
          simp only [branches, ← hread, hr]
          exact ih (depth + 1) condition? hgrown
        | closing =>
          simp only [branches, ← hread, hr]
          exact ih (depth - 1) condition? hgrown
        | branch next? =>
          cases depth with
          | zero =>
            rw [branches_branch hr, branches_branch (hread ▸ hr)]
            exact .cons ⟨rfl, hsofar⟩ (ih 0 next? .nil)
          | succ depth =>
            simp only [branches, ← hread, hr]
            exact ih (depth + 1) condition? hgrown

/-- Two conditions that are malformed both, or hold in the same contexts. -/
def SameTruth (condition condition' : Text) : Prop :=
  ∀ ctx : Context, (Condition.read condition).toOption.map (·.holds ctx) =
    (Condition.read condition').toOption.map (·.holds ctx)

/-- Of branches with conditions that say the same, the same survives. -/
theorem survivor_related {S : α → β → Prop} (ctx : Context) {bs : List (Option Text × α)}
    {cs : List (Option Text × β)}
    (h : Forall₂ (fun x y => Option.Rel SameTruth x.1 y.1 ∧ S x.2 y.2) bs cs) :
    Option.Rel S (survivor ctx bs) (survivor ctx cs) := by
  have hfind : ∀ {bs : List (Option Text × α)} {cs : List (Option Text × β)},
      Forall₂ (fun x y => Option.Rel SameTruth x.1 y.1 ∧ S x.2 y.2) bs cs →
        Option.Rel S ((bs.find? (·.1.isNone)).map (·.2)) ((cs.find? (·.1.isNone)).map (·.2)) := by
    intro bs cs h
    induction h with
    | nil => exact .none
    | @cons b c bs cs hb _ ih =>
      obtain ⟨condition?, x⟩ := b
      obtain ⟨condition', y⟩ := c
      obtain ⟨hcondition, hS⟩ := hb
      cases hcondition with
      | none => exact .some hS
      | some _ => exact ih
  induction h with
  | nil => exact .none
  | @cons b c bs cs hb hbs ih =>
    obtain ⟨condition?, x⟩ := b
    obtain ⟨condition', y⟩ := c
    obtain ⟨hcondition, hS⟩ := hb
    cases hcondition with
    | none => exact .some hS
    | @some condition condition' htruth =>
      replace htruth := htruth ctx
      rw [survivor, survivor]
      cases hread : Condition.read condition with
      | ok e =>
        cases hread' : Condition.read condition' with
        | ok e' =>
          rw [hread, hread'] at htruth
          have hholds : e.holds ctx = e'.holds ctx := Option.some.inj htruth
          dsimp only
          rw [hholds]
          split
          · exact .some hS
          · exact ih
        | error err =>
          rw [hread, hread'] at htruth
          exact absurd htruth (Option.some_ne_none _)
      -- a condition that cannot be read ends the search, and only a branch without one is left
      | error err =>
        cases hread' : Condition.read condition' with
        | ok e' =>
          rw [hread, hread'] at htruth
          exact absurd htruth.symm (Option.some_ne_none _)
        | error err' => exact hfind hbs

/-- Of branches with the same conditions, the same survives. -/
theorem survivor_matched {S : α → β → Prop} (ctx : Context) {bs : List (Option Text × α)}
    {cs : List (Option Text × β)} (h : Forall₂ (fun x y => x.1 = y.1 ∧ S x.2 y.2) bs cs) :
    Option.Rel S (survivor ctx bs) (survivor ctx cs) := by
  refine survivor_related ctx (h.imp fun b c hb => ⟨?_, hb.2⟩)
  rw [hb.1]
  cases c.1 with
  | none => exact .none
  | some condition => exact .some fun _ => rfl

end

end Outline

end Stencil
