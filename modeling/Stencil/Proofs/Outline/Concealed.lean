import Stencil.Proofs.Outline.Choices
import Stencil.Proofs.Outline.Matched

/-!
# Tags in plain content

What an outline takes for plain content may be read as a tag in the end. If it is a tag that a
pairing ignores, then the outline has the same pairs as before: the tag is a piece like any other.
So it is with conditionals, and one outline tells what becomes of a text for every way to read its
plain content.
-/

namespace Stencil

open Recognizer

variable {P Q : Type} {r : P → Piece Q}

namespace Piece

/-- A piece, given what plain content is read as. -/
def bind (r : P → Piece Q) : Piece P → Piece Q
  | .plain p => r p
  | .tag body => .tag body

@[simp]
theorem bind_plain (p : P) : (Piece.plain p).bind r = r p := rfl

@[simp]
theorem bind_tag (body : Text) : (Piece.tag body : Piece P).bind r = .tag body := rfl

end Piece

/-- A part of an outline, given what plain content is read as. -/
def Segment.bind {α : Type} (r : P → Piece Q) : Segment P α → Segment Q α
  | .piece q => .piece (q.bind r)
  | .pair a front inside back => .pair a front (inside.map (Piece.bind r)) back

/-- What is left of a part of an outline, given what is left of pairs. -/
def Segment.leave {α : Type} (f : α → List (Piece P) → List (Piece P)) :
    Segment P α → List (Piece P)
  | .piece q => [q]
  | .pair a _ inside _ => f a inside

/-- A tag makes no difference to a pairing: it closes nothing, and what it opens is closed by none
of the tags there are. -/
structure Pairing.Ignores {α : Type} (g : Pairing α) (tags : Text → Prop) (body : Text) : Prop where
  /-- It closes nothing. -/
  closes : ∀ a, g.closes a body = false
  /-- What it opens is not closed. -/
  opens : ∀ a, g.opens a body = true ∨ a ∈ g.heads body → ∀ back, tags back →
    g.closes a back = false

theorem Pairing.Ignores.mono {α : Type} {g : Pairing α} {tags tags' : Text → Prop} {body : Text}
    (h : g.Ignores tags body) (htags : ∀ back, tags' back → tags back) : g.Ignores tags' body :=
  ⟨h.closes, fun a ha back hback => h.opens a ha back (htags back hback)⟩

namespace Outline

variable {α : Type} {d : Delimiters} {ps : List (Piece P)}

/-! ## Pairs -/

/-- Pieces, a closing tag, and pieces, given what plain content is read as. -/
def bindSplit (r : P → Piece Q) (x : List (Piece P) × Text × List (Piece P)) :
    List (Piece Q) × Text × List (Piece Q) :=
  (x.1.map (Piece.bind r), x.2.1, x.2.2.map (Piece.bind r))

/-- A split does not see plain content that is read as a tag which neither opens nor closes. -/
theorem splitClose_bind_of_unseen {opens closes : Text → Bool} (depth : Nat)
    (h : ∀ p body, .plain p ∈ ps → r p = .tag body → opens body = false ∧ closes body = false) :
    splitClose opens closes depth (ps.map (Piece.bind r)) =
      (splitClose opens closes depth ps).map (bindSplit r) := by
  induction ps generalizing depth with
  | nil => cases depth <;> rfl
  | cons q ps ih =>
    have ih := fun depth => ih depth fun p body hp => h p body (.tail _ hp)
    -- a piece that does not close the split goes in front of what is split behind it
    have hgrow : ∀ depth, ((splitClose opens closes depth ps).map (bindSplit r)).map
        (fun x => (q.bind r :: x.1, x.2)) =
          ((splitClose opens closes depth ps).map fun x => (q :: x.1, x.2)).map (bindSplit r) := by
      intro depth
      rw [Option.map_map, Option.map_map]
      rfl
    rw [List.map_cons]
    cases q with
    | plain p =>
      rw [splitClose, ← hgrow, ← ih]
      cases hr : r p with
      | plain q => rw [Piece.bind_plain, hr, splitClose]
      | tag body =>
        obtain ⟨ho, hc⟩ := h p body (.head _) hr
        rw [Piece.bind_plain, hr, splitClose_other ho hc]
    | tag body =>
      rw [Piece.bind_tag] at hgrow ⊢
      cases ho : opens body with
      | true =>
        cases hc : closes body with
        | true => simp only [splitClose, ho, hc, ih, hgrow]
        | false => rw [splitClose_opens ho hc, splitClose_opens ho hc, ih, hgrow]
      | false =>
        cases hc : closes body with
        | true =>
          cases depth with
          | zero =>
            rw [splitClose_found ho hc, splitClose_found ho hc]
            rfl
          | succ depth => rw [splitClose_closes ho hc, splitClose_closes ho hc, ih, hgrow]
        | false => rw [splitClose_other ho hc, splitClose_other ho hc, ih, hgrow]

/-- Nor does it see such a tag if it opens what no tag closes. -/
theorem splitClose_bind {opens closes : Text → Bool} (depth : Nat)
    (h : ∀ p body, .plain p ∈ ps → r p = .tag body →
      closes body = false ∧ (opens body = true → ∀ back, .tag back ∈ ps → closes back = false)) :
    splitClose opens closes depth (ps.map (Piece.bind r)) =
      (splitClose opens closes depth ps).map (bindSplit r) := by
  by_cases hclosed : ∃ back, .tag back ∈ ps ∧ closes back = true
  · obtain ⟨back, hback, hcloses⟩ := hclosed
    refine splitClose_bind_of_unseen depth fun p body hp hr => ?_
    obtain ⟨hc, ho⟩ := h p body hp hr
    refine ⟨Bool.eq_false_iff.mpr fun hopens => ?_, hc⟩
    rw [ho hopens back hback] at hcloses
    exact absurd hcloses (by simp)
  · -- nothing is closed, neither here nor there
    have hopen : ∀ back, .tag back ∈ ps → closes back = false := fun back hback =>
      Bool.eq_false_iff.mpr fun hcloses => hclosed ⟨back, hback, hcloses⟩
    rw [splitClose_eq_none hopen, splitClose_eq_none, Option.map_none]
    intro back hback
    obtain ⟨q, hq, heq⟩ := List.mem_map.mp hback
    cases q with
    | plain p => exact (h p back hq heq).1
    | tag body =>
      obtain rfl := Piece.tag.inj heq
      exact hopen body hq

theorem pairFrom_bind {g : Pairing α} (front : Text)
    (h : ∀ p body, .plain p ∈ ps → r p = .tag body → g.Ignores (fun back => .tag back ∈ ps) body) :
    pairFrom g front (ps.map (Piece.bind r)) =
      (pairFrom g front ps).map fun x => (x.1, bindSplit r x.2) := by
  rw [pairFrom, pairFrom]
  induction g.heads front with
  | nil => rfl
  | cons a heads ih =>
    rw [List.findSome?_cons, List.findSome?_cons, splitClose_bind 0 fun p body hp hr =>
      ⟨(h p body hp hr).closes a, fun ho => (h p body hp hr).opens a (.inl ho)⟩]
    cases splitClose (g.opens a) (g.closes a) 0 ps with
    | none => exact ih
    | some x => rfl

/-- A tag that a pairing ignores starts no pair. -/
theorem pairFrom_of_ignores {g : Pairing α} {body : Text}
    (h : g.Ignores (fun back => .tag back ∈ ps) body) : pairFrom g body ps = none := by
  refine List.findSome?_eq_none_iff.mpr fun a ha => ?_
  rw [splitClose_eq_none (h.opens a (.inr ha)), Option.map_none]

/-- An outline has the same segments if plain content is read as tags that are ignored. -/
theorem segments_bind {g : Pairing α}
    (h : ∀ p body, .plain p ∈ ps → r p = .tag body → g.Ignores (fun back => .tag back ∈ ps) body) :
    segments g (ps.map (Piece.bind r)) = (segments g ps).map (Segment.bind r) := by
  -- what is ignored in an outline is ignored in a part of it
  have hpart : ∀ {qs : List (Piece P)}, (∀ q ∈ qs, q ∈ ps) → ∀ p body, .plain p ∈ qs →
      r p = .tag body → g.Ignores (fun back => .tag back ∈ qs) body :=
    fun hqs p body hp hr => (h p body (hqs _ hp) hr).mono fun back hback => hqs _ hback
  clear h
  fun_induction segments g ps with
  | case1 => simp [segments]
  | case2 p ps ih =>
    have hps := hpart fun q hq => List.mem_cons_of_mem _ hq
    rw [List.map_cons, List.map_cons, ← ih fun hqs => hpart fun q hq => .tail _ (hqs q hq)]
    cases hr : r p with
    | plain q =>
      rw [Piece.bind_plain, hr, segments, Segment.bind, Piece.bind_plain, hr]
    | tag body =>
      have hignores := hpart (fun _ => id) p body (.head _) hr
      have hnone := (pairFrom_bind body hps).trans (congrArg _ (pairFrom_of_ignores
        (hignores.mono fun back hback => .tail _ hback)))
      rw [Piece.bind_plain, hr, segments_cons_none hnone, Segment.bind, Piece.bind_plain, hr]
  | case3 body ps hnone ih =>
    have hps := hpart fun q hq => List.mem_cons_of_mem _ hq
    rw [List.map_cons, List.map_cons, ← ih fun hqs => hpart fun q hq => .tail _ (hqs q hq)]
    refine segments_cons_none ?_
    rw [pairFrom_bind body hps, hnone]
    rfl
  | case4 body ps a inside back rest hsome hlt ih =>
    have hps := hpart fun q hq => List.mem_cons_of_mem _ hq
    -- the rest behind the closing tag is a part of the pieces
    have hrest : ∀ q ∈ rest, q ∈ Piece.tag body :: ps := by
      intro q hq
      rw [pairFrom_eq hsome]
      exact .tail _ (List.mem_append_right _ (.tail _ hq))
    rw [List.map_cons, List.map_cons, ← ih fun hqs => hpart fun q hq => hrest q (hqs q hq)]
    refine segments_cons_some ?_
    rw [pairFrom_bind body hps, hsome]
    rfl

/-- Branches keep plain content that is read as a tag of no conditional. -/
theorem branches_bind (depth : Nat) (condition? : Option Text) (sofar : List (Piece P))
    (h : ∀ p body, .plain p ∈ ps → r p = .tag body → reading d d.conditionalTag body = none) :
    branches d depth condition? (sofar.map (Piece.bind r)) (ps.map (Piece.bind r)) =
      (branches d depth condition? sofar ps).map fun b => (b.1, b.2.map (Piece.bind r)) := by
  induction ps generalizing depth condition? sofar with
  | nil => rfl
  | cons q ps ih =>
    have ih := fun depth condition? sofar =>
      ih depth condition? sofar fun p body hp => h p body (.tail _ hp)
    have hgrow : ∀ depth, branches d depth condition? (sofar.map (Piece.bind r) ++ [q.bind r])
        (ps.map (Piece.bind r)) =
          (branches d depth condition? (sofar ++ [q]) ps).map
            fun b => (b.1, b.2.map (Piece.bind r)) := by
      intro depth
      rw [← ih, List.map_append]
      rfl
    rw [List.map_cons]
    cases q with
    | plain p =>
      rw [branches, ← hgrow depth]
      cases hr : r p with
      | plain q => rw [Piece.bind_plain, hr, branches]
      | tag body => simp only [Piece.bind_plain, hr, branches, h p body (.head _) hr]
    | tag body =>
      rw [Piece.bind_tag] at hgrow ⊢
      cases hr : reading d d.conditionalTag body with
      | none =>
        simp only [branches, hr]
        exact hgrow depth
      | some c =>
        cases c with
        | opening condition =>
          simp only [branches, hr]
          exact hgrow (depth + 1)
        | closing =>
          simp only [branches, hr]
          exact hgrow (depth - 1)
        | branch next? =>
          cases depth with
          | zero =>
            simp only [branches, hr, List.map_cons]
            exact congrArg _ (ih 0 next? [])
          | succ depth =>
            simp only [branches, hr]
            exact hgrow (depth + 1)

/-! ## What passes leave -/


theorem tidy_bind {r : P → Piece Text} (h : ∀ q ∈ ps, (q.bind r).Tidy d id) :
    Tidy d id (ps.map (Piece.bind r)) := List.forall_mem_map.mpr h

theorem mem_leave {g : Pairing α} {f : α → List (Piece P) → List (Piece P)} {q : Piece P}
    (h : q ∈ (segments g ps).flatMap (Segment.leave f)) :
    .piece q ∈ segments g ps ∨
      ∃ a front inside back, .pair a front inside back ∈ segments g ps ∧ q ∈ f a inside := by
  obtain ⟨x, hx, hq⟩ := List.mem_flatMap.mp h
  cases x with
  | piece q' => exact .inl (List.mem_singleton.mp hq ▸ hx)
  | pair a front inside back => exact .inr ⟨a, front, inside, back, hx, hq⟩

theorem leave_pieces (f : α → List (Piece P) → List (Piece P)) (ps : List (Piece P)) :
    (ps.map Segment.piece).flatMap (Segment.leave f) = ps := by
  rw [List.flatMap_map]
  exact List.flatMap_singleton' ps

/-- What is left of an outline is what is left of its parts, whatever plain content is read as. -/
theorem replaced_bind {g : Pairing α} {r : P → Piece Text}
    (hignores : ∀ p body, .plain p ∈ ps → r p = .tag body →
    g.Ignores (fun back => .tag back ∈ ps) body)
    {t : α → List (Piece Text) → Text} {f : α → List (Piece P) → List (Piece P)}
    (h : ∀ a front inside back, .pair a front inside back ∈ segments g ps →
      t a (inside.map (Piece.bind r)) = write d id ((f a inside).map (Piece.bind r))) :
    (segments g (ps.map (Piece.bind r))).flatMap (replaced d id t) =
      write d id (((segments g ps).flatMap (Segment.leave f)).map (Piece.bind r)) := by
  rw [segments_bind hignores, List.map_flatMap, write_flatMap, List.flatMap_map]
  refine congrArg List.flatten (List.map_congr_left fun x hx => ?_)
  cases x with
  | piece q => simp [Segment.bind, Segment.leave, replaced]
  | pair a front inside back => exact h a front inside back hx

theorem survivor_branches {ctx : Context} {condition? : Option Text}
    {inside branch : List (Piece P)}
    (h : survivor ctx (branches d 0 condition? [] inside) = some branch) :
    (∀ q ∈ branch, q ∈ inside) ∧ branch.length ≤ inside.length := by
  obtain ⟨next?, hmem⟩ := survivor_mem h
  have hbranch := branchOf_of_mem hmem
  exact ⟨fun q hq => (hbranch.pieces q hq).resolve_left (by simp), by simpa using hbranch.length⟩

/-- What is left of an outline when its conditionals are resolved. -/
def chosen (d : Delimiters) (ctx : Context) (ps : List (Piece P)) : List (Piece P) :=
  (segments (choicePairing d) ps).attach.flatMap fun x =>
    match x with
    | ⟨.piece q, _⟩ => [q]
    | ⟨.pair condition _ inside _, _⟩ =>
      match _h : survivor ctx (branches d 0 (some condition) [] inside) with
      | some branch => chosen d ctx branch
      | none => []
termination_by ps.length
decreasing_by exact Nat.lt_of_le_of_lt (survivor_branches ‹_›).2 (length_inside_lt ‹_›)

theorem chosen_eq (ctx : Context) (ps : List (Piece P)) :
    chosen d ctx ps = (segments (choicePairing d) ps).flatMap (Segment.leave fun condition inside =>
      ((survivor ctx (branches d 0 (some condition) [] inside)).map (chosen d ctx)).getD []) := by
  rw [chosen]
  refine (List.flatMap_subtype fun x hx => ?_).trans (by rw [List.unattach_attach])
  cases x with
  | piece q => rfl
  | pair condition front inside back =>
    rw [Segment.leave]
    dsimp only
    split <;> rename_i h <;> rw [h] <;> rfl

theorem mem_of_mem_chosen {ctx : Context} {q : Piece P} (h : q ∈ chosen d ctx ps) : q ∈ ps := by
  -- the branches of conditionals are shorter outlines
  induction hn : ps.length using Nat.strongRecOn generalizing ps with
  | ind n ih =>
    rw [chosen_eq] at h
    rcases mem_leave h with hq | ⟨condition, front, inside, back, hpair, hq⟩
    · exact mem_of_mem_pieces hq q (List.mem_singleton_self q)
    · cases hsurvivor : survivor ctx (branches d 0 (some condition) [] inside) with
      | none => simp [hsurvivor] at hq
      | some branch =>
        obtain ⟨hpieces, hlen⟩ := survivor_branches hsurvivor
        have hlt : branch.length < n := hn ▸ Nat.lt_of_le_of_lt hlen (length_inside_lt hpair)
        rw [hsurvivor] at hq
        have hmem := hpieces q (ih branch.length hlt hq rfl)
        exact mem_of_mem_pieces hpair q (by simp [Segment.pieces, hmem])

/-- Resolving the conditionals of an outline, whatever plain content is read as. -/
theorem resolveConditionals_chosen (hd : d.Apart) (ctx : Context) {r : P → Piece Text}
    (htidy : ∀ q ∈ ps, (q.bind r).Tidy d id)
    (hunread : ∀ p body, .plain p ∈ ps → r p = .tag body → reading d d.conditionalTag body = none) :
    resolveConditionals d ctx (write d id (ps.map (Piece.bind r))) =
      write d id ((chosen d ctx ps).map (Piece.bind r)) := by
  induction hn : ps.length using Nat.strongRecOn generalizing ps with
  | ind n ih =>
    rw [resolveConditionals_write hd ctx (tidy_bind htidy), chosen_eq]
    refine replaced_bind (fun p body hp hbody => ?_) fun condition front inside back hpair => ?_
    · have hnone := hunread p body hp hbody
      constructor <;> simp [choicePairing, opensChoice, closesChoice, hnone]
    · have hinside : ∀ q ∈ inside, q ∈ ps := fun q hq =>
        mem_of_mem_pieces hpair q (by simp [Segment.pieces, hq])
      have hbranches := branches_bind (r := r) 0 (some condition) [] fun p body hp =>
        hunread p body (hinside _ hp)
      rw [List.map_nil] at hbranches
      rw [hbranches, survivor_map]
      cases hsurvivor : survivor ctx (branches d 0 (some condition) [] inside) with
      | none => rfl
      | some branch =>
        obtain ⟨hpieces, hlen⟩ := survivor_branches hsurvivor
        have hlt : branch.length < n := hn ▸ Nat.lt_of_le_of_lt hlen (length_inside_lt hpair)
        exact ih branch.length hlt (fun q hq => htidy q (hinside q (hpieces q hq)))
          (fun p body hp => hunread p body (hinside _ (hpieces _ hp))) rfl

end Outline

end Stencil
