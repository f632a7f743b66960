import Stencil.Proofs.Composition.Nested
import Stencil.Proofs.Composition.Sources
import Stencil.Proofs.Dict
import Stencil.Proofs.Outline.Weave

/-!
# What composition leaves behind

A text is settled if no tag of composition is in it: no include, no base, and no block. Blocks of
nested templates are resolved into settled texts, whatever they are defined as, as long as the
definitions are nested themselves; and what a template has around its base is settled.
-/

namespace Stencil

open Recognizer Outline

/-- Plain text without tags, and tags of some kind. -/
def plainWeave (d : Delimiters) (used : Text → Prop) : Weave d Unit Text where
  write _ := id
  admits
    | .plain s => d.Plain s
    | .tag body => d.Free body ∧ used body
  tidy := by
    intro q hq _
    cases q with
    | plain s => exact hq
    | tag body => exact hq.1

section

variable {d : Delimiters} {used : Text → Prop}

theorem tidy_of_plainWeave {ps : List (Piece Text)} (h : ∀ q ∈ ps, (plainWeave d used).admits q) :
    Tidy d id ps := Weave.tidy_of_admits h ()

/-- A text without tags of composition. -/
def Settled (d : Delimiters) (used : Text → Prop) (t : Text) : Prop :=
  (plainWeave d fun body => used body ∧ d.Quiet body).Family fun _ => t

/-- An outline without includes, the blocks of which balance. -/
structure Prepared (d : Delimiters) (used : Text → Prop) (ps : List (Piece Text)) : Prop where
  /-- There are no includes. -/
  admits : ∀ q ∈ ps,
    (plainWeave d fun body => used body ∧ reading d d.includeTag body = none).admits q
  /-- The blocks balance. -/
  nested : Nested d 0 ps

/-- A text that a block may be defined as: it has no includes and no base, and its blocks
balance. -/
def Definable (d : Delimiters) (used : Text → Prop) (t : Text) : Prop :=
  ∃ ps, t = write d id ps ∧ Prepared d used ps ∧ readings d d.baseTag ps = []

theorem settled_nil : Settled d used [] := Weave.family_nil

theorem Settled.append {s t : Text} (hs : Settled d used s) (ht : Settled d used t) :
    Settled d used (s ++ t) := Weave.Family.append hs ht

/-- What is inside a block of a prepared outline. -/
theorem Prepared.inside (hd : d.Apart) {ps inside : List (Piece Text)} (h : Prepared d used ps)
    {name : String} {front back : Text}
    (hpair : .pair name front inside back ∈ segments (blockPairing d) ps) :
    Prepared d used inside ∧ readings d d.baseTag inside = [] := by
  have hsegment := h.nested.forall_segments hd (tidy_of_plainWeave h.admits) _ hpair
  refine ⟨⟨fun q hq => h.admits q ?_, hsegment.1⟩, hsegment.2⟩
  exact mem_of_mem_pieces hpair q (by simp [Segment.pieces, hq])

theorem base_eq_none {ps : List (Piece Text)} (h : readings d d.baseTag ps = []) {body : Text}
    (hbody : .tag body ∈ ps) : reading d d.baseTag body = none := by
  have := List.flatMap_eq_nil_iff.mp h _ hbody
  simpa using this

/-- A loose piece of a prepared outline is settled, unless it is the base tag. -/
theorem Prepared.settled_piece (hd : d.Apart) {ps : List (Piece Text)} (h : Prepared d used ps)
    {q : Piece Text} (hpiece : .piece q ∈ segments (blockPairing d) ps)
    (hbase : ∀ body, q = .tag body → reading d d.baseTag body = none) :
    (plainWeave d fun body => used body ∧ d.Quiet body).admits q := by
  have hq := h.admits q (mem_of_mem_pieces hpiece q (by simp [Segment.pieces]))
  have hsegment := h.nested.forall_segments hd (tidy_of_plainWeave h.admits) _ hpiece
  cases q with
  | plain s => exact hq
  | tag body => exact ⟨hq.1, hq.2.1, hsegment, hq.2.2, hbase body rfl⟩

/-- Resolving the blocks of a nested text settles it. -/
theorem settled_resolve (hd : d.Apart) {definitions : Blocks}
    (hdefs : ∀ x ∈ definitions, Definable d used x.2) (active : List String)
    {ps : List (Piece Text)} (hps : Prepared d used ps) (hbase : readings d d.baseTag ps = []) :
    Settled d used (Blocks.resolve d definitions active (write d id ps)) := by
  rw [resolve_write hd definitions active (tidy_of_plainWeave hps.admits)]
  refine Weave.family_flatMap (f := fun x _ => replaced d id _ x) fun x hx => ?_
  cases x with
  | piece q =>
    exact Weave.family_piece (hps.settled_piece hd hx fun body hbody =>
      base_eq_none hbase (hbody ▸ mem_of_mem_pieces hx q (by simp [Segment.pieces])))
  | pair name front inside back =>
    by_cases hn : name ∈ active
    · exact settled_nil.congr fun _ => by rw [replaced, definition, if_pos hn]
    · cases hget : definitions.get? name with
      | some t =>
        obtain ⟨qs, ht, hqs, hqbase⟩ : Definable d used t := hdefs _ (Dict.mem_of_get? hget)
        refine (settled_resolve hd hdefs (name :: active) hqs hqbase).congr fun _ => ?_
        rw [replaced, definition, if_neg hn, hget, Option.getD_some, ← ht]
      | none =>
        obtain ⟨hinside, hibase⟩ := hps.inside hd hx
        refine (settled_resolve hd hdefs (name :: active) hinside hibase).congr fun _ => ?_
        rw [replaced, definition, if_neg hn, hget, Option.getD_none]
termination_by (definitions.unentered active, ps.length)
decreasing_by
  · exact Prod.Lex.right' _ (Blocks.unentered_cons_le ..) (length_inside_lt hx)
  · exact .left _ _ (Blocks.unentered_cons_lt hget hn)

/-- What a prepared text defines can be used in definitions. -/
theorem definable_collect (hd : d.Apart) {definitions : Blocks}
    (hdefs : ∀ x ∈ definitions, Definable d used x.2) {ps : List (Piece Text)}
    (hps : Prepared d used ps) :
    ∀ x ∈ Blocks.collect d (write d id ps) definitions, Definable d used x.2 := by
  induction hn : ps.length using Nat.strongRecOn generalizing ps definitions with
  | ind n ih =>
    rw [collect_write hd definitions (tidy_of_plainWeave hps.admits)]
    have hpairs : ∀ x ∈ pairs (segments (blockPairing d) ps),
        (Prepared d used x.2 ∧ readings d d.baseTag x.2 = []) ∧ x.2.length < n := by
      intro x hx
      obtain ⟨front, back, hpair⟩ := mem_pairs hx
      exact ⟨hps.inside hd hpair, hn ▸ length_inside_lt hpair⟩
    generalize pairs (segments (blockPairing d) ps) = xs at hpairs
    induction xs generalizing definitions with
    | nil => exact hdefs
    | cons x xs ihx =>
      obtain ⟨⟨hinside, hbase⟩, hlt⟩ := hpairs x (by simp)
      rw [List.foldl_cons]
      refine ihx (ih _ hlt ?_ hinside rfl) fun y hy => hpairs y (by simp [hy])
      intro y hy
      unfold define at hy
      split at hy
      · exact hdefs y hy
      · rcases Dict.mem_set hy with rfl | hy
        · exact ⟨x.2, rfl, hinside, hbase⟩
        · exact hdefs y hy

theorem readings_unblocked_sublist {α : Type} (r : Recognizer α) (ps : List (Piece Text)) :
    (readings d r (unblocked d ps)).Sublist (readings d r ps) := by
  have hpieces : readings d r ps =
      readings d r ((segments (blockPairing d) ps).flatMap Segment.pieces) := by
    rw [flatMap_segments]
  rw [hpieces, unblocked]
  induction segments (blockPairing d) ps with
  | nil => exact List.Sublist.refl _
  | cons x xs ih =>
    rw [List.flatMap_cons, List.flatMap_cons, readings_append, readings_append]
    refine List.Sublist.append ?_ ih
    cases x with
    | piece q => exact List.Sublist.refl _
    | pair a front inside back => exact List.nil_sublist _

/-- A settled base between what a prepared template has outside its blocks is settled. -/
theorem settled_withBase (hd : d.Apart) {ps : List (Piece Text)} (hps : Prepared d used ps)
    (hbase : (readings d d.baseTag ps).length ≤ 1) {base : Text} (hsettled : Settled d used base) :
    Settled d used (Engine.withBase d id (unblocked d ps) base) := by
  have hlen : (readings d d.baseTag (unblocked d ps)).length ≤ 1 :=
    Nat.le_trans (readings_unblocked_sublist _ ps).length_le hbase
  have hpart : ∀ part : List (Piece Text), (∀ q ∈ part, q ∈ unblocked d ps) →
      readings d d.baseTag part = [] → Settled d used (write d id part) := by
    intro part hmem hnone
    refine ⟨part, fun q hq => ?_, fun _ => rfl⟩
    obtain ⟨x, hx, hqx⟩ := List.mem_flatMap.mp (hmem q hq)
    cases x with
    | pair a front inside back => exact absurd hqx (by simp)
    | piece q' =>
      obtain rfl := List.mem_singleton.mp hqx
      exact hps.settled_piece hd hx fun body hbody => base_eq_none hnone (hbody ▸ hq)
  unfold Engine.withBase
  cases hfirst : firstTag d d.baseTag (unblocked d ps) with
  | none => exact (hpart _ (fun q hq => hq) (firstTag_eq_none hfirst)).append hsettled
  | some x =>
    obtain ⟨front, name, body, back⟩ := x
    have hsplit := (firstTag_eq_some hfirst).1
    rw [readings_firstTag hfirst, List.length_append, List.length_cons] at hlen
    refine (hpart front (fun q hq => by rw [hsplit]; simp [hq]) ?_).append
      (hsettled.append (hpart back (fun q hq => by rw [hsplit]; simp [hq]) ?_))
    · exact List.length_eq_zero_iff.mp (by omega)
    · exact List.length_eq_zero_iff.mp (by omega)

end

end Stencil
