import Stencil.Proofs.Composition.Nested
import Stencil.Proofs.Dict

/-!
# Definitions of blocks

What the blocks of a template define, in the order in which they are opened: a block inside another
comes after it. Collecting definitions looks for blocks from the outside to the inside, and takes a
name for defined once it has a definition; so what it finds under a name is the first definition of
that name, and what blocks are replaced by depends on no more than this.
-/

namespace Stencil

namespace Outline

open Recognizer

variable {P : Type} {d : Delimiters} {w : P → Text}

/-- What the blocks of an outline define, in the order of their opening tags. -/
def declarations (d : Delimiters) (w : P → Text) : List (Piece P) → Blocks
  | [] => []
  | .plain _ :: ps => declarations d w ps
  | .tag body :: ps =>
    ((pairFrom (blockPairing d) body ps).map fun x => (x.1, write d w x.2.1)).toList ++
      declarations d w ps

theorem splitClose_append {opens closes : Text → Bool} {depth : Nat}
    {ps inside rest : List (Piece P)} {back : Text}
    (h : splitClose opens closes depth ps = some (inside, back, rest)) (qs : List (Piece P)) :
    splitClose opens closes depth (ps ++ qs) = some (inside, back, rest ++ qs) := by
  have hstep : ∀ {q : Piece P} {x y : Option (List (Piece P) × Text × List (Piece P))},
      (∀ {tail}, x = some (tail, back, rest) → y = some (tail, back, rest ++ qs)) →
      ∀ {inside}, x.map (fun x => (q :: x.1, x.2)) = some (inside, back, rest) →
        y.map (fun x => (q :: x.1, x.2)) = some (inside, back, rest ++ qs) := by
    intro q x y ih inside hx
    obtain ⟨tail, rfl, htail⟩ := cons_split hx
    rw [ih htail]
    rfl
  fun_induction splitClose opens closes depth ps generalizing inside with
  | case1 => exact absurd h (by simp)
  | case2 depth p ps ih => exact hstep ih h
  | case3 body ps depth hc ho ih =>
    rw [List.cons_append, splitClose_opens ho hc]
    exact hstep ih h
  | case4 body ps hc ho =>
    simp only [Option.some.injEq, Prod.mk.injEq] at h
    obtain ⟨rfl, rfl, rfl⟩ := h
    exact splitClose_found ho hc
  | case5 body ps depth hc ho ih =>
    rw [List.cons_append, splitClose_closes ho hc]
    exact hstep ih h
  | case6 body ps depth hc ho ih =>
    have hboth : ∀ ps : List (Piece P), splitClose opens closes depth (.tag body :: ps) =
        (splitClose opens closes depth ps).map fun x => (.tag body :: x.1, x.2) := fun ps => by
      simp [splitClose, ho, hc]
    rw [List.cons_append, hboth]
    exact hstep ih h
  | case7 body ps depth hc ho ih =>
    rw [List.cons_append, splitClose_other ho hc]
    exact hstep ih h

theorem pairFrom_append {α : Type} {g : Pairing α} {front back : Text} {a : α}
    {ps inside rest : List (Piece P)} (h : g.heads front = [a])
    (hp : pairFrom g front ps = some (a, inside, back, rest)) (qs : List (Piece P)) :
    pairFrom g front (ps ++ qs) = some (a, inside, back, rest ++ qs) := by
  obtain ⟨before, after, -, -, hsplit⟩ := pairFrom_eq_some hp
  rw [pairFrom, h, List.findSome?_singleton, splitClose_append hsplit qs]
  rfl

/-- A tag of a nested outline that opens a block has a closing tag. -/
theorem Nested.pairFrom_opening (hd : d.Apart) {depth : Nat} {body : Text} {name : String}
    {ps : List (Piece P)} (hps : Tidy d w ps) (hreads : reading d d.blockOpening body = some name)
    (h : Nested d (depth + 1) ps) :
    ∃ inside back rest, pairFrom (blockPairing d) body ps = some (name, inside, back, rest) := by
  obtain ⟨inside, back, rest, hsplit, -⟩ := h.split hd name depth 0 hps
  exact ⟨inside, back, rest, by simp [pairFrom, blockPairing, hreads] at hsplit ⊢; simp [hsplit]⟩

theorem pairFrom_blocks_none {body : Text} (h : reading d d.blockOpening body = none)
    (ps : List (Piece P)) : pairFrom (blockPairing d) body ps = none := by
  simp [pairFrom, blockPairing, h]

theorem declarations_append (hd : d.Apart) {depth : Nat} {ps : List (Piece P)} (hps : Tidy d w ps)
    (h : Nested d depth ps) (qs : List (Piece P)) :
    declarations d w (ps ++ qs) = declarations d w ps ++ declarations d w qs := by
  have hnone : ∀ {body : Text} {ps : List (Piece P)}, reading d d.blockOpening body = none →
      declarations d w (ps ++ qs) = declarations d w ps ++ declarations d w qs →
        declarations d w (.tag body :: ps ++ qs) =
          declarations d w (.tag body :: ps) ++ declarations d w qs := by
    intro body ps hread ih
    rw [List.cons_append, declarations, declarations, pairFrom_blocks_none hread,
      pairFrom_blocks_none hread, ih]
    rfl
  induction h with
  | nil => rfl
  | plain rest ih => exact ih hps.tail
  | @opening depth body name ps reads rest ih =>
    obtain ⟨inside, back, tail, hpair⟩ := rest.pairFrom_opening hd hps.tail reads
    have hheads : (blockPairing d).heads body = [name] := by simp [blockPairing, reads]
    rw [List.cons_append, declarations, declarations, hpair, pairFrom_append hheads hpair qs,
      ih hps.tail, List.append_assoc]
    rfl
  | closing reads rest ih =>
    exact hnone (Delimiters.not_opening_of_blockClosing hd hps.head reads) (ih hps.tail)
  | base reads rest ih =>
    exact hnone (Delimiters.loose_of_baseTag hd hps.head reads).1 (ih hps.tail)
  | other loose reads rest ih => exact hnone loose.1 (ih hps.tail)

/-- Block by block, a nested outline defines what the block is, and then what is in it. -/
theorem declarations_segments (hd : d.Apart) {ps : List (Piece P)} (hps : Tidy d w ps)
    (h : Nested d 0 ps) :
    declarations d w ps = (pairs (segments (blockPairing d) ps)).flatMap fun x =>
      (x.1, write d w x.2) :: declarations d w x.2 := by
  fun_induction segments (blockPairing d) ps with
  | case1 => rfl
  | case2 p ps ih =>
    cases h with
    | plain rest => exact ih hps.tail rest
  | case3 body ps hnone ih =>
    have hrest : Nested d 0 ps := by
      cases h with
      | opening reads rest =>
        obtain ⟨inside, back, tail, hsome⟩ := rest.pairFrom_opening hd hps.tail reads
        rw [hnone] at hsome
        exact absurd hsome (by simp)
      | base reads rest => exact rest
      | other loose reads rest => exact rest
    rw [declarations, hnone]
    exact ih hps.tail hrest
  | case4 body ps name inside back rest hsome hlt ih =>
    obtain ⟨-, hback, hinside, -, hrest⟩ := h.of_pairFrom hd hps hsome
    have hb := pairFrom_eq hsome
    subst hb
    obtain ⟨hpsInside, hpsRest⟩ := tidy_append.mp hps.tail
    rw [declarations, hsome, declarations_append hd hpsInside hinside, declarations,
      pairFrom_blocks_none (Delimiters.not_opening_of_blockClosing hd hpsRest.head hback), pairs,
      List.flatMap_cons, ← ih hpsRest.tail hrest]
    rfl

theorem get?_define (blocks : Blocks) (name : String) (content : Text) (key : String) :
    Dict.get? (define blocks name content) key = Dict.get? (blocks ++ [(name, content)]) key := by
  rw [Dict.get?_append, define]
  cases hname : blocks.get? name with
  | some t =>
    rw [if_pos (by simp [Dict.has, hname])]
    by_cases hk : name = key
    · subst hk
      simp [hname]
    · simp [Dict.get?, hk]
  | none =>
    rw [if_neg (by simp [Dict.has, hname]), Dict.get?_set]
    by_cases hk : name = key
    · subst hk
      simp [hname, Dict.get?]
    · simp [Dict.get?, hk]

/-- Under every name, collecting keeps the definition that is there, and adds the first of the
outline where there is none. -/
theorem get?_collect (hd : d.Apart) {ps : List (Piece P)} (hps : Tidy d w ps) (h : Nested d 0 ps)
    (blocks : Blocks) (key : String) :
    Dict.get? (Blocks.collect d (write d w ps) blocks) key =
      Dict.get? (blocks ++ declarations d w ps) key := by
  induction hn : ps.length using Nat.strongRecOn generalizing ps blocks with
  | ind n ih =>
    rw [collect_write hd blocks hps, declarations_segments hd hps h]
    have hpairs : ∀ x ∈ pairs (segments (blockPairing d) ps),
        Tidy d w x.2 ∧ Nested d 0 x.2 ∧ x.2.length < n := by
      intro x hx
      obtain ⟨front, back, hpair⟩ := mem_pairs hx
      refine ⟨fun q hq => hps q (mem_of_mem_pieces hpair q (by simp [Segment.pieces, hq])),
        (h.forall_segments hd hps _ hpair).1, hn ▸ length_inside_lt hpair⟩
    generalize pairs (segments (blockPairing d) ps) = xs at hpairs
    -- block by block
    induction xs generalizing blocks with
    | nil => simp
    | cons x xs ihx =>
      obtain ⟨htidy, hnested, hlt⟩ := hpairs x (by simp)
      have hfirst := ih _ hlt htidy hnested (define blocks x.1 (write d w x.2)) rfl
      have hcons : ((x.1, write d w x.2) :: declarations d w x.2 : Blocks) =
          [(x.1, write d w x.2)] ++ declarations d w x.2 := rfl
      rw [List.foldl_cons, ihx _ fun y hy => hpairs y (by simp [hy]), List.flatMap_cons, hcons]
      simp only [Dict.get?_append, hfirst, get?_define, Option.or_assoc]

/-! ## What blocks are replaced by -/

/-- Only the first definition of a name counts. -/
theorem resolve_congr {definitions definitions' : Blocks}
    (h : ∀ name, definitions.get? name = definitions'.get? name) (active : List String) (s : Text) :
    definitions.resolve d active s = definitions'.resolve d active s := by
  rw [resolve_eq, resolve_eq]
  by_cases hs : s = []
  · rw [hs, outermost_nil]
    rfl
  congr 1
  refine List.map_congr_left fun block _ => ?_
  have hlt := block.length_body_lt hs
  congr 1
  by_cases hn : block.opening.content ∈ active
  · rw [definition, definition, if_pos hn, if_pos hn]
  · rw [definition, definition, if_neg hn, if_neg hn, ← h]
    cases hget : definitions.get? block.opening.content with
    | some content => exact resolve_congr h _ content
    | none => exact resolve_congr h _ (block.body s)
termination_by (definitions.unentered active, s.length)
decreasing_by
  · exact Prod.Lex.right' _ (Blocks.unentered_cons_le ..) hlt
  · exact .left _ _ (Blocks.unentered_cons_lt hget hn)

end Outline

end Stencil
