import Stencil.Proofs.Composition.Outline

/-!
# Templates with balanced blocks

A template is nested if its block tags balance and its base tag stands outside all blocks. The
segments of such a template are pieces that are no block tags, and blocks that are nested
themselves and have no base tag.

Which of these a tag is shows in the word it starts with, so no tag is two of them.
-/

namespace Stencil

namespace Delimiters

open Recognizer

variable {d : Delimiters} {body : Text}

/-! ## Tags of composition -/

theorem eq_none_of_leadingWord {α : Type} {r : Recognizer α} (words : List Text)
    (hr : ∀ a, reading d r body = some a → leadingWord body ∈ words)
    (h : leadingWord body ∉ words) : reading d r body = none := by
  cases hread : reading d r body with
  | none => rfl
  | some a => exact absurd (hr a hread) h

theorem eq_none_of_not_include (hd : d.Apart) (hb : d.Free body)
    (h : leadingWord body ≠ "include".toList) : reading d d.includeTag body = none :=
  eq_none_of_leadingWord ["include".toList]
    (fun _ ha => by simp [(names_includeTag hd hb ha).1]) (by simpa using h)

theorem eq_none_of_not_extends (hd : d.Apart) (hb : d.Free body)
    (h : leadingWord body ∉ [("extends".toList : Text), "extend".toList]) :
    reading d d.baseTag body = none := by
  refine eq_none_of_leadingWord _ (fun _ ha => ?_) h
  rcases names_baseTag hd hb ha with hn | hn
  · simp [hn.1]
  · simp [hn.1]

theorem eq_none_of_not_block (hd : d.Apart) (hb : d.Free body)
    (h : leadingWord body ≠ "block".toList) : reading d d.blockOpening body = none :=
  eq_none_of_leadingWord ["block".toList]
    (fun _ ha => by simp [leadingWord_blockOpening hd hb ha]) (by simpa using h)

theorem eq_none_of_not_endblock (hd : d.Apart) (hb : d.Free body)
    (h : leadingWord body ≠ "endblock".toList) : reading d d.blockClosing body = none :=
  eq_none_of_leadingWord ["endblock".toList]
    (fun _ ha => by simp [leadingWord_blockClosing hd hb ha]) (by simpa using h)

/-- The tag neither opens nor closes a block. -/
def Loose (d : Delimiters) (body : Text) : Prop :=
  reading d d.blockOpening body = none ∧ reading d d.blockClosing body = none

/-- The tag has no part in composition. -/
def Quiet (d : Delimiters) (body : Text) : Prop :=
  d.Loose body ∧ reading d d.includeTag body = none ∧ reading d d.baseTag body = none

theorem not_base_of_blockOpening (hd : d.Apart) (hb : d.Free body) {name : String}
    (h : reading d d.blockOpening body = some name) : reading d d.baseTag body = none :=
  eq_none_of_not_extends hd hb (by rw [leadingWord_blockOpening hd hb h]; decide)

theorem not_base_of_blockClosing (hd : d.Apart) (hb : d.Free body) {u : Unit}
    (h : reading d d.blockClosing body = some u) : reading d d.baseTag body = none :=
  eq_none_of_not_extends hd hb (by rw [leadingWord_blockClosing hd hb h]; decide)

theorem not_closing_of_blockOpening (hd : d.Apart) (hb : d.Free body) {name : String}
    (h : reading d d.blockOpening body = some name) : reading d d.blockClosing body = none :=
  eq_none_of_not_endblock hd hb (by rw [leadingWord_blockOpening hd hb h]; decide)

theorem not_opening_of_blockClosing (hd : d.Apart) (hb : d.Free body) {u : Unit}
    (h : reading d d.blockClosing body = some u) : reading d d.blockOpening body = none :=
  eq_none_of_not_block hd hb (by rw [leadingWord_blockClosing hd hb h]; decide)

theorem loose_of_baseTag (hd : d.Apart) (hb : d.Free body) {name : String}
    (h : reading d d.baseTag body = some name) : d.Loose body := by
  rcases names_baseTag hd hb h with hn | hn
  · exact ⟨eq_none_of_not_block hd hb (by rw [hn.1]; decide),
      eq_none_of_not_endblock hd hb (by rw [hn.1]; decide)⟩
  · exact ⟨eq_none_of_not_block hd hb (by rw [hn.1]; decide),
      eq_none_of_not_endblock hd hb (by rw [hn.1]; decide)⟩

theorem not_include_of_blockOpening (hd : d.Apart) (hb : d.Free body) {name : String}
    (h : reading d d.blockOpening body = some name) : reading d d.includeTag body = none :=
  eq_none_of_not_include hd hb (by rw [leadingWord_blockOpening hd hb h]; decide)

theorem not_include_of_blockClosing (hd : d.Apart) (hb : d.Free body) {u : Unit}
    (h : reading d d.blockClosing body = some u) : reading d d.includeTag body = none :=
  eq_none_of_not_include hd hb (by rw [leadingWord_blockClosing hd hb h]; decide)

theorem not_include_of_baseTag (hd : d.Apart) (hb : d.Free body) {name : String}
    (h : reading d d.baseTag body = some name) : reading d d.includeTag body = none := by
  rcases names_baseTag hd hb h with hn | hn
  · exact eq_none_of_not_include hd hb (by rw [hn.1]; decide)
  · exact eq_none_of_not_include hd hb (by rw [hn.1]; decide)

end Delimiters

namespace Outline

open Recognizer Delimiters

variable {P α : Type} {d : Delimiters} {w : P → Text}

/-! ## What the tags of an outline say -/

/-- What a grammar reads off the tags of an outline. -/
def readings (d : Delimiters) (r : Recognizer α) (ps : List (Piece P)) : List α :=
  ps.flatMap fun
    | .plain _ => []
    | .tag body => (reading d r body).toList

@[simp]
theorem readings_nil (r : Recognizer α) : readings (P := P) d r [] = [] := rfl

@[simp]
theorem readings_plain (r : Recognizer α) (p : P) (ps : List (Piece P)) :
    readings d r (.plain p :: ps) = readings d r ps := rfl

@[simp]
theorem readings_tag (r : Recognizer α) (body : Text) (ps : List (Piece P)) :
    readings d r (.tag body :: ps) = (reading d r body).toList ++ readings d r ps := rfl

@[simp]
theorem readings_append (r : Recognizer α) (ps qs : List (Piece P)) :
    readings d r (ps ++ qs) = readings d r ps ++ readings d r qs := by
  simp [readings]

theorem content_locate (r : Recognizer α) (pos : Nat) (ps : List (Piece P)) :
    (locate d w (tagAt d r) pos ps).map (·.content) = readings d r ps := by
  induction ps generalizing pos with
  | nil => rfl
  | cons q ps ih =>
    cases q with
    | plain p => exact ih _
    | tag body =>
      rw [locate, List.map_append, ih, readings_tag]
      congr 1
      unfold tagAt
      cases reading d r body <;> rfl

theorem content_scan (hd : d.Apart) {r : Recognizer α} (hr : Delimited d r) {ps : List (Piece P)}
    (hps : Tidy d w ps) : (Tag.scan r (write d w ps)).map (·.content) = readings d r ps := by
  rw [Tag.scan, scanFrom_write hd hr hps, content_locate]

theorem firstTag_eq_none {r : Recognizer α} {ps : List (Piece P)} (h : firstTag d r ps = none) :
    readings d r ps = [] := by
  induction ps with
  | nil => rfl
  | cons q ps ih =>
    cases q with
    | plain p => exact ih (by simpa [firstTag] using h)
    | tag body =>
      rw [firstTag] at h
      cases hr : reading d r body with
      | none =>
        rw [hr] at h
        rw [readings_tag, hr, ih (by simpa using h)]
        rfl
      | some a => rw [hr] at h; exact absurd h (by simp)

theorem readings_firstTag {r : Recognizer α} {ps front back : List (Piece P)} {a : α} {body : Text}
    (h : firstTag d r ps = some (front, a, body, back)) :
    readings d r ps = readings d r front ++ a :: readings d r back := by
  obtain ⟨rfl, hread⟩ := firstTag_eq_some h
  rw [readings_append, readings_tag, hread]
  rfl

/-! ## Nesting -/

/-- Block tags balance, given how many blocks are open in front, and base tags stand outside. -/
inductive Nested (d : Delimiters) : (depth : Nat) → List (Piece P) → Prop where
  /-- At the end, no block is open. -/
  | nil : Nested d 0 []
  /-- Plain text. -/
  | plain {depth : Nat} {p : P} {ps : List (Piece P)} (rest : Nested d depth ps) :
    Nested d depth (.plain p :: ps)
  /-- A tag that opens a block. -/
  | opening {depth : Nat} {body : Text} {name : String} {ps : List (Piece P)}
    (reads : reading d d.blockOpening body = some name) (rest : Nested d (depth + 1) ps) :
    Nested d depth (.tag body :: ps)
  /-- A tag that closes one of the open blocks. -/
  | closing {depth : Nat} {body : Text} {ps : List (Piece P)}
    (reads : reading d d.blockClosing body = some ()) (rest : Nested d depth ps) :
    Nested d (depth + 1) (.tag body :: ps)
  /-- A base tag outside all blocks. -/
  | base {body : Text} {name : String} {ps : List (Piece P)}
    (reads : reading d d.baseTag body = some name) (rest : Nested d 0 ps) :
    Nested d 0 (.tag body :: ps)
  /-- Any other tag. -/
  | other {depth : Nat} {body : Text} {ps : List (Piece P)} (loose : d.Loose body)
    (reads : reading d d.baseTag body = none) (rest : Nested d depth ps) :
    Nested d depth (.tag body :: ps)

theorem blockPairing_opens {body : Text} {a name : String}
    (h : reading d d.blockOpening body = some name) : (blockPairing d).opens a body = true := by
  simp [blockPairing, readsAs, reading_map, h]

theorem blockPairing_not_opens {body : Text} {a : String}
    (h : reading d d.blockOpening body = none) : (blockPairing d).opens a body = false := by
  simp [blockPairing, readsAs, reading_map, h]

theorem blockPairing_closes {body : Text} {a : String}
    (h : reading d d.blockClosing body = some ()) : (blockPairing d).closes a body = true := by
  simp [blockPairing, readsAs, h]

theorem blockPairing_not_closes {body : Text} {a : String}
    (h : reading d d.blockClosing body = none) : (blockPairing d).closes a body = false := by
  simp [blockPairing, readsAs, h]

/-- Behind an opening tag, the closing tag that balances it is found: what is in between is nested
and has no base tag, and what follows is nested. -/
theorem Nested.split (hd : d.Apart) (name : String) (depth inner : Nat) {ps : List (Piece P)}
    (hps : Tidy d w ps) (h : Nested d (depth + 1 + inner) ps) :
    ∃ inside back rest,
      splitClose ((blockPairing d).opens name) ((blockPairing d).closes name) inner ps =
        some (inside, back, rest) ∧
      Nested d inner inside ∧ readings d d.baseTag inside = [] ∧ Nested d depth rest := by
  generalize hn : depth + 1 + inner = n at h
  induction h generalizing inner with
  | nil => omega
  | @plain n p ps rest ih =>
    obtain ⟨inside, back, tail, hsplit, hinside, hbase, htail⟩ := ih inner hps.tail hn
    refine ⟨.plain p :: inside, back, tail, ?_, hinside.plain, hbase, htail⟩
    rw [splitClose, hsplit]
    rfl
  | @opening n body name' ps reads rest ih =>
    have hb : d.Free body := hps.head
    obtain ⟨inside, back, tail, hsplit, hinside, hbase, htail⟩ :=
      ih (inner + 1) hps.tail (by omega)
    refine ⟨.tag body :: inside, back, tail, ?_, .opening reads hinside, ?_, htail⟩
    · rw [splitClose_opens (blockPairing_opens reads)
        (blockPairing_not_closes (not_closing_of_blockOpening hd hb reads)), hsplit]
      rfl
    · rw [readings_tag, not_base_of_blockOpening hd hb reads, hbase]
      rfl
  | @closing n body ps reads rest ih =>
    have hb : d.Free body := hps.head
    have hopens : (blockPairing d).opens name body = false :=
      blockPairing_not_opens (not_opening_of_blockClosing hd hb reads)
    cases inner with
    | zero =>
      obtain rfl : depth = n := by omega
      exact ⟨[], body, ps, splitClose_found hopens (blockPairing_closes reads), .nil, rfl, rest⟩
    | succ inner =>
      obtain ⟨inside, back, tail, hsplit, hinside, hbase, htail⟩ :=
        ih inner hps.tail (by omega)
      refine ⟨.tag body :: inside, back, tail, ?_, .closing reads hinside, ?_, htail⟩
      · rw [splitClose_closes hopens (blockPairing_closes reads), hsplit]
        rfl
      · rw [readings_tag, not_base_of_blockClosing hd hb reads, hbase]
        rfl
  | base reads rest ih => omega
  | @other n body ps loose reads rest ih =>
    obtain ⟨inside, back, tail, hsplit, hinside, hbase, htail⟩ := ih inner hps.tail hn
    refine ⟨.tag body :: inside, back, tail, ?_, .other loose reads hinside, ?_, htail⟩
    · rw [splitClose_other (blockPairing_not_opens loose.1) (blockPairing_not_closes loose.2),
        hsplit]
      rfl
    · rw [readings_tag, reads, hbase]
      rfl

/-- A pair of tags at the start of a nested outline is a block; what is in it is nested and has no
base tag, and what follows is nested. -/
theorem Nested.of_pairFrom (hd : d.Apart) {body back : Text} {name : String}
    {ps inside rest : List (Piece P)} (hps : Tidy d w (.tag body :: ps))
    (h : Nested d 0 (.tag body :: ps))
    (hpair : pairFrom (blockPairing d) body ps = some (name, inside, back, rest)) :
    reading d d.blockOpening body = some name ∧ reading d d.blockClosing back = some () ∧
      Nested d 0 inside ∧ readings d d.baseTag inside = [] ∧ Nested d 0 rest := by
  have hb : d.Free body := hps.head
  obtain ⟨before, after, hheads, -, hsplit⟩ := pairFrom_eq_some hpair
  have hreads : reading d d.blockOpening body = some name := by
    have : name ∈ (blockPairing d).heads body := by simp [hheads]
    simpa [blockPairing] using this
  have hclose : reading d d.blockClosing back = some () := by
    simpa [blockPairing, readsAs] using (splitClose_eq_some hsplit).2
  have hnested : Nested d 1 ps := by
    cases h with
    | opening reads rest => exact rest
    | base reads rest =>
      rw [(loose_of_baseTag hd hb reads).1] at hreads
      exact absurd hreads (by simp)
    | other loose reads rest =>
      rw [loose.1] at hreads
      exact absurd hreads (by simp)
  obtain ⟨inside', back', rest', hsplit', hinside, hbase, hrest⟩ :=
    hnested.split hd name 0 0 hps.tail
  rw [hsplit] at hsplit'
  simp only [Option.some.injEq, Prod.mk.injEq] at hsplit'
  obtain ⟨rfl, rfl, rfl⟩ := hsplit'
  exact ⟨hreads, hclose, hinside, hbase, hrest⟩

/-- A segment of a nested outline. -/
def SegmentNested (d : Delimiters) : Segment P String → Prop
  | .piece (.plain _) => True
  | .piece (.tag body) => d.Loose body
  | .pair _ _ inside _ => Nested d 0 inside ∧ readings d d.baseTag inside = []

/-- The segments of a nested outline are loose pieces and nested blocks. -/
theorem Nested.forall_segments (hd : d.Apart) {ps : List (Piece P)} (hps : Tidy d w ps)
    (h : Nested d 0 ps) : ∀ x ∈ segments (blockPairing d) ps, SegmentNested d x := by
  fun_induction segments (blockPairing d) ps with
  | case1 => exact fun x hx => absurd hx (by simp)
  | case2 p ps ih =>
    cases h with
    | plain rest => exact List.forall_mem_cons.mpr ⟨trivial, ih hps.tail rest⟩
  | case3 body ps hnone ih =>
    have hb : d.Free body := hps.head
    cases h with
    | @opening depth body name ps reads rest =>
      -- the tag would be paired with the one that closes its block
      obtain ⟨inside, back, tail, hsplit, -⟩ :=
        rest.split hd name 0 0 hps.tail
      have hheads : (blockPairing d).heads body = [name] := by simp [blockPairing, reads]
      simp [pairFrom, hheads, hsplit] at hnone
    | base reads rest =>
      exact List.forall_mem_cons.mpr ⟨loose_of_baseTag hd hb reads, ih hps.tail rest⟩
    | other loose reads rest => exact List.forall_mem_cons.mpr ⟨loose, ih hps.tail rest⟩
  | case4 body ps name inside back rest hsome hlt ih =>
    obtain ⟨-, -, hinside, hbase, htail⟩ := h.of_pairFrom hd hps hsome
    have hrest : Tidy d w rest := fun q hq =>
      hps q (by rw [pairFrom_eq hsome]; simp [hq])
    exact List.forall_mem_cons.mpr ⟨⟨hinside, hbase⟩, ih hrest htail⟩

end Outline

end Stencil
