import Stencil.Proofs.Composition.Nested
import Stencil.Proofs.Outline.Blocks
import Stencil.Proofs.Tag.Extent

/-!
# Blocks are resolved once at a time

Resolving keeps a stack of the names it is in. A run walks over the outermost blocks of a text from
left to right. A block whose name is on the stack is left out; in front of any other one its name is
pushed, its definition or its own text is resolved, and the name is popped again.

Definitions may be longer than the text and may hold the block they define, so no length bounds a
run. What does is the number of definitions that can still be entered, and then the length of the
text: every text has a run, which leaves the stack as it was.
-/

namespace Stencil

namespace Blocks

open Recognizer

variable {d : Delimiters} {definitions : Blocks} {active active' : List String} {s out : Text}

/-! ## Runs -/

/-- What a run does to the stack of active names. -/
inductive Move where
  /-- A name is pushed, and its block is expanded. -/
  | enter (name : String)
  /-- The last name is popped. -/
  | leave
  /-- A block with an active name is left out. -/
  | skip (name : String)

/-- The stack after a move. No active name is pushed, and none but such a name is left out. -/
def Move.act (active : List String) : Move → Option (List String)
  | .enter name => if name ∈ active then none else some (name :: active)
  | .leave =>
    match active with
    | [] => none
    | _ :: active => some active
  | .skip name => if name ∈ active then some active else none

/-- The stack after some moves. -/
def replay (active : List String) (moves : List Move) : Option (List String) :=
  moves.foldlM Move.act active

/-- A walk over some blocks of a text, from a position behind the ones before them: the moves it
makes, what it writes, and the stack it leaves. -/
inductive Walks (d : Delimiters) (definitions : Blocks) : (active : List String) → (s : Text) →
    List (Tag.Enclosure String Unit) → (cursor : Nat) → List Move → (out : Text) →
    (active' : List String) → Prop where
  /-- The rest of the text is written. -/
  | done {active : List String} {s : Text} {cursor : Nat} :
    Walks d definitions active s [] cursor [] (s.drop cursor) active
  /-- A block with an active name contributes nothing. -/
  | skip {active active' : List String} {s out : Text} {block : Tag.Enclosure String Unit}
    {blocks : List (Tag.Enclosure String Unit)} {cursor : Nat} {moves : List Move}
    (hactive : block.opening.content ∈ active)
    (rest : Walks d definitions active s blocks block.closing.stop moves out active') :
    Walks d definitions active s (block :: blocks) cursor (.skip block.opening.content :: moves)
      (s.slice cursor block.opening.start ++ out) active'
  /-- Any other block is expanded, with its name on the stack meanwhile. -/
  | expand {active active₁ active' : List String} {s out out' : Text}
    {block : Tag.Enclosure String Unit} {blocks : List (Tag.Enclosure String Unit)} {cursor : Nat}
    {content : Text} {moves moves' : List Move} (hactive : block.opening.content ∉ active)
    (hcontent : content = (definitions.get? block.opening.content).getD (block.body s))
    (inner : Walks d definitions (block.opening.content :: active) content (outermost d content) 0
      moves out active₁)
    (rest : Walks d definitions active₁.tail s blocks block.closing.stop moves' out' active') :
    Walks d definitions active s (block :: blocks) cursor
      (.enter block.opening.content :: (moves ++ .leave :: moves'))
      (s.slice cursor block.opening.start ++ (out ++ out')) active'

/-- A run of the resolution of a text. -/
def Runs (d : Delimiters) (definitions : Blocks) (active : List String) (s : Text)
    (moves : List Move) (out : Text) (active' : List String) : Prop :=
  Walks d definitions active s (outermost d s) 0 moves out active'

section Walk

variable {blocks : List (Tag.Enclosure String Unit)} {cursor : Nat} {moves : List Move}

/-- What is pushed is popped again. -/
theorem Walks.active_eq (h : Walks d definitions active s blocks cursor moves out active') :
    active' = active := by
  induction h with
  | done => rfl
  | skip _ _ ih => exact ih
  | expand _ _ _ _ ihinner ihrest =>
    rw [ihrest, ihinner]
    rfl

theorem replay_append (active : List String) (moves moves' : List Move) :
    replay active (moves ++ moves') = (replay active moves).bind fun active =>
      replay active moves' := by
  simp [replay]

theorem replay_enter {name : String} (h : name ∉ active) (moves : List Move) :
    replay active (.enter name :: moves) = replay (name :: active) moves := by
  simp [replay, Move.act, h]

/-- No block is expanded while its name is active. -/
theorem Walks.replay_eq (h : Walks d definitions active s blocks cursor moves out active') :
    replay active moves = some active' := by
  induction h with
  | done => rfl
  | skip hactive _ ih => simpa [replay, Move.act, hactive] using ih
  | expand hactive _ inner rest ihinner ihrest =>
    obtain rfl := inner.active_eq
    rw [replay_enter hactive, replay_append, ihinner, Option.bind_some]
    exact ihrest

/-- The edit that a block stands for. -/
def edit (d : Delimiters) (definitions : Blocks) (active : List String) (s : Text)
    (block : Tag.Enclosure String Unit) : Edit :=
  ⟨block.opening.start, block.closing.stop,
    Outline.definition d definitions active block.opening.content (block.body s)⟩

theorem resolve_eq_splice (active : List String) (s : Text) :
    definitions.resolve d active s =
      s.splice ((outermost d s).map (edit d definitions active s)) :=
  Outline.resolve_eq d definitions active s

/-- The outermost blocks of a text follow each other. -/
theorem ordered_edits (active : List String) (s : Text) :
    Edit.Ordered 0 ((outermost d s).map (edit d definitions active s)) := by
  refine Tag.ordered_outermost (fun t c hc => ?_) _
  exact (Tag.closing?_eq_some hc).2

/-- The text up to a block, what takes its place, and the rest. -/
theorem spliceFrom_edit {block : Tag.Enclosure String Unit} {edits : List Edit}
    (hstart : cursor ≤ block.opening.start) (hstop : block.opening.start ≤ block.closing.stop) :
    Text.spliceFrom cursor (s.drop cursor) (edit d definitions active s block :: edits) =
      s.slice cursor block.opening.start ++
        (Outline.definition d definitions active block.opening.content (block.body s) ++
          Text.spliceFrom block.closing.stop (s.drop block.closing.stop) edits) := by
  have hdrop : (s.drop cursor).drop (block.closing.stop - cursor) = s.drop block.closing.stop := by
    rw [List.drop_drop]
    congr 1
    omega
  rw [Text.spliceFrom]
  simp only [edit, hdrop]
  rfl

/-- A walk writes what editing the blocks makes of the text. -/
theorem Walks.out_eq (h : Walks d definitions active s blocks cursor moves out active') :
    Edit.Ordered cursor (blocks.map (edit d definitions active s)) →
      out = Text.spliceFrom cursor (s.drop cursor) (blocks.map (edit d definitions active s)) := by
  induction h with
  | done => exact fun _ => rfl
  | skip hactive _ ih =>
    rintro ⟨hstart, hstop, hord⟩
    rw [ih hord, List.map_cons, spliceFrom_edit hstart hstop, Outline.definition, if_pos hactive,
      List.nil_append]
  | @expand active active₁ active' s out out' block blocks cursor content moves moves' hactive
      hcontent inner rest ihinner ihrest =>
    rintro ⟨hstart, hstop, hord⟩
    obtain rfl := inner.active_eq
    have hout : out = definitions.resolve d (block.opening.content :: active) content := by
      rw [resolve_eq_splice]
      exact ihinner (ordered_edits _ _)
    rw [ihrest hord, List.map_cons, spliceFrom_edit hstart hstop, Outline.definition,
      if_neg hactive, ← hcontent, ← hout]
    rfl

end Walk

/-! ## Every text has a run -/

/-- A property holds of every text and stack if it holds wherever it holds one block further in: of
the definition of a name that is not active, and of less text. -/
theorem resolution_induction (definitions : Blocks) {motive : List String → Text → Prop}
    (step : ∀ active s, (∀ name content, name ∉ active →
      definitions.get? name = some content ∨ content.length < s.length →
        motive (name :: active) content) → motive active s) (active : List String) (s : Text) :
    motive active s := by
  refine step active s fun name content hactive hcontent => ?_
  rcases hcontent with hget | hlt
  · exact resolution_induction definitions step (name :: active) content
  · exact resolution_induction definitions step (name :: active) content
termination_by (definitions.unentered active, s.length)
decreasing_by
  · exact .left _ _ (unentered_cons_lt hget hactive)
  · exact Prod.Lex.right' _ (unentered_cons_le ..) hlt

theorem exists_run (d : Delimiters) (definitions : Blocks) (active : List String) (s : Text) :
    ∃ moves out, Runs d definitions active s moves out active := by
  induction active, s using resolution_induction definitions with
  | step active s ih =>
    have hwalk : ∀ blocks : List (Tag.Enclosure String Unit), (∀ b ∈ blocks, b ∈ outermost d s) →
        ∀ cursor, ∃ moves out, Walks d definitions active s blocks cursor moves out active := by
      intro blocks
      induction blocks with
      | nil => exact fun _ cursor => ⟨[], _, .done⟩
      | cons block blocks ihblocks =>
        intro hmem cursor
        obtain ⟨moves', out', hrest⟩ :=
          ihblocks (fun b hb => hmem b (by simp [hb])) block.closing.stop
        by_cases hactive : block.opening.content ∈ active
        · exact ⟨_, _, .skip hactive hrest⟩
        · have hne : s ≠ [] := by
            rintro rfl
            have := hmem block (by simp)
            simp [Outline.outermost_nil] at this
          obtain ⟨moves, out, hinner⟩ := ih block.opening.content
            ((definitions.get? block.opening.content).getD (block.body s)) hactive (by
              cases definitions.get? block.opening.content with
              | none => exact .inr (block.length_body_lt hne)
              | some content => exact .inl rfl)
          exact ⟨_, _, .expand hactive rfl hinner hrest⟩
    exact hwalk _ (fun _ h => h) 0

theorem Runs.eq {moves : List Move} (h : Runs d definitions active s moves out active') :
    out = definitions.resolve d active s ∧ active' = active ∧ replay active moves =
      some active := by
  have hactive := h.active_eq
  refine ⟨?_, hactive, hactive ▸ h.replay_eq⟩
  rw [resolve_eq_splice]
  exact h.out_eq (ordered_edits _ _)

/-! ## Balanced block tags -/

/-- A text of block tags that balance, given how many blocks are open in front, in which the
character that tags start with stands at the start of block tags only. -/
inductive Balanced (d : Delimiters) : (depth : Nat) → Text → Prop where
  /-- At the end, no block is open. -/
  | nil : Balanced d 0 []
  /-- A character that starts no tag. -/
  | char {depth : Nat} {c : Char} {s : Text} (hc : c ≠ d.mark) (rest : Balanced d depth s) :
    Balanced d depth (c :: s)
  /-- A tag that opens a block. -/
  | opening {depth : Nat} {body s : Text} {name : String} (hb : d.Free body)
    (reads : reading d d.blockOpening body = some name) (rest : Balanced d (depth + 1) s) :
    Balanced d depth (d.enclose body ++ s)
  /-- A tag that closes one of the open blocks. -/
  | closing {depth : Nat} {body s : Text} (hb : d.Free body)
    (reads : reading d d.blockClosing body = some ()) (rest : Balanced d depth s) :
    Balanced d (depth + 1) (d.enclose body ++ s)

open Outline

section Outlines

variable {depth : Nat} {ps : List (Piece Text)}

/-- All tags of an outline are block tags. -/
def OnlyBlocks (d : Delimiters) (ps : List (Piece Text)) : Prop :=
  ∀ body, .tag body ∈ ps → ¬ d.Loose body

theorem OnlyBlocks.tag {body : Text} (h : OnlyBlocks d ps) (hbody : ¬ d.Loose body) :
    OnlyBlocks d (.tag body :: ps) := by
  intro b hb
  rcases List.mem_cons.mp hb with heq | hb
  · rw [Piece.tag.inj heq]
    exact hbody
  · exact h b hb

theorem OnlyBlocks.tail {q : Piece Text} (h : OnlyBlocks d (q :: ps)) : OnlyBlocks d ps :=
  fun body hbody => h body (by simp [hbody])

theorem Balanced.plain {p : Text} (hp : d.Plain p) (h : Balanced d depth s) :
    Balanced d depth (p ++ s) := by
  induction p with
  | nil => exact h
  | cons c p ih =>
    rw [Delimiters.Plain, List.mem_cons, not_or] at hp
    exact .char (Ne.symm hp.1) (ih hp.2)

theorem Balanced.exists_outline (h : Balanced d depth s) :
    ∃ ps : List (Piece Text), Tidy d id ps ∧ write d id ps = s ∧ Nested d depth ps ∧
      OnlyBlocks d ps := by
  induction h with
  | nil => exact ⟨[], by simp [Tidy], rfl, .nil, by simp [OnlyBlocks]⟩
  | @char depth c s hc _ ih =>
    obtain ⟨ps, htidy, rfl, hnested, honly⟩ := ih
    have hplain : d.Plain [c] := by
      simpa [Delimiters.Plain] using Ne.symm hc
    exact ⟨.plain [c] :: ps, List.forall_mem_cons.mpr ⟨hplain, htidy⟩, rfl, .plain hnested,
      fun body hbody => honly body (by simpa using hbody)⟩
  | @opening depth body s name hb reads _ ih =>
    obtain ⟨ps, htidy, rfl, hnested, honly⟩ := ih
    refine ⟨.tag body :: ps, List.forall_mem_cons.mpr ⟨hb, htidy⟩, rfl, .opening reads hnested, ?_⟩
    exact honly.tag fun h => by simp [h.1] at reads
  | @closing depth body s hb reads _ ih =>
    obtain ⟨ps, htidy, rfl, hnested, honly⟩ := ih
    refine ⟨.tag body :: ps, List.forall_mem_cons.mpr ⟨hb, htidy⟩, rfl, .closing reads hnested, ?_⟩
    exact honly.tag fun h => by simp [h.2] at reads

theorem balanced_write (hd : d.Apart) (h : Nested d depth ps) (htidy : Tidy d id ps)
    (honly : OnlyBlocks d ps) : Balanced d depth (write d id ps) := by
  induction h with
  | nil => exact .nil
  | plain _ ih => exact .plain htidy.head (ih htidy.tail honly.tail)
  | opening reads _ ih => exact .opening htidy.head reads (ih htidy.tail honly.tail)
  | closing reads _ ih => exact .closing htidy.head reads (ih htidy.tail honly.tail)
  | base reads _ _ =>
    exact absurd (Delimiters.loose_of_baseTag hd htidy.head reads) (honly _ (by simp))
  | other loose _ _ _ => exact absurd loose (honly _ (by simp))

/-- What a pair of tags encloses is shorter than the text. -/
theorem length_write_lt {α : Type} {g : Pairing α} {a : α} {front back : Text}
    {inside : List (Piece Text)} (h : .pair a front inside back ∈ segments g ps) :
    (write d id inside).length < (write d id ps).length := by
  obtain ⟨before, after, rfl⟩ := pieces_of_mem_segments h
  have := List.length_pos_iff.mpr (d.enclose_ne_nil front)
  simp only [Segment.pieces, write_append, write_cons, Piece.text, List.length_append,
    List.cons_append]
  omega

end Outlines

/-- **No block tag is left of balanced ones**, neither of the text nor of the definitions. -/
theorem plain_resolve (hd : d.Apart)
    (hdefinitions : ∀ name content, definitions.get? name = some content → Balanced d 0 content)
    (active : List String) (s : Text) :
    Balanced d 0 s → d.Plain (definitions.resolve d active s) := by
  induction active, s using resolution_induction definitions with
  | step active s ih =>
    intro hs
    obtain ⟨ps, htidy, rfl, hnested, honly⟩ := hs.exists_outline
    rw [resolve_write hd definitions active htidy]
    intro hmark
    obtain ⟨x, hx, hmark⟩ := List.mem_flatMap.mp hmark
    have hpieces : ∀ q ∈ x.pieces, q ∈ ps := mem_of_mem_pieces hx
    match x, hnested.forall_segments hd htidy x hx with
    | .piece (.plain p), _ =>
      have hp : d.Plain p := htidy (.plain p) (hpieces _ (by simp [Segment.pieces]))
      exact hp hmark
    | .piece (.tag body), hloose => exact honly body (hpieces _ (by simp [Segment.pieces])) hloose
    | .pair name front inside back, ⟨hinside, _⟩ =>
      rw [replaced, definition] at hmark
      split at hmark
      · simp at hmark
      · rename_i hactive
        cases hget : definitions.get? name with
        | some content =>
          rw [hget] at hmark
          exact ih name content hactive (.inl hget) (hdefinitions name content hget) hmark
        | none =>
          rw [hget] at hmark
          have hmem : ∀ q ∈ inside, q ∈ ps := fun q hq => hpieces q (by simp [Segment.pieces, hq])
          refine ih name (write d id inside) hactive (.inr ?_) ?_ hmark
          · exact length_write_lt hx
          · exact balanced_write hd hinside (fun q hq => htidy q (hmem q hq)) fun body hbody =>
              honly body (hmem _ hbody)

theorem scan_eq_nil {α : Type} {r : Recognizer α} (hr : Delimited d r) (hs : d.Plain s) :
    Tag.scan r s = [] := by
  have := scanFrom_plain hr.left hs [] 0
  rwa [List.append_nil] at this

/-! ## The resolution of blocks -/

/-- **Blocks are resolved once at a time.** Whatever the text, the definitions and the names that
are active in front, there is a run. It leaves the stack as it was, and writes what resolving the
text gives; so does every run, and none of them expands a block while its name is active. If the
block tags of the text and of all definitions balance and no other tag starts in them, none is
left. -/
theorem resolve_runs (d : Delimiters) (definitions : Blocks) (active : List String) (s : Text) :
    (∃ moves, Runs d definitions active s moves (definitions.resolve d active s) active) ∧
    (∀ moves out active', Runs d definitions active s moves out active' →
      out = definitions.resolve d active s ∧ active' = active ∧
        replay active moves = some active) ∧
    (d.Apart → Balanced d 0 s →
      (∀ name content, definitions.get? name = some content → Balanced d 0 content) →
        Tag.scan d.blockOpening (definitions.resolve d active s) = [] ∧
          Tag.scan d.blockClosing (definitions.resolve d active s) = []) := by
  refine ⟨?_, fun moves out active' h => h.eq, fun hd hs hdefinitions => ?_⟩
  · obtain ⟨moves, out, h⟩ := exists_run d definitions active s
    obtain rfl := h.eq.1
    exact ⟨moves, h⟩
  · have hplain := plain_resolve hd hdefinitions active s hs
    exact ⟨scan_eq_nil (Delimiters.delimited_blockOpening hd) hplain,
      scan_eq_nil (Delimiters.delimited_blockClosing hd) hplain⟩

/-- Two definitions that hold each other's block. -/
theorem resolve_runs_mutual :
    let definitions : Blocks := [("a", "<\x7bblock b\x7d\x7bendblock\x7d>".toList),
      ("b", "\x7bblock a\x7d!\x7bendblock\x7d".toList)]
    let s : Text := "\x7bblock a\x7d\x7bendblock\x7d".toList
    Tag.scan Delimiters.braces.blockOpening (definitions.resolve .braces [] s) = [] ∧
      Tag.scan Delimiters.braces.blockClosing (definitions.resolve .braces [] s) = [] := by
  intro definitions s
  have hclosing : reading .braces Delimiters.braces.blockClosing "endblock".toList = some () := rfl
  have hblock : ∀ {body : Text} {name : String},
      reading .braces Delimiters.braces.blockOpening body = some name →
      Delimiters.braces.Free body → ∀ {inside rest : Text}, Delimiters.braces.Plain inside →
        Balanced .braces 0 rest → Balanced .braces 0 (Delimiters.braces.enclose body ++
          (inside ++ (Delimiters.braces.enclose "endblock".toList ++ rest))) := by
    intro body name hreads hfree inside rest hinside hrest
    exact .opening hfree hreads (.plain hinside (.closing (by decide) hclosing hrest))
  have ha : reading .braces Delimiters.braces.blockOpening "block a".toList = some "a" := rfl
  have hb : reading .braces Delimiters.braces.blockOpening "block b".toList = some "b" := rfl
  refine (resolve_runs .braces definitions [] s).2.2 Delimiters.apart_braces
    (hblock ha (by decide) Delimiters.plain_nil .nil) ?_
  intro name content hget
  by_cases hna : "a" = name
  · obtain rfl : "<\x7bblock b\x7d\x7bendblock\x7d>".toList = content := by
      simpa [definitions, Dict.get?, hna] using hget
    exact .char (c := '<') (by decide)
      (hblock hb (by decide) Delimiters.plain_nil (.char (c := '>') (by decide) .nil))
  · by_cases hnb : "b" = name
    · obtain rfl : "\x7bblock a\x7d!\x7bendblock\x7d".toList = content := by
        simpa [definitions, Dict.get?, hna, hnb] using hget
      have hinside : Delimiters.braces.Plain ['!'] := by decide
      exact hblock ha (by decide) hinside .nil
    · simp [definitions, Dict.get?, hna, hnb] at hget

end Blocks

end Stencil
