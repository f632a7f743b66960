import Stencil.Proofs.Outline.Blocks
import Stencil.Proofs.Outline.Choices
import Stencil.Proofs.Outline.Loops
import Stencil.Proofs.Slicing.Basic

/-!
# The passes, stretch by stretch

Each pass goes through a text from left to right, and takes it apart at the tags that it finds.

* Loops: the stretch in front of a loop stays, and the stretch between its tags is expanded and
  rendered for every row.
* Conditionals: the stretch of a branch is taken as soon as the tag behind it is found. Tags that
  form no conditional are taken too, to be reported.
* Blocks: they are removed, collected or replaced, and the stretches between their tags or around
  them are taken.

Whatever the delimiters, the context and the definitions are, all these stretches are there.
-/

namespace Stencil

variable {d : Delimiters} {s : Text}

/-! ## Loops -/

namespace Loop

/-- The opening tags of loops as they are found. -/
def found (d : Delimiters) (s : Text) : List (Found LoopHead) :=
  let closed := (Tag.find d.legacyClosing s).map (·.content)
  let legacy := (Tag.find d.legacyOpening s).filter fun t => closed.any (· = t.content.path)
  (Tag.find d.loopOpening s).merge legacy fun a b => a.start ≤ b.start

/-- The offsets of the closing tag of a loop. -/
def closingSpan? (d : Delimiters) (s : Text) (t : Found LoopHead) : Option (Nat × Nat) :=
  match t.content.form with
  | .bound _ =>
    Tag.closingSpan? (d.loopOpening.map (·.path)) d.loopClosing t.content.path s t.stop
  | .legacy =>
    Tag.closingSpan? (d.legacyOpening.map (·.path)) d.legacyClosing t.content.path s t.stop

/-- The outermost loops of a text as they are found. -/
def brackets (d : Delimiters) (s : Text) : List (Bracket LoopHead) :=
  Bracket.outermost (closingSpan? d s) 0 (found d s)

theorem lies_of_mem_openings {t : Tag LoopHead} (h : t ∈ openings d s) : t.Lies s := by
  rcases stands_of_mem_openings h with h | h
  · exact d.encloses_loopOpening.lies h
  · exact d.encloses_legacyOpening.lies h

theorem lies_of_closing? {t : Tag LoopHead} {c : Tag Text} (h : closing? d s t = some c) :
    c.Lies s := by
  rcases (closing?_eq_some h).1 with h | h
  · exact d.encloses_loopClosing.lies h
  · exact d.encloses_legacyClosing.lies h

theorem closingSpan?_found {t : Tag LoopHead} (h : t.Lies s) :
    closingSpan? d s (t.found s) = (closing? d s t).map (·.byteSpan s) := by
  have hcontent : (t.found s).content = t.content := rfl
  unfold closingSpan? closing?
  rw [hcontent]
  cases t.content.form with
  | bound name =>
    exact Tag.closingSpan?_found h (d.loopOpening.map (·.path)) d.loopClosing t.content.path
  | legacy =>
    exact Tag.closingSpan?_found h (d.legacyOpening.map (·.path)) d.legacyClosing t.content.path

/-- Openings are found in the order of their positions. -/
theorem found_eq (d : Delimiters) (s : Text) : found d s = (openings d s).map (·.found s) := by
  have hclosed : (Tag.find d.legacyClosing s).map (·.content) =
      (Tag.scan d.legacyClosing s).map (·.content) := List.map_map
  have hany : ∀ path, ((Tag.scan d.legacyClosing s).map (·.content)).any (· = path) =
      decide (path ∈ (Tag.scan d.legacyClosing s).map (·.content)) := by
    intro path
    rw [Bool.eq_iff_iff]
    simp
  have hle : ∀ t ∈ Tag.scan d.loopOpening s, ∀ u ∈ (Tag.scan d.legacyOpening s).filter fun u =>
      u.content.path ∈ (Tag.scan d.legacyClosing s).map (·.content),
      decide (t.start ≤ u.start) = decide ((t.found s).start ≤ (u.found s).start) := by
    intro t ht u _
    have hlie := Delimiters.Grammar.loopOpening.lies_of_mem_scan ht
    have hlt : (u.found s).start < (t.found s).start ↔ u.start < t.start :=
      Text.offset_lt_offset_iff (Nat.le_trans (Nat.le_of_lt t.start_lt_stop) hlie.stop_le)
    refine decide_eq_decide.mpr ?_
    omega
  rw [openings, List.map_merge (s := fun a b : Found LoopHead => decide (a.start ≤ b.start)) hle,
    found, hclosed, Tag.find, Tag.find, List.filter_map]
  simp only [hany]
  rfl

theorem brackets_eq (d : Delimiters) (s : Text) :
    brackets d s = (outermost d s).map (·.found s) := by
  rw [brackets, found_eq, outermost]
  exact Tag.bracket_outermost 0 (fun t ht => lies_of_mem_openings ht)
    (fun t ht => closingSpan?_found (lies_of_mem_openings ht)) (fun t c => lies_of_closing?)
    (Nat.zero_le _)

/-- The loops of a text lie in it. -/
theorem lies_of_mem_outermost {e : Tag.Enclosure LoopHead Text} (h : e ∈ outermost d s) :
    e.Lies s := by
  obtain ⟨hopening, hclosing⟩ := Tag.mem_outermost h
  exact ⟨lies_of_mem_openings hopening, lies_of_closing? hclosing, (closing?_eq_some hclosing).2⟩

end Loop

/-- Expands the loops of a text, stretch by stretch. -/
def expandLoops? (d : Delimiters) (render? : Text → Context → Option Text)
    (s : Text) (ctx : Context) :
    Option Text :=
  s.fillIn Bracket.span (fun loop => do
    let body ← loop.body? s
    let rows ← (Loop.rows ctx loop.opening.content).zipIdx.mapM fun (row, index) => do
      let inner := Loop.rowContext loop.opening.content.form ctx index row
      let expanded ← expandLoops? d render? body inner
      render? expanded inner
    return rows.flatten) 0 (Loop.brackets d s)
termination_by s.length
decreasing_by exact body.2

/-- No stretch is missing when loops are expanded, if none is missing in what renders their
bodies. -/
theorem expandLoops?_eq {render? : Text → Context → Option Text} {render : Text → Context → Text}
    (hrender : ∀ body ctx, render? body ctx = some (render body ctx)) (s : Text) (ctx : Context) :
    expandLoops? d render? s ctx = some (expandLoops d render s ctx) := by
  induction hn : s.length using Nat.strongRecOn generalizing s ctx with
  | ind n ih =>
    rw [expandLoops?, Outline.expandLoops_eq, Loop.brackets_eq]
    refine Text.fillIn_outermost (fun t c h => (Loop.closing?_eq_some h).2)
      (fun e he => Loop.lies_of_mem_outermost he) fun e he => ?_
    obtain ⟨hlt, hbody⟩ := (Loop.lies_of_mem_outermost he).body?_found
    let row (x : Value × Nat) : Text :=
      let inner := Loop.rowContext e.opening.content.form ctx x.2 x.1
      render (expandLoops d render (e.body s) inner) inner
    have hrows : (Loop.rows ctx e.opening.content).zipIdx.mapM (fun x => do
        let inner := Loop.rowContext e.opening.content.form ctx x.2 x.1
        let expanded ← expandLoops? d render? (e.body s) inner
        render? expanded inner) = some ((Loop.rows ctx e.opening.content).zipIdx.map row) := by
      refine mapM_eq_pure_map fun x _ => ?_
      dsimp only
      rw [ih _ (hn ▸ hlt) _ _ rfl]
      exact hrender _ _
    rw [hbody]
    refine (congrArg (· >>= fun rows => some rows.flatten) hrows).trans ?_
    rw [List.flatMap_def]
    rfl

/-! ## Conditionals -/

namespace Choice

open Outline (branchText conditionOf)

/-- A branch as it is found: its condition, and its text. -/
abbrev Arm (s : Text) : Type := Option Text × { t : Text // t.length < s.length }

/-- A conditional as it is found. -/
structure Located (s : Text) where
  /-- The offset of its first tag. -/
  start : Nat
  /-- The offset behind its last tag. -/
  stop : Nat
  /-- Its branches. -/
  arms : List (Arm s)

namespace Located

/-- The offsets of a conditional. -/
def span (c : Located s) : Nat × Nat := (c.start, c.stop)

end Located

/-- Collects the branches behind the front tag of a branch, at a depth of inner conditionals: with
the offset behind the closing tag, and the tags behind it. The text of a branch is taken as soon as
its end is found, even if the conditional is not closed in the end. -/
def collect? (s : Text) : (depth : Nat) → Found Conditional → List (Found Conditional) →
    Option (Option (List (Arm s) × Nat × List (Found Conditional)))
  | _, _, [] => some none
  | depth, front, t :: ts =>
    match t.content, depth with
    | .opening _, depth => collect? s (depth + 1) front ts
    | .closing, 0 => do
      let body ← s.cutBelow? front.stop t.start front.stop_pos
      return some ([(conditionOf front.content, body)], t.stop, ts)
    | .closing, depth + 1 => collect? s depth front ts
    | .branch _, 0 => do
      let body ← s.cutBelow? front.stop t.start front.stop_pos
      let behind? ← collect? s 0 t ts
      return behind?.map fun (arms, rest) => ((conditionOf front.content, body) :: arms, rest)
    | .branch _, depth + 1 => collect? s (depth + 1) front ts

theorem collect?_cons (depth : Nat) (front t : Found Conditional) (ts : List (Found Conditional)) :
    collect? s depth front (t :: ts) =
      match t.content, depth with
      | .opening _, depth => collect? s (depth + 1) front ts
      | .closing, 0 => do
        let body ← s.cutBelow? front.stop t.start front.stop_pos
        return some ([(conditionOf front.content, body)], t.stop, ts)
      | .closing, depth + 1 => collect? s depth front ts
      | .branch _, 0 => do
        let body ← s.cutBelow? front.stop t.start front.stop_pos
        let behind? ← collect? s 0 t ts
        return behind?.map fun (arms, rest) => ((conditionOf front.content, body) :: arms, rest)
      | .branch _, depth + 1 => collect? s (depth + 1) front ts := rfl

theorem length_lt_of_collect? {depth stop : Nat} {front : Found Conditional}
    {ts rest : List (Found Conditional)} {arms : List (Arm s)}
    (h : collect? s depth front ts = some (some (arms, stop, rest))) : rest.length < ts.length := by
  fun_induction collect? s depth front ts generalizing arms stop rest with
  | case1 => exact absurd h (by simp)
  | case2 _ _ _ _ _ _ ih => exact Nat.lt_succ_of_lt (ih h)
  | case3 front t ts _ =>
    obtain ⟨body, -, heq⟩ := Option.bind_eq_some_iff.mp h
    obtain ⟨-, -, rfl⟩ : _ ∧ t.stop = stop ∧ ts = rest := by simpa using heq
    simp
  | case4 _ _ _ _ _ ih => exact Nat.lt_succ_of_lt (ih h)
  | case5 front t ts _ _ ih =>
    obtain ⟨body, -, hrest⟩ := Option.bind_eq_some_iff.mp h
    obtain ⟨behind?, hbehind, heq⟩ := Option.bind_eq_some_iff.mp hrest
    obtain ⟨⟨arms', stop', rest'⟩, rfl, heq⟩ := Option.map_eq_some_iff.mp (Option.some.inj heq)
    obtain ⟨-, rfl, rfl⟩ : _ ∧ stop' = stop ∧ rest' = rest := by simpa using heq
    exact Nat.lt_succ_of_lt (ih hbehind)
  | case6 _ _ _ _ _ _ ih => exact Nat.lt_succ_of_lt (ih h)

/-- The outermost conditionals that tags form. A tag that is left in place is taken out of the text
to be reported. -/
def locate? (s : Text) : List (Found Conditional) → Option (List (Located s))
  | [] => some []
  | t :: ts =>
    match t.content with
    | .opening _ =>
      match h : collect? s 0 t ts with
      | none => none
      | some none => (s.cut? t.start t.stop).bind fun _ => locate? s ts
      | some (some (arms, stop, rest)) =>
        have := length_lt_of_collect? h
        (locate? s rest).map (⟨t.start, stop, arms⟩ :: ·)
    | _ => (s.cut? t.start t.stop).bind fun _ => locate? s ts
termination_by ts => ts.length

/-- A branch by its condition and its text. -/
def Arm.text (a : Arm s) : Option Text × Text := (a.1, a.2)

/-- What a split of tags says, at offsets. -/
def splitAt (s : Text) (x : List Branch × Tag Conditional × List (Tag Conditional)) :
    List (Option Text × Text) × Nat × List (Found Conditional) :=
  (x.1.map (branchText s), s.offset x.2.1.stop, x.2.2.map (·.found s))

/-- The branches of tags in line are there. -/
theorem collect?_found (depth : Nat) {front : Tag Conditional} {ts : List (Tag Conditional)}
    (h : Tag.Aligned (front :: ts) s) :
    ∃ found?, collect? s depth (front.found s) (ts.map (·.found s)) = some found? ∧
      found?.map (fun x => (x.1.map Arm.text, x.2)) =
        (Branch.split? depth front ts).map (splitAt s) := by
  fun_induction Branch.split? depth front ts with
  | case1 => exact ⟨none, rfl, rfl⟩
  | case2 front t ts condition depth ht ih =>
    obtain ⟨found?, hfound, heq⟩ := ih h.skip
    refine ⟨found?, ?_, heq⟩
    rw [List.map_cons, collect?_cons, Tag.content_found, ht]
    exact hfound
  | case3 front t ts ht =>
    obtain ⟨hlt, hcut⟩ := h.cutBelow?_found
    have hfront := Outline.condition?_eq ⟨front, t.start⟩
    refine ⟨some ([(conditionOf front.content, ⟨_, hlt⟩)], (t.found s).stop, ts.map (·.found s)),
      ?_, ?_⟩
    · rw [List.map_cons, collect?_cons, Tag.content_found, ht]
      dsimp only
      rw [hcut]
      rfl
    · rw [(h.lies t (by simp)).found_stop]
      simp [splitAt, branchText, Arm.text, hfront, Branch.body]
  | case4 front t ts depth ht ih =>
    obtain ⟨found?, hfound, heq⟩ := ih h.skip
    refine ⟨found?, ?_, heq⟩
    rw [List.map_cons, collect?_cons, Tag.content_found, ht]
    exact hfound
  | case5 front t ts condition? ht bs last rest hs ih =>
    obtain ⟨hlt, hcut⟩ := h.cutBelow?_found
    have hfront := Outline.condition?_eq ⟨front, t.start⟩
    obtain ⟨found?, hfound, heq⟩ := ih h.tail
    rw [hs] at heq
    obtain ⟨x, rfl, hx⟩ := Option.map_eq_some_iff.mp heq
    refine ⟨some ((conditionOf front.content, ⟨_, hlt⟩) :: x.1, x.2), ?_, ?_⟩
    · rw [List.map_cons, collect?_cons, Tag.content_found, ht]
      dsimp only
      rw [hcut, hfound]
      rfl
    · simp only [splitAt, Prod.mk.injEq] at hx
      simp [splitAt, branchText, Arm.text, hfront, Branch.body, hx]
  | case6 front t ts condition? ht hs ih =>
    obtain ⟨hlt, hcut⟩ := h.cutBelow?_found
    obtain ⟨found?, hfound, heq⟩ := ih h.tail
    rw [hs, Option.map_none, Option.map_eq_none_iff] at heq
    subst heq
    -- the text of the branch is taken, although no conditional is closed behind it
    refine ⟨none, ?_, rfl⟩
    rw [List.map_cons, collect?_cons, Tag.content_found, ht]
    dsimp only
    rw [hcut, hfound]
    rfl
  | case7 front t ts condition? depth ht ih =>
    obtain ⟨found?, hfound, heq⟩ := ih h.skip
    refine ⟨found?, ?_, heq⟩
    rw [List.map_cons, collect?_cons, Tag.content_found, ht]
    exact hfound

theorem locate?_cons (t : Found Conditional) (ts : List (Found Conditional)) :
    locate? s (t :: ts) =
      match t.content with
      | .opening _ =>
        match collect? s 0 t ts with
        | none => none
        | some none => (s.cut? t.start t.stop).bind fun _ => locate? s ts
        | some (some (arms, stop, rest)) => (locate? s rest).map (⟨t.start, stop, arms⟩ :: ·)
      | _ => (s.cut? t.start t.stop).bind fun _ => locate? s ts := by
  rw [locate?]
  cases hc : t.content with
  | opening condition =>
    dsimp only
    split <;> rename_i h <;> simp only [h]
  | branch condition? => rfl
  | closing => rfl

/-- The conditionals of tags in line are there, and so are the tags that form none. -/
theorem locate?_found {ts : List (Tag Conditional)} (h : Tag.Aligned ts s) :
    ∃ choices, locate? s (ts.map (·.found s)) = some choices ∧
      choices.map (fun c => (c.span, c.arms.map Arm.text)) = (ofTags ts).map fun choice =>
        ((s.offset choice.start, s.offset choice.stop), choice.branches.map (branchText s)) := by
  -- a tag that stays in place is taken out of the text, and then dropped
  have hstay : ∀ {t : Tag Conditional} {ts : List (Tag Conditional)}, Tag.Aligned (t :: ts) s →
      (s.cut? (t.found s).start (t.found s).stop).bind (fun _ => locate? s (ts.map (·.found s))) =
        locate? s (ts.map (·.found s)) := by
    intro t ts h
    rw [(h.lies t (by simp)).cut?_found, Option.bind_some]
  fun_induction ofTags ts with
  | case1 => exact ⟨[], by rw [List.map_nil, locate?], rfl⟩
  | case2 t ts condition ht bs last rest hs _ ih =>
    obtain ⟨hsuffix, -⟩ := Branch.split?_eq_some hs
    have hsub : rest.Sublist ts := (List.sublist_cons_self last rest).trans hsuffix.sublist
    obtain ⟨found?, hfound, heq⟩ := collect?_found 0 h
    rw [hs] at heq
    obtain ⟨⟨arms, stop, tags⟩, rfl, hx⟩ := Option.map_eq_some_iff.mp heq
    simp only [splitAt, Prod.mk.injEq] at hx
    obtain ⟨harms, rfl, rfl⟩ := hx
    obtain ⟨choices, hchoices, hmap⟩ := ih (h.tail.sublist hsub)
    refine ⟨⟨(t.found s).start, s.offset last.stop, arms⟩ :: choices, ?_, ?_⟩
    · rw [List.map_cons, locate?_cons, Tag.content_found, ht]
      dsimp only
      rw [hfound]
      dsimp only
      rw [hchoices]
      rfl
    · rw [List.map_cons, List.map_cons, hmap, harms]
      rfl
  | case3 t ts condition ht hs ih =>
    obtain ⟨found?, hfound, heq⟩ := collect?_found 0 h
    rw [hs, Option.map_none, Option.map_eq_none_iff] at heq
    subst heq
    obtain ⟨choices, hchoices, hmap⟩ := ih h.tail
    refine ⟨choices, ?_, hmap⟩
    rw [List.map_cons, locate?_cons, Tag.content_found, ht]
    dsimp only
    rw [hfound]
    dsimp only
    rw [hstay h, hchoices]
  | case4 t ts ht ih =>
    obtain ⟨choices, hchoices, hmap⟩ := ih h.tail
    refine ⟨choices, ?_, hmap⟩
    rw [List.map_cons, locate?_cons, Tag.content_found]
    cases hc : t.content with
    | opening condition => exact absurd hc (ht condition)
    | branch condition? =>
      dsimp only
      rw [hstay h, hchoices]
    | closing =>
      dsimp only
      rw [hstay h, hchoices]

end Choice

/-- Resolves the conditionals of a text, stretch by stretch. -/
def resolveConditionals? (d : Delimiters) (ctx : Context) (s : Text) : Option Text := do
  let choices ← Choice.locate? s (Tag.find d.conditionalTag s)
  s.fillIn Choice.Located.span (fun choice =>
    (Outline.survivor ctx choice.arms).elim (some []) fun body =>
      resolveConditionals? d ctx body) 0 choices
termination_by s.length
decreasing_by exact body.2

/-- No stretch is missing when conditionals are resolved. -/
theorem resolveConditionals?_eq (d : Delimiters) (ctx : Context) (s : Text) :
    resolveConditionals? d ctx s = some (resolveConditionals d ctx s) := by
  induction hn : s.length using Nat.strongRecOn generalizing s with
  | ind n ih =>
    have htags := Delimiters.Grammar.conditionalTag.aligned_scan (d := d) s
    obtain ⟨choices, hchoices, hmap⟩ := Choice.locate?_found htags
    let filling (arms : List (Option Text × Text)) : Option Text :=
      (Outline.survivor ctx arms).elim (some []) (resolveConditionals? d ctx)
    have hfilling : ∀ c : Choice.Located s,
        (Outline.survivor ctx c.arms).elim (some []) (fun body => resolveConditionals? d ctx body) =
          filling (c.arms.map Choice.Arm.text) := by
      intro c
      have hsurvivor : Outline.survivor ctx (c.arms.map Choice.Arm.text) =
          (Outline.survivor ctx c.arms).map Subtype.val :=
            Outline.survivor_map ctx Subtype.val c.arms
      dsimp only [filling]
      rw [hsurvivor, Option.elim_map]
      rfl
    rw [resolveConditionals?, Tag.find, hchoices, Outline.resolveConditionals_eq]
    simp only [hfilling]
    refine (Text.fillIn_congr hmap filling 0).trans (Text.fillIn_eq_some
      (fun choice : Choice => (choice.start, choice.stop))
      (fun _ _ => rfl) (Choice.ordered_ofTags htags.ordered (fun _ _ => Nat.zero_le _) _) ?_ ?_)
    · intro choice hchoice
      obtain ⟨t, ht, hstop⟩ := (Choice.among_of_mem hchoice).stop
      dsimp only
      rw [hstop]
      exact (htags.lies t ht).stop_le
    · intro choice hchoice
      have hs : s ≠ [] := by
        rintro rfl
        exact absurd hchoice (by simp [Tag.scan, Tag.scanFrom, Choice.ofTags])
      dsimp only [filling]
      cases hsurvivor : Outline.survivor ctx (choice.branches.map (Outline.branchText s)) with
      | none => rfl
      | some body =>
        obtain ⟨condition?, hmem⟩ := Outline.survivor_mem hsurvivor
        obtain ⟨b, -, hb⟩ := List.mem_map.mp hmem
        obtain rfl : b.body s = body := congrArg Prod.snd hb
        exact ih _ (hn ▸ b.length_body_lt hs) _ rfl

/-! ## Blocks -/

namespace Blocks

/-- The outermost blocks of a text as they are found. -/
def brackets (d : Delimiters) (s : Text) : List (Bracket String) :=
  Bracket.outermost
    (fun t => Tag.closingSpan? (d.blockOpening.map fun _ => ()) d.blockClosing () s t.stop)
    0 (Tag.find d.blockOpening s)

theorem brackets_eq (d : Delimiters) (s : Text) :
    brackets d s = (outermost d s).map (·.found s) := by
  have hlies : ∀ t ∈ Tag.scan d.blockOpening s, t.Lies s := fun t ht =>
    Delimiters.Grammar.blockOpening.lies_of_mem_scan ht
  exact Tag.bracket_outermost 0 hlies
    (fun t ht => Tag.closingSpan?_found (hlies t ht)
    (d.blockOpening.map fun _ => ()) d.blockClosing ())
    (fun t c hc => d.encloses_blockClosing.lies (Tag.closing?_eq_some hc).1) (Nat.zero_le _)

/-- The blocks of a text lie in it. -/
theorem lies_of_mem_outermost {e : Tag.Enclosure String Unit} (h : e ∈ outermost d s) :
    e.Lies s := by
  obtain ⟨hopening, hclosing⟩ := Tag.mem_outermost h
  obtain ⟨hstands, hle⟩ := Tag.closing?_eq_some hclosing
  exact ⟨Delimiters.Grammar.blockOpening.lies_of_mem_scan hopening,
    d.encloses_blockClosing.lies hstands, hle⟩

/-- Blocks are filled in. -/
theorem fillIn_brackets {filling : Bracket String → Option Text}
    {f : Tag.Enclosure String Unit → Text}
    (hfilling : ∀ e ∈ outermost d s, filling (e.found s) = some (f e)) :
    s.fillIn Bracket.span filling 0 (brackets d s) =
      some (s.splice ((outermost d s).map fun e => ⟨e.opening.start, e.closing.stop, f e⟩)) := by
  rw [brackets_eq]
  exact Text.fillIn_outermost (fun t c hc => (Tag.closing?_eq_some hc).2)
    (fun e he => lies_of_mem_outermost he) hfilling

/-- Removes the blocks of a text, stretch by stretch. -/
def strip? (d : Delimiters) (s : Text) : Option Text :=
  s.fillIn Bracket.span (fun _ => some []) 0 (brackets d s)

theorem strip?_eq (d : Delimiters) (s : Text) : strip? d s = some (strip d s) :=
  fillIn_brackets fun _ _ => rfl

/-- Adds the definitions of a text, stretch by stretch. -/
def collect? (d : Delimiters) (s : Text) (blocks : Blocks) : Option Blocks :=
  (brackets d s).foldlM (fun blocks block => do
    let body ← block.body? s
    let name := block.opening.content
    collect? d body.1 (if blocks.has name then blocks else blocks.set name body.1)) blocks
termination_by s.length
decreasing_by exact body.2

theorem collect_eq (d : Delimiters) (s : Text) (blocks : Blocks) :
    collect d s blocks = (outermost d s).foldl (fun blocks block =>
      let name := block.opening.content
      collect d (block.body s) (if blocks.has name then blocks else blocks.set name (block.body s)))
      blocks := by
  rw [collect]
  split
  · rename_i hs
    subst hs
    rw [Outline.outermost_nil]
    rfl
  · rfl

/-- No stretch is missing when definitions are collected. -/
theorem collect?_eq (d : Delimiters) (s : Text) (blocks : Blocks) :
    collect? d s blocks = some (collect d s blocks) := by
  induction hn : s.length using Nat.strongRecOn generalizing s blocks with
  | ind n ih =>
    rw [collect?, collect_eq, brackets_eq, List.foldlM_map]
    have hlies : ∀ e ∈ outermost d s, e.Lies s := fun e he => lies_of_mem_outermost he
    generalize outermost d s = es at hlies
    induction es generalizing blocks with
    | nil => rfl
    | cons e es ihes =>
      obtain ⟨hlt, hbody⟩ := (hlies e (by simp)).body?_found
      rw [List.foldlM_cons, List.foldl_cons, hbody]
      dsimp only [Option.bind_eq_bind, Option.bind_some]
      rw [ih _ (hn ▸ hlt) _ _ rfl]
      exact ihes _ fun e he => hlies e (by simp [he])

/-- Replaces the blocks of a text, stretch by stretch. The text of a block is taken even if it is
defined elsewhere. -/
def resolve? (d : Delimiters) (definitions : Blocks) (active : List String) (s : Text) :
    Option Text :=
  s.fillIn Bracket.span (fun block =>
    let name := block.opening.content
    if _hn : name ∈ active then some []
    else do
      let body ← block.body? s
      match _hd : definitions.get? name with
      | some content => resolve? d definitions (name :: active) content
      | none => resolve? d definitions (name :: active) body) 0 (brackets d s)
termination_by (definitions.unentered active, s.length)
decreasing_by
  · exact .left _ _ (unentered_cons_lt ‹_› ‹_›)
  · exact Prod.Lex.right' _ (unentered_cons_le ..) body.2

/-- No stretch is missing when blocks are replaced. -/
theorem resolve?_eq (d : Delimiters) (definitions : Blocks) (active : List String) (s : Text) :
    resolve? d definitions active s = some (definitions.resolve d active s) := by
  induction hm : definitions.unentered active using Nat.strongRecOn generalizing active s with
  | ind m ihm =>
    induction hn : s.length using Nat.strongRecOn generalizing active s with
    | ind n ihn =>
      rw [resolve?, Outline.resolve_eq]
      refine fillIn_brackets fun e he => ?_
      have hcontent : (e.found s).opening.content = e.opening.content := rfl
      obtain ⟨hlt, hbody⟩ := (lies_of_mem_outermost he).body?_found
      rw [hcontent, hbody, Outline.definition]
      by_cases hname : e.opening.content ∈ active
      · rw [dif_pos hname, if_pos hname]
      · rw [dif_neg hname, if_neg hname]
        simp only [Option.bind_eq_bind, Option.bind_some]
        split
        · rename_i content hd
          rw [hd, Option.getD_some]
          exact ihm _ (hm ▸ unentered_cons_lt hd hname) _ _ rfl
        · rename_i hd
          rw [hd, Option.getD_none]
          -- a name that is no definition leaves as many definitions, but less text
          rcases Nat.lt_or_eq_of_le
            (unentered_cons_le definitions active e.opening.content) with hlt' | heq
          · exact ihm _ (hm ▸ hlt') _ _ rfl
          · exact ihn _ (hn ▸ hlt) _ _ (heq.trans hm) rfl

end Blocks

end Stencil
