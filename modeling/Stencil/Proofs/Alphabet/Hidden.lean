import Stencil.Proofs.Alphabet.Passes

/-!
# Placeholders that are dropped

Resolving conditionals drops what stands in a branch that is not selected, and resolving blocks
drops what stands in a block that is overridden. A placeholder all of whose occurrences stand in
such places is left out of what the text is then spelled with.
-/

namespace Stencil

open ProtectedRegions

namespace ProtectedRegions

/-- The placeholder of a number stands at a position. -/
def Occurs (n : Nat) (s : Text) (p : Nat) : Prop := placeholder n <+: s.drop p

variable {n p : Nat} {s t : Text}

theorem occurs_behind {m : Nat} : Occurs n (t ++ s) (t.length + m) ↔ Occurs n s m := by
  unfold Occurs
  rw [← List.drop_drop, List.drop_left]

theorem Occurs.lt_length (h : Occurs n s p) : p < s.length := by
  have hle := h.length_le
  rw [List.length_drop, placeholder_eq, List.length_cons] at hle
  omega

/-- What occurs in a part of a text occurs in the text, in front of where the part ends. -/
theorem Occurs.of_slice {a b : Nat} (h : Occurs n (s.slice a b) p) :
    Occurs n s (a + p) ∧ a + p < b := by
  have hlt := h.lt_length
  unfold Text.slice at hlt
  rw [List.length_take] at hlt
  unfold Occurs Text.slice at h
  rw [List.drop_take, List.drop_drop] at h
  exact ⟨h.trans (List.take_prefix _ _), by omega⟩

end ProtectedRegions

namespace Alphabet

variable {A : Alphabet} {P Q : Nat → Prop} {d : Delimiters} {s t : Text} {ctx : Context}

/-- An alphabet with some of its placeholders. -/
def only (A : Alphabet) (P : Nat → Prop) : Alphabet where
  glyph := A.glyph
  shelf n := A.shelf n ∧ P n
  neutral := A.neutral
  apart n h := A.apart n h.1

theorem Spelled.only_mono (h : (A.only P).Spelled s) (hPQ : ∀ n, P n → Q n) :
    (A.only Q).Spelled s :=
  h.mono (fun _ hc => hc) fun n hn => ⟨hn.1, hPQ n hn.2⟩

theorem Spares.only (h : A.Spares d) : (A.only P).Spares d := fun c hc n hn => h c hc n hn.1

/-- A text is spelled without the placeholders that do not occur in it. -/
theorem Spelled.only (h : A.Spelled s) (hP : ∀ n p, Occurs n s p → P n) : (A.only P).Spelled s := by
  induction h with
  | nil => exact .nil
  | @glyph c s hc _ ih =>
    refine .glyph hc (ih fun n p hp => hP n (1 + p) ?_)
    exact (occurs_behind (t := [c]) (s := s)).mpr hp
  | @shelved m s hm _ ih =>
    refine .shelved ⟨hm, hP m 0 (List.prefix_append _ _)⟩ (ih fun n p hp => ?_)
    exact hP n ((placeholder m).length + p) (occurs_behind.mpr hp)

/-- Edits leave out the placeholders that only occur in what they replace. -/
theorem Spelled.splice_only {β : Type} {xs : List β} {f : β → Edit} (h : A.Spelled s)
    (hord : Edit.Ordered 0 (xs.map f))
    (hout : ∀ n p, Occurs n s p → P n ∨ ∃ x ∈ xs, (f x).Covers p)
    (hedit : ∀ x ∈ xs,
      (A.Seam s (f x).start ∧ A.Seam s (f x).stop) ∧ (A.only P).Spelled (f x).replacement) :
    (A.only P).Spelled (s.splice (xs.map f)) := by
  rw [Text.splice, Text.spliceFrom_eq_interlace]
  refine Text.interlace_of .nil Spelled.append (fun w hw => ?_)
    (List.forall_mem_map.mpr (List.forall_mem_map.mpr fun x hx => (hedit x hx).2))
  have hseams : ∀ e ∈ xs.map f, A.Seam s e.start ∧ A.Seam s e.stop :=
    List.forall_mem_map.mpr fun x hx => (hedit x hx).1
  obtain ⟨a, b, rfl, ha, hb, hbeside⟩ := seams_of_mem_kept h hord hseams hw
  refine (ha.slice hb).only fun n q hq => ?_
  obtain ⟨hs, hlt⟩ := hq.of_slice
  rcases hout n (a + q) hs with hn | ⟨x, hx, hstart, hstop⟩
  · exact hn
  · -- what is kept lies in front of the edit or behind it
    rcases hbeside (f x) (List.mem_map_of_mem hx) with hle | hle
    · omega
    · omega

end Alphabet

/-! ## Conditionals -/

/-- A position is discarded where the conditionals of a text are resolved: it stands in a
conditional, and either in none of its branches that survives, or in a place that is discarded
there. -/
inductive Discarded (d : Delimiters) (ctx : Context) : Text → Nat → Prop where
  /-- The branch that survives, if there is one, is another. -/
  | dropped {s : Text} {p : Nat} {choice : Choice} :
    choice ∈ Choice.ofTags (Tag.scan d.conditionalTag s) → choice.start ≤ p → p < choice.stop →
    (∀ b, Branch.select? ctx choice.branches = some b → ¬ (b.tag.stop ≤ p ∧ p < b.stop)) →
    Discarded d ctx s p
  /-- It is discarded in the branch that survives. -/
  | inside {s : Text} {p : Nat} {choice : Choice} {b : Branch} :
    choice ∈ Choice.ofTags (Tag.scan d.conditionalTag s) →
    Branch.select? ctx choice.branches = some b → b.tag.stop ≤ p → p < b.stop →
    Discarded d ctx (b.body s) (p - b.tag.stop) → Discarded d ctx s p

namespace Discarded

variable {d : Delimiters} {ctx : Context} {s : Text} {p : Nat}

theorem pairwise_conditionals (d : Delimiters) (s : Text) :
    (Tag.scan d.conditionalTag s).Pairwise fun t u => t.stop ≤ u.start :=
      Tag.pairwise_scanFrom _ 0 0 s

/-- The branch that survives lies in its conditional. -/
theorem covers_of_select? {choice : Choice}
    (hchoice : choice ∈ Choice.ofTags (Tag.scan d.conditionalTag s))
    {b : Branch} (hb : Branch.select? ctx choice.branches = some b) (hstart : b.tag.stop ≤ p)
    (hstop : p < b.stop) : choice.start ≤ p ∧ p < choice.stop := by
  obtain ⟨hfront, hback⟩ :=
    Choice.within_of_mem (pairwise_conditionals d s) hchoice (Alphabet.mem_of_select? hb)
  have := b.tag.start_lt_stop
  omega

theorem covered (h : Discarded d ctx s p) :
    ∃ choice ∈ Choice.ofTags (Tag.scan d.conditionalTag s), choice.start ≤ p ∧ p < choice.stop := by
  cases h with
  | dropped hchoice hstart hstop => exact ⟨_, hchoice, hstart, hstop⟩
  | inside hchoice hb hstart hstop => exact ⟨_, hchoice, covers_of_select? hchoice hb hstart hstop⟩

/-- What is discarded in a branch that survives is discarded inside. -/
theorem of_branch {choice : Choice} {b : Branch}
    (hchoice : choice ∈ Choice.ofTags (Tag.scan d.conditionalTag s))
    (hb : Branch.select? ctx choice.branches = some b) {q : Nat} (hq : b.tag.stop + q < b.stop)
    (h : Discarded d ctx s (b.tag.stop + q)) : Discarded d ctx (b.body s) q := by
  have hin := covers_of_select? hchoice hb (Nat.le_add_right _ q) hq
  -- conditionals do not overlap, so the one that discards the position is the one around the branch
  have hsame : ∀ other ∈ Choice.ofTags (Tag.scan d.conditionalTag s),
      other.start ≤ b.tag.stop + q → b.tag.stop + q < other.stop → other = choice :=
    fun other hother hstart hstop =>
      (Choice.ordered_ofTags (pairwise_conditionals d s) (fun _ _ => Nat.zero_le _)
        fun _ => []).unique hother hchoice ⟨hstart, hstop⟩ hin
  cases h with
  | dropped hother hstart hstop hnone =>
    obtain rfl := hsame _ hother hstart hstop
    exact absurd ⟨Nat.le_add_right _ q, hq⟩ (hnone b hb)
  | inside hother hb' hstart hstop hinside =>
    obtain ⟨hfront, hback⟩ := covers_of_select? hother hb' hstart hstop
    obtain rfl := hsame _ hother hfront hback
    obtain rfl := Option.some.inj (hb.symm.trans hb')
    rwa [Nat.add_sub_cancel_left] at hinside

end Discarded

namespace Alphabet

variable {A : Alphabet} {P : Nat → Prop} {d : Delimiters} {s : Text} {ctx : Context}

/-- Resolving conditionals leaves out the placeholders that are discarded wherever they occur. -/
theorem Spelled.discard (hd : A.Spares d) (h : A.Spelled s)
    (hP : ∀ n p, Occurs n s p → P n ∨ Discarded d ctx s p) :
    (A.only P).Spelled (Stencil.resolveConditionals d ctx s) := by
  induction hn : s.length using Nat.strongRecOn generalizing s with
  | ind n ih =>
    rw [Stencil.resolveConditionals]
    split
    · exact .nil
    rename_i hs
    refine h.splice_only (Choice.ordered_ofTags (Discarded.pairwise_conditionals d s)
      (fun _ _ => Nat.zero_le _) _) (fun m p hp => ?_) fun choice hchoice => ?_
    · exact (hP m p hp).imp_right fun hdisc => hdisc.covered
    · obtain ⟨hstart, hstop, hbranches⟩ := seams_choice hd h hchoice
      refine ⟨⟨hstart, hstop⟩, ?_⟩
      dsimp only
      split
      · rename_i branch hbranch
        obtain ⟨hfront, hback⟩ := hbranches branch (mem_of_select? hbranch)
        refine ih _ (hn ▸ branch.length_body_lt hs) (hfront.slice hback) (fun m q hq => ?_) rfl
        obtain ⟨hocc, hlt⟩ := hq.of_slice
        exact (hP m _ hocc).imp_right (Discarded.of_branch hchoice hbranch hlt)
      · exact .nil

end Alphabet

/-! ## Blocks -/

/-- A position is overridden by definitions: the innermost block around it has one of their
names. -/
inductive Overridden (d : Delimiters) (names : List String) : Text → Nat → Prop where
  /-- No other block is around it in the block. -/
  | here {s : Text} {p : Nat} {block : Tag.Enclosure String Unit} :
    block ∈ Blocks.outermost d s → block.opening.stop ≤ p → p < block.closing.start →
    block.opening.content ∈ names →
    (∀ inner ∈ Blocks.outermost d (block.body s),
      ¬ (inner.opening.start ≤ p - block.opening.stop ∧ p - block.opening.stop <
        inner.closing.stop)) →
    Overridden d names s p
  /-- The innermost block is in another. -/
  | inside {s : Text} {p : Nat} {block : Tag.Enclosure String Unit} :
    block ∈ Blocks.outermost d s → block.opening.stop ≤ p → p < block.closing.start →
    Overridden d names (block.body s) (p - block.opening.stop) → Overridden d names s p

namespace Overridden

variable {d : Delimiters} {names : List String} {s : Text} {p : Nat}

theorem mono {names' : List String} (h : Overridden d names s p) (hsub : names ⊆ names') :
    Overridden d names' s p := by
  induction h with
  | here hblock hstart hstop hname halone => exact .here hblock hstart hstop (hsub hname) halone
  | inside hblock hstart hstop _ ih => exact .inside hblock hstart hstop ih

/-- The own text of a block lies between its tags. -/
theorem covers_body {block : Tag.Enclosure String Unit} (hstart : block.opening.stop ≤ p)
    (hstop : p < block.closing.start) : block.opening.start ≤ p ∧ p < block.closing.stop := by
  have := block.opening.start_lt_stop
  have := block.closing.start_lt_stop
  omega

theorem covered (h : Overridden d names s p) :
    ∃ block ∈ Blocks.outermost d s, block.opening.start ≤ p ∧ p < block.closing.stop := by
  cases h with
  | here hblock hstart hstop => exact ⟨_, hblock, covers_body hstart hstop⟩
  | inside hblock hstart hstop => exact ⟨_, hblock, covers_body hstart hstop⟩

/-- What is overridden in a block has the innermost block there, or is overridden inside. -/
theorem of_block {block : Tag.Enclosure String Unit}
    (hblock : block ∈ Blocks.outermost d s) {q : Nat}
    (hq : block.opening.stop + q < block.closing.start)
    (h : Overridden d names s (block.opening.stop + q)) :
    (block.opening.content ∈ names ∧ ∀ inner ∈ Blocks.outermost d (block.body s),
        ¬ (inner.opening.start ≤ q ∧ q < inner.closing.stop)) ∨
      Overridden d names (block.body s) q := by
  have hin := covers_body (Nat.le_add_right _ q) hq
  have hsame : ∀ other ∈ Blocks.outermost d s, other.opening.stop ≤ block.opening.stop + q →
      block.opening.stop + q < other.closing.start → other = block :=
    fun other hother hstart hstop =>
      (Alphabet.ordered_blocks fun _ => []).unique hother hblock (covers_body hstart hstop) hin
  cases h with
  | here hother hstart hstop hname halone =>
    obtain rfl := hsame _ hother hstart hstop
    rw [Nat.add_sub_cancel_left] at halone
    exact .inl ⟨hname, halone⟩
  | inside hother hstart hstop hinside =>
    obtain rfl := hsame _ hother hstart hstop
    rw [Nat.add_sub_cancel_left] at hinside
    exact .inr hinside

end Overridden

namespace Alphabet

variable {A : Alphabet} {P : Nat → Prop} {d : Delimiters} {names : List String} {s : Text}

/-- A spelled text in which all placeholders but some are overridden wherever they occur. -/
structure Sheds (A : Alphabet) (P : Nat → Prop) (d : Delimiters) (names : List String) (s : Text) :
    Prop where
  /-- It is spelled. -/
  spelled : A.Spelled s
  /-- The others are overridden. -/
  overridden : ∀ n p, Occurs n s p → P n ∨ Overridden d names s p

theorem Sheds.mono {names' : List String} (h : A.Sheds P d names s) (hsub : names ⊆ names') :
    A.Sheds P d names' s :=
  ⟨h.spelled, fun n p hp => (h.overridden n p hp).imp_right fun ho => ho.mono hsub⟩

theorem occurs_body {block : Tag.Enclosure String Unit} {n q : Nat}
    (h : Occurs n (block.body s) q) :
    Occurs n s (block.opening.stop + q) ∧ block.opening.stop + q < block.closing.start := h.of_slice

/-- Putting texts into the places of blocks leaves out the placeholders that are overridden. -/
theorem Sheds.replaceBlocks (hd : A.Spares d) (h : A.Sheds P d names s)
    {f : Tag.Enclosure String Unit → Text}
    (hf : ∀ block ∈ Blocks.outermost d s, (A.only P).Spelled (f block)) :
    (A.only P).Spelled (s.splice ((Blocks.outermost d s).map fun block =>
      ⟨block.opening.start, block.closing.stop, f block⟩)) := by
  refine h.spelled.splice_only (ordered_blocks f) (fun n p hp => ?_) fun block hblock => ?_
  · exact (h.overridden n p hp).imp_right fun ho => ho.covered
  · obtain ⟨hstart, -, -, hstop⟩ := seams_block hd h.spelled hblock
    exact ⟨⟨hstart, hstop⟩, hf block hblock⟩

theorem Sheds.strip (hd : A.Spares d) (h : A.Sheds P d names s) :
    (A.only P).Spelled (Blocks.strip d s) :=
  h.replaceBlocks hd fun _ _ => .nil

/-- The own text of a block that is not overridden sheds what the text around it does. -/
theorem Sheds.body (hd : A.Spares d) (h : A.Sheds P d names s) {block : Tag.Enclosure String Unit}
    (hblock : block ∈ Blocks.outermost d s) (hname : block.opening.content ∉ names) :
    A.Sheds P d names (block.body s) := by
  refine ⟨spelled_body hd h.spelled hblock, fun n q hq => ?_⟩
  obtain ⟨hocc, hlt⟩ := occurs_body hq
  rcases h.overridden n _ hocc with hn | ho
  · exact .inl hn
  · rcases ho.of_block hblock hlt with ⟨hin, -⟩ | ho
    · exact absurd hin hname
    · exact .inr ho

/-- Resolving blocks leaves out the placeholders that are overridden. -/
theorem Sheds.resolve (hd : A.Spares d) {definitions : Blocks}
    (hdefs : ∀ x ∈ definitions, A.Sheds P d definitions.keys x.2) (active : List String) {s : Text}
    (h : A.Sheds P d definitions.keys s) : (A.only P).Spelled (definitions.resolve d active s) := by
  by_cases hs : s = []
  · subst hs
    rw [Blocks.resolve, dif_pos rfl]
    exact .nil
  rw [Outline.resolve_eq]
  refine h.replaceBlocks hd fun block hblock => ?_
  unfold Outline.definition
  by_cases hn : block.opening.content ∈ active
  · rw [if_pos hn]
    exact .nil
  · rw [if_neg hn]
    cases hget : definitions.get? block.opening.content with
    | some content => exact Sheds.resolve hd hdefs _ (hdefs _ (Dict.mem_of_get? hget))
    | none =>
      have hname : block.opening.content ∉ definitions.keys := by simp [← Dict.get?_isSome, hget]
      exact Sheds.resolve hd hdefs _ (h.body hd hblock hname)
termination_by (definitions.unentered active, s.length)
decreasing_by
  · exact Prod.Lex.right' _ (Blocks.unentered_cons_le ..) (block.length_body_lt hs)
  · exact .left _ _ (Blocks.unentered_cons_lt hget hn)

theorem mem_define {blocks : Blocks} {name : String} {content : Text} {x : String × Text}
    (h : x ∈ Outline.define blocks name content) :
    x ∈ blocks ∨ name ∉ blocks.keys ∧ x = (name, content) := by
  unfold Outline.define at h
  split at h
  · exact .inl h
  · rename_i hhas
    rcases Dict.mem_set h with rfl | h
    · exact .inr ⟨by rwa [← Dict.get?_isSome], rfl⟩
    · exact .inl h

theorem keys_subset_define (blocks : Blocks) (name : String) (content : Text) :
    blocks.keys ⊆ (Outline.define blocks name content).keys := by
  unfold Outline.define
  split
  · exact List.Subset.refl _
  · rw [Dict.keys_set]
    split
    · exact List.Subset.refl _
    · exact List.subset_append_left _ _

/-- Collecting definitions keeps those there are. -/
theorem keys_subset_collect (d : Delimiters) (s : Text) (blocks : Blocks) :
    blocks.keys ⊆ (Blocks.collect d s blocks).keys := by
  induction hn : s.length using Nat.strongRecOn generalizing s blocks with
  | ind n ih =>
    rw [Blocks.collect]
    split
    · exact List.Subset.refl _
    rename_i hs
    have hlt : ∀ block : Tag.Enclosure String Unit, (block.body s).length < n := fun block =>
      hn ▸ block.length_body_lt hs
    clear hn
    -- the blocks are collected one after the other, each with what it defines inside
    induction Blocks.outermost d s generalizing blocks with
    | nil => exact List.Subset.refl _
    | cons block rest ihr =>
      rw [List.foldl_cons]
      refine List.Subset.trans ?_ (ihr _)
      exact List.Subset.trans (keys_subset_define blocks _ _) (ih _ (hlt block) _ _ rfl)

/-- What a text defines sheds what is overridden in it, by definitions that are there already. Only
what stands in blocks matters. -/
theorem sheds_collect (hd : A.Spares d) {definitions : Blocks} (hnames : names ⊆ definitions.keys)
    (hdefs : ∀ x ∈ definitions, A.Sheds P d names x.2) (hs : A.Spelled s)
    (hover : ∀ n p, Occurs n s p → P n ∨ ∀ block ∈ Blocks.outermost d s,
      block.opening.stop ≤ p → p < block.closing.start → Overridden d names s p) :
    ∀ x ∈ Blocks.collect d s definitions, A.Sheds P d names x.2 := by
  induction hn : s.length using Nat.strongRecOn generalizing s definitions with
  | ind n ih =>
    rw [Blocks.collect]
    split
    · exact hdefs
    rename_i hne
    have hblocks : ∀ block ∈ Blocks.outermost d s, ∀ m q, Occurs m (block.body s) q →
        P m ∨ (block.opening.content ∈ names ∧ ∀ inner ∈ Blocks.outermost d (block.body s),
          ¬ (inner.opening.start ≤ q ∧ q < inner.closing.stop)) ∨
          Overridden d names (block.body s) q := by
      intro block hblock m q hq
      obtain ⟨hocc, hlt⟩ := occurs_body hq
      exact (hover m _ hocc).imp_right fun ho =>
        (ho block hblock (Nat.le_add_right _ q) hlt).of_block hblock hlt
    have hbodies : ∀ block ∈ Blocks.outermost d s, A.Spelled (block.body s) ∧
        (block.body s).length < n :=
      fun block hblock => ⟨spelled_body hd hs hblock, hn ▸ block.length_body_lt hne⟩
    clear hn hover
    generalize Blocks.outermost d s = blocks at hblocks hbodies
    induction blocks generalizing definitions with
    | nil => exact hdefs
    | cons block rest ihr =>
      obtain ⟨hbody, hlt⟩ := hbodies block (by simp)
      have hcover := hblocks block (by simp)
      have hdefined := List.Subset.trans hnames
        (keys_subset_define definitions block.opening.content (block.body s))
      rw [List.foldl_cons]
      refine ihr ?_ ?_ (fun b hb => hblocks b (by simp [hb])) fun b hb => hbodies b (by simp [hb])
      · exact List.Subset.trans hdefined (keys_subset_collect d _ _)
      · refine ih _ hlt hdefined ?_ hbody ?_ rfl
        · intro x hx
          rcases mem_define hx with hx | ⟨hname, rfl⟩
          · exact hdefs x hx
          · -- the block is not overridden, so all that is shed is shed inside
            refine ⟨hbody, fun m q hq => ?_⟩
            rcases hcover m q hq with hm | ⟨hin, -⟩ | ho
            · exact .inl hm
            · exact absurd (hnames hin) hname
            · exact .inr ho
        · intro m q hq
          rcases hcover m q hq with hm | ⟨-, halone⟩ | ho
          · exact .inl hm
          · refine .inr fun inner hinner hstart hstop => ?_
            exact absurd (Overridden.covers_body hstart hstop) (halone inner hinner)
          · exact .inr fun _ _ _ _ => ho

end Alphabet

end Stencil
