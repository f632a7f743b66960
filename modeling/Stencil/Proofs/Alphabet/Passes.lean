import Stencil.Proofs.Alphabet.Variables
import Stencil.Proofs.Outline.Blocks
import Stencil.Proofs.Outline.Choices
import Stencil.Proofs.Outline.Loops

/-!
# How the passes spell

Loops, conditionals, blocks and protected regions are cut out at tags, and what takes their place is
spelled again. So every pass keeps texts spelled, whatever tags there are and however they are
nested.
-/

namespace Stencil

open ProtectedRegions

namespace Alphabet

variable {A : Alphabet} {d : Delimiters} {s : Text} {ctx : Context}

/-! ## Loops -/

/-- A text may be cut around a loop and around its body. -/
theorem seams_loop (hd : A.Spares d) (h : A.Spelled s) {loop : Tag.Enclosure LoopHead Text}
    (hloop : loop ∈ Loop.outermost d s) :
    A.Seam s loop.opening.start ∧ A.Seam s loop.opening.stop ∧ A.Seam s loop.closing.start ∧
      A.Seam s loop.closing.stop := by
  obtain ⟨hopening, hclose⟩ := Tag.mem_outermost hloop
  have hfront : A.Seam s loop.opening.start ∧ A.Seam s loop.opening.stop := by
    rcases Loop.stands_of_mem_openings hopening with ht | ht
    · exact ⟨seam_start hd d.encloses_loopOpening h ht, seam_stop hd d.encloses_loopOpening h ht⟩
    · exact ⟨seam_start hd d.encloses_legacyOpening h ht,
        seam_stop hd d.encloses_legacyOpening h ht⟩
  have hback : A.Seam s loop.closing.start ∧ A.Seam s loop.closing.stop := by
    rcases (Loop.closing?_eq_some hclose).1 with ht | ht
    · exact ⟨seam_start hd d.encloses_loopClosing h ht, seam_stop hd d.encloses_loopClosing h ht⟩
    · exact ⟨seam_start hd d.encloses_legacyClosing h ht,
        seam_stop hd d.encloses_legacyClosing h ht⟩
  exact ⟨hfront.1, hfront.2, hback.1, hback.2⟩

/-- Expanding the loops of a text keeps it spelled if rendering their bodies does. -/
theorem Spelled.expandLoops (hd : A.Spares d) {render : Text → Context → Text}
    (hrender : ∀ {s ctx}, A.Spelled s → A.SpellsContext ctx → A.Spelled (render s ctx))
    (h : A.Spelled s) (hctx : A.SpellsContext ctx) : A.Spelled (expandLoops d render s ctx) := by
  induction hn : s.length using Nat.strongRecOn generalizing s ctx with
  | ind n ih =>
    by_cases hs : s = []
    · subst hs
      rw [Stencil.expandLoops, dif_pos rfl]
      exact .nil
    rw [Outline.expandLoops_eq]
    refine h.splice_map (Tag.ordered_outermost (fun t c hc => (Loop.closing?_eq_some hc).2) _)
      fun loop hloop => ?_
    obtain ⟨hstart, hopening, hclosing, hstop⟩ := seams_loop hd h hloop
    refine ⟨⟨hstart, hstop⟩, Spelled.flatMap fun x hx => ?_⟩
    have hrow := hctx.row hx
    exact hrender (ih _ (hn ▸ loop.length_body_lt hs) (hopening.slice hclosing) hrow rfl) hrow

/-! ## Conditionals -/

/-- A text may be cut around a conditional and around each of its branches. -/
theorem seams_choice (hd : A.Spares d) (h : A.Spelled s) {choice : Choice}
    (hchoice : choice ∈ Choice.ofTags (Tag.scan d.conditionalTag s)) :
    A.Seam s choice.start ∧ A.Seam s choice.stop ∧
      ∀ b ∈ choice.branches, A.Seam s b.tag.stop ∧ A.Seam s b.stop := by
  have hstart : ∀ t ∈ Tag.scan d.conditionalTag s, A.Seam s t.start := fun t ht =>
    seam_start hd d.encloses_conditionalTag h (Tag.stands_of_mem_scan ht)
  have hstop : ∀ t ∈ Tag.scan d.conditionalTag s, A.Seam s t.stop := fun t ht =>
    seam_stop hd d.encloses_conditionalTag h (Tag.stands_of_mem_scan ht)
  have hamong := Choice.among_of_mem hchoice
  obtain ⟨t, ht, hfront⟩ := hamong.start
  obtain ⟨u, hu, hback⟩ := hamong.stop
  refine ⟨hfront ▸ hstart t ht, hback ▸ hstop u hu, fun b hb => ?_⟩
  obtain ⟨hmem, w, hw, hend⟩ := hamong.branches b hb
  exact ⟨hstop _ hmem, hend ▸ hstart w hw⟩

theorem mem_of_select? {bs : List Branch} {b : Branch} (h : Branch.select? ctx bs = some b) :
    b ∈ bs := by
  fun_induction Branch.select? ctx bs with
  | case1 => exact absurd h (by simp)
  | case2 b bs => simp [Option.some.inj h]
  | case3 b bs => simp [Option.some.inj h]
  | case4 b bs _ _ _ _ _ ih => exact List.mem_cons_of_mem _ (ih h)
  | case5 b bs => exact List.mem_cons_of_mem _ (List.mem_of_find?_eq_some h)

/-- Resolving the conditionals of a text keeps it spelled. -/
theorem Spelled.resolveConditionals (hd : A.Spares d) (h : A.Spelled s) (ctx : Context) :
    A.Spelled (resolveConditionals d ctx s) := by
  induction hn : s.length using Nat.strongRecOn generalizing s with
  | ind n ih =>
    rw [Stencil.resolveConditionals]
    split
    · exact .nil
    rename_i hs
    have hord := Choice.ordered_ofTags (Tag.pairwise_scanFrom d.conditionalTag 0 0 s)
      fun _ _ => Nat.zero_le _
    refine h.splice_map (hord _) fun choice hchoice => ?_
    obtain ⟨hstart, hstop, hbranches⟩ := seams_choice hd h hchoice
    refine ⟨⟨hstart, hstop⟩, ?_⟩
    dsimp only
    split
    · rename_i branch hbranch
      obtain ⟨hfront, hback⟩ := hbranches branch (mem_of_select? hbranch)
      exact ih _ (hn ▸ branch.length_body_lt hs) (hfront.slice hback) rfl
    · exact .nil

/-! ## Blocks -/

/-- A text may be cut around a block and around its own text. -/
theorem seams_block (hd : A.Spares d) (h : A.Spelled s) {block : Tag.Enclosure String Unit}
    (hblock : block ∈ Blocks.outermost d s) :
    A.Seam s block.opening.start ∧ A.Seam s block.opening.stop ∧ A.Seam s block.closing.start ∧
      A.Seam s block.closing.stop := by
  obtain ⟨hopening, hclose⟩ := Tag.mem_outermost hblock
  have hfront := Tag.stands_of_mem_scan hopening
  have hback := (Tag.closing?_eq_some hclose).1
  exact ⟨seam_start hd d.encloses_blockOpening h hfront,
    seam_stop hd d.encloses_blockOpening h hfront,
    seam_start hd d.encloses_blockClosing h hback, seam_stop hd d.encloses_blockClosing h hback⟩

theorem spelled_body (hd : A.Spares d) (h : A.Spelled s) {block : Tag.Enclosure String Unit}
    (hblock : block ∈ Blocks.outermost d s) : A.Spelled (block.body s) := by
  obtain ⟨-, hopening, hclosing, -⟩ := seams_block hd h hblock
  exact hopening.slice hclosing

/-- Edits in the place of blocks do not overlap. -/
theorem ordered_blocks (f : Tag.Enclosure String Unit → Text) :
    Edit.Ordered 0 ((Blocks.outermost d s).map fun block =>
      ⟨block.opening.start, block.closing.stop, f block⟩) :=
  Tag.ordered_outermost (fun _ _ hc => (Tag.closing?_eq_some hc).2) f

/-- A text may be cut around the tag that names its base. -/
theorem Spelled.splice_base (hd : A.Spares d) (h : A.Spelled s) {tag : Tag String}
    (htag : tag ∈ Tag.scan d.baseTag s) {base : Text} (hbase : A.Spelled base) :
    A.Spelled (s.splice [⟨tag.start, tag.stop, base⟩]) := by
  have hstands := Tag.stands_of_mem_scan htag
  refine h.splice ⟨Nat.zero_le _, Nat.le_of_lt tag.start_lt_stop, trivial⟩
    (List.forall_mem_singleton.mpr ?_) (List.forall_mem_singleton.mpr hbase)
  exact ⟨seam_start hd d.encloses_baseTag h hstands, seam_stop hd d.encloses_baseTag h hstands⟩

end Alphabet

/-! ## Protected regions -/

namespace ProtectedRegions

variable {A : Alphabet} {d : Delimiters} {s : Text}

theorem bare_outside (h : A.Bare s) : ∀ w ∈ outside d s, A.Bare w :=
  fun _ hw => h.of_subset (Text.subset_of_mem_kept hw)

/-- What a region protects stands in the source. -/
theorem subset_of_mem_inside {content : Text} (h : content ∈ inside d s) : content ⊆ s := by
  obtain ⟨t, ht, rfl⟩ := List.mem_map.mp h
  obtain ⟨⟨c, x⟩, hregion, hc⟩ := Recognizer.map_eq_some.mp (Tag.stands_of_mem_scan ht)
  obtain ⟨u, l, hu, -, hblanks⟩ := Recognizer.literal_eq_some.mp hregion
  obtain ⟨g, u', l, -, rfl, -, hword, -⟩ := Recognizer.blanks_eq_some hblanks
  obtain ⟨u, l, rfl, -, hblanks⟩ := Recognizer.literal_eq_some.mp hword
  obtain ⟨g', u', l, -, rfl, -, hright, -⟩ := Recognizer.blanks_eq_some hblanks
  obtain ⟨u, l, rfl, -, hfew⟩ := Recognizer.literal_eq_some.mp hright
  obtain ⟨u', l, rfl, -, -, -, -⟩ := Recognizer.fewest_eq_some hfew
  intro y hy
  rw [← hc] at hy
  have hdrop : y ∈ s.drop t.start := by simp [hu, hy]
  exact List.mem_of_mem_drop hdrop

/-- Putting the regions of a source aside spells it, if it is bare outside of them and its
placeholders may be used. -/
theorem spelled_extract {regions : ProtectedRegions} (houtside : ∀ w ∈ outside d s, A.Bare w)
    (hnew : ∀ n, regions.length ≤ n → n < (extract d regions s).2.length →
    A.Spelled (placeholder n)) :
    A.Spelled (extract d regions s).1 := by
  rw [extract_fst]
  refine Text.interlace_of .nil Alphabet.Spelled.append (fun w hw => (houtside w hw).spelled)
    fun g hg => ?_
  obtain ⟨n, hn, rfl⟩ := List.mem_map.mp hg
  have hrange := List.mem_range'_1.mp hn
  refine hnew n hrange.1 ?_
  rw [extract_snd, List.length_append]
  exact hrange.2

end ProtectedRegions

end Stencil
