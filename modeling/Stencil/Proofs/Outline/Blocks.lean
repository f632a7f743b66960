import Stencil.Proofs.Outline.Pairs
import Stencil.Template.Blocks

/-!
# Blocks of an outline

Blocks are pairs of tags whatever their names are. Each pass over the blocks of an outline treats
one segment after the other.
-/

namespace Stencil

namespace Outline

open Recognizer

variable {P : Type} {d : Delimiters} {w : P → Text}

/-- Blocks are pairs whatever their names are. -/
def blockPairing (d : Delimiters) : Pairing String where
  heads body := (reading d d.blockOpening body).toList
  opens _ := readsAs d (d.blockOpening.map fun _ => ()) ()
  closes _ := readsAs d d.blockClosing ()

/-- The closing tag of a block. -/
def blockClose? (d : Delimiters) (s : Text) (t : Tag String) : Option (Tag Unit) :=
  Tag.closing? (d.blockOpening.map fun _ => ()) d.blockClosing () s t.stop

theorem closes_blocks (hd : d.Apart) (s : Text) :
    Closes d w (blockPairing d) (blockClose? d s) s := by
  intro pre body a ps hps hs
  have ho : Delimited d (d.blockOpening.map fun _ => ()) :=
    (Delimiters.delimited_blockOpening hd).map
  have hclose := closing?_write hd ho (Delimiters.delimited_blockClosing hd) ()
    (pre ++ d.enclose body) hps
  rw [List.append_assoc, ← hs, List.length_append] at hclose
  exact hclose

theorem outermost_blocks (hd : d.Apart) {ps : List (Piece P)} (hps : Tidy d w ps) :
    Blocks.outermost d (write d w ps) =
      Tag.outermost (blockClose? d (write d w ps)) 0
        (locate d w (headsAt d (blockPairing d)) 0 ps) := by
  rw [Blocks.outermost, Tag.scan, scanFrom_write hd (Delimiters.delimited_blockOpening hd) hps]
  rfl

theorem outermost_nil (d : Delimiters) : Blocks.outermost d [] = [] := by
  simp [Blocks.outermost, Tag.scan, Tag.scanFrom, Tag.outermost]

/-- Removing the blocks of an outline. -/
theorem strip_write (hd : d.Apart) {ps : List (Piece P)} (hps : Tidy d w ps) :
    Blocks.strip d (write d w ps) =
      (segments (blockPairing d) ps).flatMap (replaced d w fun _ _ => []) := by
  rw [Blocks.strip, outermost_blocks hd hps]
  exact splice_outermost (closes_blocks hd _) hps fun _ _ => []

/-- What takes the place of a block. -/
def definition (d : Delimiters) (definitions : Blocks) (active : List String) (name : String)
    (content : Text) : Text :=
  if name ∈ active then []
  else definitions.resolve d (name :: active) ((definitions.get? name).getD content)

theorem resolve_eq (d : Delimiters) (definitions : Blocks) (active : List String) (s : Text) :
    definitions.resolve d active s =
      s.splice ((Blocks.outermost d s).map fun block =>
        ⟨block.opening.start, block.closing.stop,
          definition d definitions active block.opening.content (block.body s)⟩) := by
  rw [Blocks.resolve]
  split
  · rename_i hs
    subst hs
    rw [outermost_nil]
    rfl
  · congr 1
    refine List.map_congr_left fun block _ => ?_
    by_cases hn : block.opening.content ∈ active
    · simp [definition, hn]
    · simp only [definition, hn, dite_false, if_false]
      split <;> rename_i h <;> rw [h] <;> rfl

/-- Replacing the blocks of an outline. -/
theorem resolve_write (hd : d.Apart) (definitions : Blocks) (active : List String)
    {ps : List (Piece P)} (hps : Tidy d w ps) :
    definitions.resolve d active (write d w ps) =
      (segments (blockPairing d) ps).flatMap (replaced d w fun name inside =>
        definition d definitions active name (write d w inside)) := by
  rw [resolve_eq, outermost_blocks hd hps]
  exact splice_outermost (closes_blocks hd _) hps (definition d definitions active)

/-- Adds one definition, unless there is one. -/
def define (blocks : Blocks) (name : String) (content : Text) : Blocks :=
  if Dict.has blocks name then blocks else Dict.set blocks name content

/-- Collecting the definitions of an outline. -/
theorem collect_write (hd : d.Apart) (blocks : Blocks) {ps : List (Piece P)} (hps : Tidy d w ps) :
    Blocks.collect d (write d w ps) blocks =
      (pairs (segments (blockPairing d) ps)).foldl (fun blocks x =>
        Blocks.collect d (write d w x.2) (define blocks x.1 (write d w x.2))) blocks := by
  have hfold := contents_outermost (closes_blocks hd (write d w ps)) hps
  rw [← outermost_blocks hd hps] at hfold
  have hmap := congrArg (List.foldl (fun (blocks : Blocks) (x : String × Text) =>
    Blocks.collect d x.2 (define blocks x.1 x.2)) blocks) hfold
  rw [List.foldl_map, List.foldl_map] at hmap
  rw [Blocks.collect]
  split
  · rename_i hs
    rw [← hmap, hs, outermost_nil]
    rfl
  · exact hmap

end Outline

end Stencil
