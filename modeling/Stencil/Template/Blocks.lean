import Stencil.Dict
import Stencil.Tag.Balance
import Stencil.Tag.Syntax

/-!
# Blocks

A template may name parts of itself as blocks, and one that extends it may define them anew.
Definitions are collected from the most derived template to its bases, and the first definition
of a name counts. Every block is then replaced by its definition, or by its own text.

Definitions may mention each other. A block inside itself is replaced by nothing, so resolving
always ends: on the way into a definition there is one name less that can still be entered, and
on the way into a block's own text there is less text.
-/

namespace Stencil

/-- Definitions of blocks by name. -/
abbrev Blocks := Dict Text

namespace Blocks

/-- The outermost blocks of a text. -/
def outermost (d : Delimiters) (s : Text) : List (Tag.Enclosure String Unit) :=
  Tag.outermost (fun t => Tag.closing? (d.blockOpening.map fun _ => ()) d.blockClosing () s t.stop)
    0 (Tag.scan d.blockOpening s)

/-- Adds the definitions of a text, inner ones after outer ones. Names already defined keep their
definition. -/
def collect (d : Delimiters) (s : Text) (blocks : Blocks) : Blocks :=
  if _h : s = [] then blocks
  else
    (outermost d s).foldl
      (fun blocks block =>
        let name := block.opening.content
        let body := block.body s
        collect d body (if blocks.has name then blocks else blocks.set name body))
      blocks
termination_by s.length
decreasing_by exact block.length_body_lt ‹s ≠ []›

/-- Removes the blocks of a text. -/
def strip (d : Delimiters) (s : Text) : Text :=
  s.splice ((outermost d s).map fun block => ⟨block.opening.start, block.closing.stop, []⟩)

/-- The number of definitions that can still be entered. -/
def unentered (definitions : Blocks) (active : List String) : Nat :=
  (definitions.keys.filter fun name => name ∉ active).length

theorem unentered_cons_le (definitions : Blocks) (active : List String) (name : String) :
    definitions.unentered (name :: active) ≤ definitions.unentered active := by
  unfold unentered
  rw [← List.countP_eq_length_filter, ← List.countP_eq_length_filter]
  refine List.countP_mono_left fun other _ h => ?_
  simp only [List.mem_cons, not_or, decide_eq_true_eq] at h ⊢
  exact h.2

theorem unentered_cons_lt {definitions : Blocks} {active : List String} {name : String}
    {content : Text} (h : definitions.get? name = some content) (hn : name ∉ active) :
    definitions.unentered (name :: active) < definitions.unentered active := by
  induction definitions with
  | nil => simp [Dict.get?] at h
  | cons e definitions ih =>
    obtain ⟨other, c⟩ := e
    have hle := unentered_cons_le definitions active name
    unfold unentered Dict.keys at hle ih ⊢
    by_cases ho : other = name
    · subst ho
      simpa [List.filter_cons, hn] using Nat.lt_succ_of_le hle
    · rw [Dict.get?, if_neg ho] at h
      have := ih h
      by_cases ha : other ∈ active
      · simpa [List.filter_cons, ho, ha] using this
      · simpa [List.filter_cons, ho, ha] using this

/-- Replaces the blocks of a text by their definitions, or by their own text. Blocks with an
active name are replaced by nothing. -/
def resolve (d : Delimiters) (definitions : Blocks) (active : List String) (s : Text) : Text :=
  if _h : s = [] then []
  else
    s.splice ((outermost d s).map fun block =>
      let name := block.opening.content
      ⟨block.opening.start, block.closing.stop,
        if _hn : name ∈ active then []
        else
          match _hd : definitions.get? name with
          | some content => resolve d definitions (name :: active) content
          | none => resolve d definitions (name :: active) (block.body s)⟩)
termination_by (definitions.unentered active, s.length)
decreasing_by
  · exact .left _ _ (unentered_cons_lt ‹_› ‹_›)
  · exact Prod.Lex.right' _ (unentered_cons_le ..) (block.length_body_lt ‹_›)

end Blocks

end Stencil
