import Stencil.Tag.Recognizer

/-!
# Tags

A tag is a stretch of a template with a meaning. `scan` finds the tags of one grammar from left
to right, without overlap, and `splice` puts texts in the place of stretches.

Positions count characters from the front of the text.
-/

namespace Stencil

/-- A tag found in a text. -/
structure Tag (α : Type) where
  /-- Where the tag starts. -/
  start : Nat
  /-- The tag as it is written. -/
  lexeme : Text
  /-- What the tag says. -/
  content : α
  /-- A tag has at least one character. -/
  lexeme_ne_nil : lexeme ≠ []

namespace Tag

variable {α : Type}

/-- Where the text goes on behind the tag. -/
def stop (t : Tag α) : Nat := t.start + t.lexeme.length

theorem start_lt_stop (t : Tag α) : t.start < t.stop := by
  have := List.length_pos_iff.2 t.lexeme_ne_nil
  unfold stop
  omega

/-- The tags of a text that starts at a position and whose first `skip` characters are taken. -/
def scanFrom (r : Recognizer α) : (pos skip : Nat) → Text → List (Tag α)
  | _, _, [] => []
  | pos, skip + 1, _ :: s => scanFrom r (pos + 1) skip s
  | pos, 0, c :: s =>
    match r (c :: s) with
    | some (d :: lexeme, a) =>
      ⟨pos, d :: lexeme, a, by simp⟩ :: scanFrom r (pos + 1) lexeme.length s
    | _ => scanFrom r (pos + 1) 0 s

/-- The tags of a text, from left to right and without overlap. -/
def scan (r : Recognizer α) (s : Text) : List (Tag α) := scanFrom r 0 0 s

/-- The span of a tag in UTF-8 bytes. -/
def byteSpan (t : Tag α) (s : Text) : Nat × Nat :=
  let start := Text.utf8Size (s.take t.start)
  (start, start + t.lexeme.utf8Size)

end Tag

/-- A stretch of a text and what takes its place. -/
structure Edit where
  /-- Where the stretch starts. -/
  start : Nat
  /-- Where the text goes on behind the stretch. -/
  stop : Nat
  /-- What takes its place. -/
  replacement : Text

namespace Text

/-- The part of a text from one position up to another. -/
def slice (s : Text) (start stop : Nat) : Text := (s.drop start).take (stop - start)

/-- Makes edits in a text that starts at a position. -/
def spliceFrom : (pos : Nat) → Text → List Edit → Text
  | _, s, [] => s
  | pos, s, e :: es =>
    s.take (e.start - pos) ++ (e.replacement ++ spliceFrom e.stop (s.drop (e.stop - pos)) es)

/-- Makes edits in a text. They are given from left to right, and do not overlap. -/
def splice (s : Text) (edits : List Edit) : Text := spliceFrom 0 s edits

/-- Puts a text in the place of every tag of one grammar. -/
def replaceTags {α : Type} (s : Text) (r : Recognizer α) (f : Tag α → Text) : Text :=
  s.splice ((Tag.scan r s).map fun t => ⟨t.start, t.stop, f t⟩)

theorem length_slice_lt {s : Text} {start stop : Nat} (hs : s ≠ []) (h : 0 < start) :
    (s.slice start stop).length < s.length := by
  have := List.length_pos_iff.2 hs
  simp only [slice, List.length_take, List.length_drop]
  omega

end Text

end Stencil
