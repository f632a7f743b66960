import Stencil.Tag.Basic

/-!
# Balanced tags

Opening and closing tags balance like parentheses. The closing tag of an opening tag is the
first one behind it with as many openings as closings in between; only tags with the same key
count.

Opening and closing tags are two grammars, and each is scanned on its own. Where two tags start
at the same position, the opening one comes first.
-/

namespace Stencil

namespace Tag

variable {α κ : Type}

/-- An opening or a closing tag. -/
inductive Edge (κ : Type) where
  /-- An opening tag. -/
  | opening (tag : Tag κ)
  /-- A closing tag. -/
  | closing (tag : Tag κ)

namespace Edge

/-- Where the tag starts. -/
def start : Edge κ → Nat
  | .opening t => t.start
  | .closing t => t.start

/-- The opening and closing tags of a text that starts at a position, from left to right. -/
def edges [DecidableEq κ] (opening closing : Recognizer κ) (key : κ) (pos : Nat) (s : Text) :
    List (Edge κ) :=
  let openings := (scanFrom opening pos 0 s).filter (·.content = key)
  let closings := (scanFrom closing pos 0 s).filter (·.content = key)
  (openings.map .opening).merge (closings.map .closing) fun a b => a.start ≤ b.start

/-- The first closing tag that closes none of the openings, given how many are open. -/
def unmatched? : (depth : Nat) → List (Edge κ) → Option (Tag κ)
  | _, [] => none
  | depth, .opening _ :: es => unmatched? (depth + 1) es
  | 0, .closing t :: _ => some t
  | depth + 1, .closing _ :: es => unmatched? depth es

end Edge

/-- The closing tag that balances an opening tag ending at a position. -/
def closing? [DecidableEq κ] (opening closing : Recognizer κ) (key : κ) (s : Text) (pos : Nat) :
    Option (Tag κ) :=
  Edge.unmatched? 0 (Edge.edges opening closing key pos (s.drop pos))

/-- The span of the balancing tag in UTF-8 bytes, for a position given in bytes. There is none
past the end or inside a character. -/
def closingSpan? [DecidableEq κ] (opening closing : Recognizer κ) (key : κ) (s : Text)
    (offset : Nat) : Option (Nat × Nat) :=
  (s.indexOfOffset? offset).bind fun pos =>
    (closing? opening closing key s pos).map fun t => t.byteSpan s

/-- An opening tag with its closing tag. -/
structure Enclosure (α κ : Type) where
  /-- The opening tag. -/
  opening : Tag α
  /-- The closing tag. -/
  closing : Tag κ

namespace Enclosure

/-- The text between the two tags. -/
def body (e : Enclosure α κ) (s : Text) : Text := s.slice e.opening.stop e.closing.start

theorem length_body_lt (e : Enclosure α κ) {s : Text} (hs : s ≠ []) :
    (e.body s).length < s.length :=
  Text.length_slice_lt hs (Nat.zero_lt_of_lt e.opening.start_lt_stop)

end Enclosure

/-- The outermost enclosures: from left to right, every opening tag that has a closing tag and
does not start inside the enclosure before it. -/
def outermost (close? : Tag α → Option (Tag κ)) :
    (cursor : Nat) → List (Tag α) → List (Enclosure α κ)
  | _, [] => []
  | cursor, t :: ts =>
    if t.start < cursor then outermost close? cursor ts
    else
      match close? t with
      | none => outermost close? cursor ts
      | some c => ⟨t, c⟩ :: outermost close? c.stop ts

end Tag

end Stencil
