import Stencil.Text.Basic
import Stencil.Text.WordTable

/-!
# Word characters

Names in tags are made of word characters. Paths and conditions use the ASCII ones only; block
names, template names and loop variables take any Unicode word character after their first.
-/

namespace Stencil

/-- Membership in a table of code point ranges. -/
def inRanges (ranges : List (Nat × Nat)) (n : Nat) : Bool :=
  ranges.any fun (first, last) => first ≤ n && n ≤ last

/-- An ASCII letter or underscore, which may start a name. -/
def isNameStart (c : Char) : Bool := isLetter c || c = '_'

/-- An ASCII letter, digit or underscore. -/
def isNameChar (c : Char) : Bool := isLetter c || isDigit c || c = '_'

/-- A Unicode word character. -/
def isWordChar (c : Char) : Bool :=
  isNameChar c || (0x7F < c.toNat && inRanges Text.wordRanges c.toNat)

theorem isWordChar_of_isNameChar {c : Char} (h : isNameChar c = true) : isWordChar c = true := by
  simp [isWordChar, h]

theorem isNameChar_of_isNameStart {c : Char} (h : isNameStart c = true) :
    isNameChar c = true := by
  simp only [isNameStart, isNameChar, Bool.or_eq_true] at h ⊢
  rcases h with h | h
  · exact .inl (.inl h)
  · exact .inr h

end Stencil
