import Stencil.Text.Word
import Stencil.Text.CaseTable

/-!
# Upper and lower case

Full Unicode case mapping: a character may map to several. The only mapping that looks at its
surroundings is the lower case of the capital sigma, which has its own form at the end of a word.
-/

namespace Stencil.Text

/-- The character a run maps a code point to, if the run holds it. -/
def CaseRun.image? (run : CaseRun) (n : Nat) : Option Char :=
  if run.first ≤ n && n ≤ run.last && (n - run.first) % run.stride == 0 then
    some (Char.ofNat (n + run.shift).toNat)
  else none

/-- The image of a character beyond ASCII under a pair of case tables. -/
def mapCase (runs : List CaseRun) (expansions : List (Nat × List Nat)) (c : Char) : Text :=
  match expansions.lookup c.toNat with
  | some image => image.map Char.ofNat
  | none => [(runs.findSome? (·.image? c.toNat)).getD c]

/-- The upper case of one character. -/
def upperChar (c : Char) : Text :=
  if c.toNat < 0x80 then [c.toUpper] else mapCase upperRuns upperExpansions c

/-- The lower case of one character, wherever it stands. -/
def lowerChar (c : Char) : Text :=
  if c.toNat < 0x80 then [c.toLower] else mapCase lowerRuns lowerExpansions c

/-- The upper case of a text. -/
def upper (s : Text) : Text := s.flatMap upperChar

/-- A character with a case. -/
def isCased (c : Char) : Bool := inRanges casedRanges c.toNat

/-- A character passed over when the case of a neighbour is asked for. -/
def isCaseIgnorable (c : Char) : Bool := inRanges caseIgnorableRanges c.toNat

/-- Whether the first character that is not passed over has a case. -/
def startsCased (s : Text) : Bool := (s.dropWhile isCaseIgnorable).head?.any isCased

/-- The capital sigma. -/
def capitalSigma : Char := Char.ofNat 0x3A3

/-- The sigma at the end of a word. -/
def finalSigma : Char := Char.ofNat 0x3C2

/-- The lower case of a text, given the characters in front of it, nearest first. -/
def lowerAfter : (before : Text) → Text → Text
  | _, [] => []
  | before, c :: s =>
    if c = capitalSigma && startsCased before && !startsCased s then
      finalSigma :: lowerAfter (c :: before) s
    else lowerChar c ++ lowerAfter (c :: before) s

/-- The lower case of a text. -/
def lower (s : Text) : Text := lowerAfter [] s

end Stencil.Text
