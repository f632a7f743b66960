/-!
# Text

Templates are scanned character by character, so inside the library a text is the list of its
characters. This file holds the blank characters and the small vocabulary the scanners share:
trimming, splitting and replacing.

The splitters never lose a character: what `splitOn` and `splitOnce?` return, joined by the
separator again, is the text they were given.
-/

namespace Stencil

/-- A text taken apart into its characters. -/
abbrev Text := List Char

/-- The Unicode white space characters. -/
def isBlank (c : Char) : Bool :=
  let n := c.toNat
  n == 0x20 || (0x09 ≤ n && n ≤ 0x0D) || n == 0x85 || n == 0xA0 || n == 0x1680 ||
    (0x2000 ≤ n && n ≤ 0x200A) || n == 0x2028 || n == 0x2029 || n == 0x202F || n == 0x205F ||
    n == 0x3000

/-- An ASCII decimal digit. -/
def isDigit (c : Char) : Bool := '0' ≤ c && c ≤ '9'

/-- An ASCII letter. -/
def isLetter (c : Char) : Bool := ('a' ≤ c && c ≤ 'z') || ('A' ≤ c && c ≤ 'Z')

namespace Text

/-- Drops the blanks in front. -/
def trimStart (s : Text) : Text := s.dropWhile isBlank

/-- Drops the blanks at the end. -/
def trimEnd (s : Text) : Text := (s.reverse.dropWhile isBlank).reverse

/-- Drops the blanks on both sides. -/
def trim (s : Text) : Text := s.trimStart.trimEnd

/-- What follows `w`, if the text starts with it. -/
def dropPrefix? : (s w : Text) → Option Text
  | s, [] => some s
  | [], _ :: _ => none
  | c :: s, a :: w => if c = a then dropPrefix? s w else none

/-- The pieces between the separators; one more than there are separators. -/
def splitOn (sep : Char) : Text → List Text
  | [] => [[]]
  | c :: s =>
    match splitOn sep s with
    | [] => [[c]]
    | piece :: rest => if c = sep then [] :: piece :: rest else (c :: piece) :: rest

/-- The two sides of the first separator. -/
def splitOnce? (sep : Char) : Text → Option (Text × Text)
  | [] => none
  | c :: s => if c = sep then some ([], s) else (splitOnce? sep s).map fun (a, b) => (c :: a, b)

/-- The longest stretches without a blank. -/
def words : Text → List Text
  | [] => []
  | c :: s =>
    if isBlank c then words s
    else
      match s, words s with
      | d :: _, w :: rest => if isBlank d then [c] :: w :: rest else (c :: w) :: rest
      | _, rest => [c] :: rest

/-- Replaces occurrences of `old`, skipping the first `skip` characters of the text. -/
def replaceFrom (old new : Text) : (skip : Nat) → Text → Text
  | _, [] => []
  | skip + 1, _ :: s => replaceFrom old new skip s
  | 0, c :: s =>
    if old.isPrefixOf (c :: s) then new ++ replaceFrom old new (old.length - 1) s
    else c :: replaceFrom old new 0 s

/-- Replaces every occurrence of `old`, from left to right and without overlap. -/
def replace (s old new : Text) : Text := replaceFrom old new 0 s

/-- The size of the text in UTF-8 bytes. -/
def utf8Size : Text → Nat
  | [] => 0
  | c :: s => c.utf8Size + utf8Size s

/-- The number of characters in front of a UTF-8 byte offset; none inside a character or past
the end. -/
def indexOfOffset? : Text → Nat → Option Nat
  | _, 0 => some 0
  | [], _ + 1 => none
  | c :: s, offset =>
    if c.utf8Size ≤ offset then (indexOfOffset? s (offset - c.utf8Size)).map (· + 1) else none

theorem dropPrefix?_eq_some {s w r : Text} : s.dropPrefix? w = some r ↔ s = w ++ r := by
  induction w generalizing s with
  | nil => simp [dropPrefix?]
  | cons a w ih =>
    cases s with
    | nil => simp [dropPrefix?]
    | cons c s => by_cases h : c = a <;> simp [dropPrefix?, h, ih]

theorem splitOn_ne_nil (sep : Char) (s : Text) : splitOn sep s ≠ [] := by
  cases s with
  | nil => simp [splitOn]
  | cons c s =>
    rw [splitOn]
    split
    · simp
    · split <;> simp

theorem intercalate_splitOn (sep : Char) (s : Text) : [sep].intercalate (splitOn sep s) = s := by
  induction s with
  | nil => rfl
  | cons c s ih =>
    rw [splitOn]
    split
    · exact absurd ‹_› (splitOn_ne_nil sep s)
    · rename_i piece rest hs
      rw [hs] at ih
      by_cases hc : c = sep
      · simp [hc, List.intercalate, ← ih]
      · cases rest with
        | nil => simpa [hc, List.intercalate] using ih
        | cons next rest => simpa [hc, List.intercalate] using ih

theorem splitOnce?_eq_some {sep : Char} {s a b : Text} :
    splitOnce? sep s = some (a, b) ↔ s = a ++ sep :: b ∧ sep ∉ a := by
  induction s generalizing a with
  | nil => simp [splitOnce?]
  | cons c s ih =>
    by_cases hc : c = sep
    · cases a with
      | nil => simp [splitOnce?, hc]
      | cons d a => simp +contextual [splitOnce?, hc]
    · cases a with
      | nil => simp [splitOnce?, hc]
      | cons d a =>
        have hstep : splitOnce? sep (c :: s) = some (d :: a, b) ↔
            c = d ∧ splitOnce? sep s = some (a, b) := by
          cases h : splitOnce? sep s <;> simp [splitOnce?, hc, h, Prod.ext_iff, and_assoc]
        rw [hstep, ih]
        constructor
        · rintro ⟨rfl, rfl, h⟩
          exact ⟨rfl, by simp [h, Ne.symm hc]⟩
        · rintro ⟨h, hn⟩
          simp only [List.cons_append, List.cons.injEq, List.mem_cons, not_or] at h hn
          exact ⟨h.1, h.2, hn.2⟩

end Text

end Stencil
