import Stencil.Text.Word

/-!
# Recognizers

A recognizer reads one thing off the front of a text. It tells which characters it takes, its
lexeme, and what they mean.

Recognizers are put together front to back: each names what it takes itself and is given the
recognizer of what follows. A part that may take more or less then tries its possibilities in a
fixed order, and the first that lets the rest succeed counts. `most` tries the longest stretch
first and `fewest` the shortest.
-/

namespace Stencil

/-- Reads off the front of a text: the characters taken, and what they mean. -/
abbrev Recognizer (α : Type) := Text → Option (Text × α)

namespace Recognizer

variable {α β : Type}

/-- Takes nothing. -/
def done (a : α) : Recognizer α := fun _ => some ([], a)

/-- Changes the meaning. -/
def map (f : α → β) (r : Recognizer α) : Recognizer β := fun s =>
  match r s with
  | some (lexeme, a) => some (lexeme, f a)
  | none => none

/-- The first of two recognizers that succeeds. -/
def orElse (r q : Recognizer α) : Recognizer α := fun s =>
  match r s with
  | some x => some x
  | none => q s

/-- Takes a fixed text. -/
def literal (w : Text) (next : Recognizer α) : Recognizer α := fun s =>
  match s.dropPrefix? w with
  | none => none
  | some rest =>
    match next rest with
    | some (lexeme, a) => some (w ++ lexeme, a)
    | none => none

/-- Takes one character of a class. -/
def one (p : Char → Bool) (next : Recognizer α) : Recognizer (Char × α)
  | [] => none
  | c :: s =>
    if p c then
      match next s with
      | some (lexeme, a) => some (c :: lexeme, c, a)
      | none => none
    else none

/-- Takes as many characters of a class as the rest allows. -/
def most (p : Char → Bool) (next : Recognizer α) : Recognizer (Text × α)
  | [] => next.map (([], ·)) []
  | c :: s =>
    match if p c then most p next s else none with
    | some (lexeme, taken, a) => some (c :: lexeme, c :: taken, a)
    | none => next.map (([], ·)) (c :: s)

/-- Takes as few characters of a class as the rest allows. -/
def fewest (p : Char → Bool) (next : Recognizer α) : Recognizer (Text × α)
  | [] => next.map (([], ·)) []
  | c :: s =>
    match next (c :: s) with
    | some (lexeme, a) => some (lexeme, [], a)
    | none =>
      match if p c then fewest p next s else none with
      | some (lexeme, taken, a) => some (c :: lexeme, c :: taken, a)
      | none => none

/-- Takes a character of one class, and as many of another as the rest allows. -/
def leading (p q : Char → Bool) (next : Recognizer α) : Recognizer (Text × α) :=
  (one p (most q next)).map fun (c, taken, a) => (c :: taken, a)

/-- Takes at least one character of a class, and as many as the rest allows. -/
def oneOrMore (p : Char → Bool) (next : Recognizer α) : Recognizer (Text × α) := leading p p next

/-- Takes blanks. -/
def blanks (next : Recognizer α) : Recognizer α := (most isBlank next).map (·.2)

/-- Takes at least one blank. -/
def someBlanks (next : Recognizer α) : Recognizer α := (oneOrMore isBlank next).map (·.2)

/-- Takes nothing, and only where no word goes on. -/
def wordEnd (next : Recognizer α) : Recognizer α := fun s =>
  if s.head?.any isWordChar then none else next s

/-- Takes the rest of a path behind a name character: more name characters, and separators with
a name character behind them. -/
def pathRest (next : Recognizer α) : Recognizer (Text × α)
  | '.' :: c :: s =>
    match if isNameChar c then pathRest next s else none with
    | some (lexeme, taken, a) => some ('.' :: c :: lexeme, '.' :: c :: taken, a)
    | none => next.map (([], ·)) ('.' :: c :: s)
  | '-' :: '>' :: c :: s =>
    match if isNameChar c then pathRest next s else none with
    | some (lexeme, taken, a) => some ('-' :: '>' :: c :: lexeme, '-' :: '>' :: c :: taken, a)
    | none => next.map (([], ·)) ('-' :: '>' :: c :: s)
  | c :: s =>
    match if isNameChar c then pathRest next s else none with
    | some (lexeme, taken, a) => some (c :: lexeme, c :: taken, a)
    | none => next.map (([], ·)) (c :: s)
  | [] => next.map (([], ·)) []

/-- Takes as long a path as the rest allows: names and numbers separated by points or arrows,
the first of which is a name. -/
def path (next : Recognizer α) : Recognizer (Text × α) :=
  (one isNameStart (pathRest next)).map fun (c, taken, a) => (c :: taken, a)

end Recognizer

end Stencil
