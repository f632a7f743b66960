import Stencil.Error
import Stencil.Text.Word
import Stencil.Value.Basic

/-!
# Tokens of conditions

A condition is read into tokens: literals, paths, operators and parentheses, with any blanks
between them. Operators have a sign and a word, except for comparisons. A path goes on as long as
it can: `a.b->c` is one path, and the point of `a.` is none of it.
-/

namespace Stencil

/-- A comparison operator. -/
inductive Comparison where
  /-- Equal. -/
  | eq
  /-- Not equal. -/
  | ne
  /-- Less. -/
  | lt
  /-- Greater. -/
  | gt
  /-- Less or equal. -/
  | le
  /-- Greater or equal. -/
  | ge
  deriving DecidableEq, Repr

namespace Condition

/-- A token of a condition. -/
inductive Token where
  /-- A string, a number, a truth value or null. -/
  | literal (v : Value)
  /-- A path into the context. -/
  | path (p : Text)
  /-- Negation. -/
  | not
  /-- Conjunction. -/
  | and
  /-- Disjunction. -/
  | or
  /-- A comparison operator. -/
  | cmp (op : Comparison)
  /-- An opening parenthesis. -/
  | opening
  /-- A closing parenthesis. -/
  | closing

/-- How messages name a comparison operator. -/
def comparisonName : Comparison → String
  | .eq => "Eq"
  | .ne => "Ne"
  | .lt => "Lt"
  | .gt => "Gt"
  | .le => "Le"
  | .ge => "Ge"

/-- How messages name a token that stands where an operand should be. -/
def Token.name : Token → String
  | .literal _ => "Literal"
  | .path _ => "Path"
  | .not => "Not"
  | .and => "And"
  | .or => "Or"
  | .cmp op => "Cmp(" ++ comparisonName op ++ ")"
  | .opening => "LParen"
  | .closing => "RParen"

/-- What a path takes of the text after one of its name characters. -/
def pathRest : Text → Text
  | '.' :: c :: s => if isNameChar c then '.' :: c :: pathRest s else []
  | '-' :: '>' :: c :: s => if isNameChar c then '-' :: '>' :: c :: pathRest s else []
  | c :: s => if isNameChar c then c :: pathRest s else []
  | [] => []

/-- Reads the rest of a string up to its closing quote; with the number of characters taken. A
backslash takes the character after it as it is. -/
def readQuoted (quote : Char) : Text → Option (Text × Nat)
  | [] => none
  | '\\' :: c :: s => (readQuoted quote s).map fun (t, n) => (c :: t, n + 2)
  | c :: s =>
    if c = quote then some ([], 1) else (readQuoted quote s).map fun (t, n) => (c :: t, n + 1)

/-- The token of a word. -/
def wordToken (word : Text) : Token :=
  match String.ofList word with
  | "true" => .literal (.bool true)
  | "false" => .literal (.bool false)
  | "null" => .literal .null
  | "and" => .and
  | "or" => .or
  | "not" => .not
  | _ => .path word

/-- The value of a row of digits and points: an integer if it is one, or else a double. -/
def numberToken? (digits : Text) : Option Token :=
  match Decimal.readInt64? digits with
  | some n => some (.literal (.int n))
  | none => (Decimal.readFloat? digits).map fun f => .literal (.float f)

/-- Reads the token that starts with `c` and may go on in `s`; with the number of characters
taken of `s`. A blank is no token. -/
def readToken (c : Char) (s : Text) : Except ConditionFault (Option Token × Nat) :=
  let next := s.head?
  if isBlank c then .ok (none, 0)
  else if c = '(' then .ok (some .opening, 0)
  else if c = ')' then .ok (some .closing, 0)
  else if c = '&' && next = some '&' then .ok (some .and, 1)
  else if c = '|' && next = some '|' then .ok (some .or, 1)
  else if c = '=' && next = some '=' then .ok (some (.cmp .eq), 1)
  else if c = '!' then if next = some '=' then .ok (some (.cmp .ne), 1) else .ok (some .not, 0)
  else if c = '<' then
    if next = some '=' then .ok (some (.cmp .le), 1) else .ok (some (.cmp .lt), 0)
  else if c = '>' then
    if next = some '=' then .ok (some (.cmp .ge), 1) else .ok (some (.cmp .gt), 0)
  else if c = '"' || c = '\'' then
    match readQuoted c s with
    | some (t, n) => .ok (some (.literal (.str (String.ofList t))), n)
    | none => .error .unterminatedString
  else if isDigit c || (c = '-' && next.any isDigit) then
    let rest := s.takeWhile fun d => isDigit d || d = '.'
    match numberToken? (c :: rest) with
    | some token => .ok (some token, rest.length)
    | none => .error (.invalidNumber (String.ofList (c :: rest)))
  else if isNameStart c then
    let rest := pathRest s
    .ok (some (wordToken (c :: rest)), rest.length)
  else .error (.unexpectedCharacter c)

/-- Reads the tokens of a text after a number of characters that belong to an earlier token. -/
def tokenizeFrom : (skip : Nat) → Text → Except ConditionFault (List Token)
  | _, [] => .ok []
  | skip + 1, _ :: s => tokenizeFrom skip s
  | 0, c :: s =>
    match readToken c s with
    | .error e => .error e
    | .ok (token, more) =>
      match tokenizeFrom more s with
      | .error e => .error e
      | .ok tokens => .ok (token.toList ++ tokens)

/-- Reads the tokens of a condition. -/
def tokenize (s : Text) : Except ConditionFault (List Token) := tokenizeFrom 0 s

end Condition

end Stencil
