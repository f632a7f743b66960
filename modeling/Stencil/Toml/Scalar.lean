import Stencil.Calendar.Date
import Stencil.Json.Reader

/-!
# TOML scalars

The parts of TOML that fit on a line or in quotes: blanks and comments, keys, strings, numbers,
truth values and dates. Every reader takes its part off the front of a text and returns it with
the rest.

A scalar is read as the data it stands for. Dates are strings in their standard notation;
infinities and what is not a number have no notation and are null.
-/

namespace Stencil.Toml

/-- White space within a line. -/
def isSpace (c : Char) : Bool := c = ' ' || c = '\t'

/-- A character that may stand in a comment or between single quotes. -/
def isVisible (c : Char) : Bool := c = '\t' || (0x20 ≤ c.toNat && c.toNat ≠ 0x7F)

/-- A character of a key without quotes. -/
def isKeyChar (c : Char) : Bool := isLetter c || isDigit c || c = '_' || c = '-'

/-- Drops white space. -/
def skipSpaces (s : Text) : Text := s.dropWhile isSpace

/-- Drops a line break. -/
def newline? : Text → Option Text
  | '\n' :: s => some s
  | '\r' :: '\n' :: s => some s
  | _ => none

/-- Drops a comment, if there is one. -/
def skipComment : Text → Text
  | '#' :: s => s.dropWhile isVisible
  | s => s

/-- Drops what may stand behind a statement: spaces, a comment, and the end of the line. -/
def lineEnd? (s : Text) : Option Text :=
  match skipComment (skipSpaces s) with
  | [] => some []
  | s => newline? s

/-- Drops spaces, line breaks and comments. -/
def skipLines : (inComment : Bool) → Text → Text
  | _, [] => []
  | true, c :: s =>
    if c = '\n' || (c = '\r' && s.head? = some '\n') then skipLines false s
    else if isVisible c then skipLines true s
    else c :: s
  | false, c :: s =>
    if isSpace c || c = '\n' || (c = '\r' && s.head? = some '\n') then skipLines false s
    else if c = '#' then skipLines true s
    else c :: s

/-- The character written by some hexadecimal digits. -/
def charOfHex? (digits : Text) : Option Char := do
  let n ← digits.foldlM (fun n c => (Json.hexValue? c).map (16 * n + ·)) 0
  if h : n.isValidChar then some (Char.ofNatAux n h) else none

/-- The character meant by an escape, with the number of characters behind the backslash. -/
def escape? : Text → Option (Char × Nat)
  | 'b' :: _ => some ('\x08', 1)
  | 't' :: _ => some ('\t', 1)
  | 'n' :: _ => some ('\n', 1)
  | 'f' :: _ => some ('\x0c', 1)
  | 'r' :: _ => some ('\r', 1)
  | '"' :: _ => some ('"', 1)
  | '\\' :: _ => some ('\\', 1)
  | 'u' :: s => if s.length < 4 then none else (charOfHex? (s.take 4)).map (·, 5)
  | 'U' :: s => if s.length < 8 then none else (charOfHex? (s.take 8)).map (·, 9)
  | _ => none

/-- Reads the rest of a string in double quotes, whose first `skip` characters are taken. -/
def basicRest : (skip : Nat) → Text → Option (Text × Text)
  | _, [] => none
  | skip + 1, _ :: s => basicRest skip s
  | 0, c :: s =>
    if c = '"' then some ([], s)
    else if c = '\\' then
      match escape? s with
      | some (e, taken) => (basicRest taken s).map fun (t, rest) => (e :: t, rest)
      | none => none
    else if isVisible c then (basicRest 0 s).map fun (t, rest) => (c :: t, rest)
    else none

/-- Reads the rest of a string in single quotes. -/
def literalRest (s : Text) : Option (Text × Text) :=
  let content := s.takeWhile fun c => isVisible c && c ≠ '\''
  match s.drop content.length with
  | '\'' :: rest => some (content, rest)
  | _ => none

/-- Drops spaces and line breaks. -/
def skipBlankLines : Text → Text
  | [] => []
  | c :: s =>
    if isSpace c || c = '\n' || (c = '\r' && s.head? = some '\n') then skipBlankLines s
    else c :: s

/-- The number of characters of a line break behind a backslash, with all blanks around it. -/
def foldedLength? (s : Text) : Option Nat :=
  match newline? (skipSpaces s) with
  | none => none
  | some rest => some (s.length - (skipBlankLines rest).length)

/-- Reads the rest of a string in three quotes, whose first `skip` characters are taken. One or
two quotes may stand in it, also in front of the closing ones. -/
def multilineRest (quote : Char) (escapes : Bool) : (skip : Nat) → Text → Option (Text × Text)
  | _, [] => none
  | skip + 1, _ :: s => multilineRest quote escapes skip s
  | 0, c :: s =>
    if c = quote then
      let run := (s.takeWhile (· = quote)).length + 1
      if 3 ≤ run then
        let extra := min (run - 3) 2
        some (List.replicate extra quote, s.drop (extra + 2))
      else (multilineRest quote escapes 0 s).map fun (t, rest) => (c :: t, rest)
    else if c = '\\' && escapes then
      match foldedLength? s with
      | some taken => multilineRest quote escapes taken s
      | none =>
        match escape? s with
        | some (e, taken) =>
          (multilineRest quote escapes taken s).map fun (t, rest) => (e :: t, rest)
        | none => none
    else if c = '\r' && s.head? = some '\n' then multilineRest quote escapes 0 s
    else if isVisible c || c = '\n' then
      (multilineRest quote escapes 0 s).map fun (t, rest) => (c :: t, rest)
    else none

/-- Reads a string. -/
def readString : Text → Option (Text × Text)
  | '"' :: '"' :: '"' :: s => multilineRest '"' true 0 ((newline? s).getD s)
  | '"' :: s => basicRest 0 s
  | '\'' :: '\'' :: '\'' :: s => multilineRest '\'' false 0 ((newline? s).getD s)
  | '\'' :: s => literalRest s
  | _ => none

/-- Reads one part of a key. -/
def readKeyPart : Text → Option (String × Text)
  | '"' :: s => (basicRest 0 s).map fun (t, rest) => (String.ofList t, rest)
  | '\'' :: s => (literalRest s).map fun (t, rest) => (String.ofList t, rest)
  | s =>
    let part := s.takeWhile isKeyChar
    if part.isEmpty then none else some (String.ofList part, s.drop part.length)

/-- The least number of parts that a key cannot have. -/
def keyLimit : Nat := 80

/-- Reads a key: parts separated by points, with spaces around them. -/
def readKeyParts : (fuel : Nat) → Text → Option (List String × Text)
  | 0, _ => none
  | fuel + 1, s =>
    match readKeyPart (skipSpaces s) with
    | none => none
    | some (part, rest) =>
      match skipSpaces rest with
      | '.' :: rest => (readKeyParts fuel rest).map fun (parts, rest) => (part :: parts, rest)
      | rest => some ([part], rest)

/-- Reads a key of a size that is allowed. -/
def readKey (s : Text) : Option (List String × Text) := readKeyParts (keyLimit - 1) s

/-- Reads digits, of which single underscores may stand between two, without the underscores. -/
def readDigits (isDigit : Char → Bool) : Text → Option (Text × Text)
  | [] => none
  | c :: s =>
    if !isDigit c then none
    else
      match s with
      | '_' :: s => (readDigits isDigit s).map fun (digits, rest) => (c :: digits, rest)
      | s =>
        match readDigits isDigit s with
        | some (digits, rest) => some (c :: digits, rest)
        | none => some ([c], s)

/-- The integer written by digits of a base, if it fits 64 bits with its sign. -/
def integer? (negative : Bool) (base : Nat) (digits : Text) : Option Json := do
  let n ← digits.foldlM (fun n c => (Json.hexValue? c).map (base * n + ·)) 0
  let n : Int := if negative then -n else n
  if (Decimal.toInt64? n).isSome then some (.int n) else none

/-- Reads an integer of another base behind its mark. -/
def readBased (base : Nat) (s : Text) : Option (Json × Text) := do
  let isBaseDigit (c : Char) : Bool :=
    match Json.hexValue? c with
    | some n => n < base
    | none => false
  let (digits, rest) ← readDigits isBaseDigit s
  return (← integer? false base digits, rest)

/-- A double as data. A number too large for a double is refused, unless it is negative. -/
def float? (text : Text) : Option Json := do
  let f ← Decimal.readFloat? text
  if f.isInf && 0 < f then none
  else if f.isFinite then some (.float f)
  else some .null

/-- Reads the sign of a number. -/
def readSign : Text → Text × Text
  | '+' :: s => (['+'], s)
  | '-' :: s => (['-'], s)
  | s => ([], s)

/-- Reads the exponent of a number behind its letter. -/
def readExponent (s : Text) : Option (Text × Text) := do
  let (sign, s) := readSign s
  let (digits, rest) ← readDigits isDigit s
  return ('e' :: sign ++ digits, rest)

/-- Reads a decimal number. Its integral part has no leading zero. -/
def readDecimal (s : Text) : Option (Json × Text) := do
  let (sign, s) := readSign s
  let (whole, rest) ←
    match s with
    | '0' :: rest => some (['0'], rest)
    | s => readDigits isDigit s
  match rest with
  | '.' :: rest =>
    let (fraction, rest) ← readDigits isDigit rest
    let (exponent, rest) ←
      match rest with
      | 'e' :: rest => readExponent rest
      | 'E' :: rest => readExponent rest
      | rest => some ([], rest)
    return (← float? (sign ++ whole ++ '.' :: fraction ++ exponent), rest)
  | 'e' :: rest =>
    let (exponent, rest) ← readExponent rest
    return (← float? (sign ++ whole ++ exponent), rest)
  | 'E' :: rest =>
    let (exponent, rest) ← readExponent rest
    return (← float? (sign ++ whole ++ exponent), rest)
  | rest => return (← integer? (sign = ['-']) 10 whole, rest)

/-- Reads a number. -/
def readNumber (s : Text) : Option (Json × Text) :=
  match s with
  | '0' :: 'x' :: s => readBased 16 s
  | '0' :: 'o' :: s => readBased 8 s
  | '0' :: 'b' :: s => readBased 2 s
  | s =>
    match (readSign s).2 with
    | 'i' :: 'n' :: 'f' :: rest => some (.null, rest)
    | 'n' :: 'a' :: 'n' :: rest => some (.null, rest)
    | _ => readDecimal s

/-- Reads a number with a fixed count of digits and at most a bound. -/
def readField (count bound : Nat) (s : Text) : Option (Nat × Text) :=
  let digits := s.take count
  if digits.length < count then none
  else (Decimal.readNat? digits).bind fun n => if n ≤ bound then some (n, s.drop count) else none

/-- Reads a clock time in its standard notation, without zeros at the end of its fraction. -/
def readTime (s : Text) : Option (Text × Text) := do
  let (hour, s) ← readField 2 23 s
  let s ← s.dropPrefix? [':']
  let (minute, s) ← readField 2 59 s
  let s ← s.dropPrefix? [':']
  let (second, s) ← readField 2 60 s
  let clock := Decimal.padded 2 hour ++ ':' :: Decimal.padded 2 minute ++
    ':' :: Decimal.padded 2 second
  match s with
  | '.' :: rest =>
    let digits := rest.takeWhile isDigit
    if digits.isEmpty then none
    else
      let fraction := ((digits.take 9).reverse.dropWhile (· = '0')).reverse
      some (clock ++ (if fraction.isEmpty then [] else '.' :: fraction), rest.drop digits.length)
  | s => some (clock, s)

/-- Reads an offset from universal time. -/
def readOffset : Text → Option (Text × Text)
  | 'Z' :: s => some (['Z'], s)
  | 'z' :: s => some (['Z'], s)
  | c :: s =>
    if c = '+' || c = '-' then do
      let (hour, s) ← readField 2 23 s
      let s ← s.dropPrefix? [':']
      let (minute, s) ← readField 2 59 s
      let sign := if hour = 0 && minute = 0 then '+' else c
      return (sign :: Decimal.padded 2 hour ++ ':' :: Decimal.padded 2 minute, s)
    else none
  | [] => none

/-- Reads a date. -/
def readDate (s : Text) : Option (Text × Text) := do
  let (year, s) ← readField 4 9999 s
  let s ← s.dropPrefix? ['-']
  let (month, s) ← readField 2 12 s
  let s ← s.dropPrefix? ['-']
  let (day, s) ← readField 2 31 s
  if 1 ≤ month && 1 ≤ day && day ≤ Calendar.daysInMonth year month then
    return (Decimal.padded 4 year ++ '-' :: Decimal.padded 2 month ++
      '-' :: Decimal.padded 2 day, s)
  else none

/-- Reads a date, a clock time, or both with an offset or without. -/
def readDateTime (s : Text) : Option (Text × Text) :=
  match readDate s with
  | none => readTime s
  | some (date, rest) =>
    match rest with
    | c :: behind =>
      if c = 'T' || c = 't' || c = ' ' then
        match readTime behind with
        | some (time, behind) =>
          match readOffset behind with
          | some (offset, behind) => some (date ++ 'T' :: time ++ offset, behind)
          | none => some (date ++ 'T' :: time, behind)
        | none => some (date, rest)
      else some (date, rest)
    | [] => some (date, rest)

/-- Reads a scalar. -/
def readScalar (s : Text) : Option (Json × Text) :=
  match s with
  | '"' :: _ => (readString s).map fun (t, rest) => (.str (String.ofList t), rest)
  | '\'' :: _ => (readString s).map fun (t, rest) => (.str (String.ofList t), rest)
  | 't' :: 'r' :: 'u' :: 'e' :: rest => some (.bool true, rest)
  | 'f' :: 'a' :: 'l' :: 's' :: 'e' :: rest => some (.bool false, rest)
  | s =>
    match readDateTime s with
    | some (t, rest) => some (.str (String.ofList t), rest)
    | none => readNumber s

end Stencil.Toml
