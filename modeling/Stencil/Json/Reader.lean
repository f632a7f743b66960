import Stencil.Json.Basic

/-!
# Reading JSON

A recursive reader. Nesting is limited, a text must hold exactly one value, and of members with
the same key the first gives the position and the last the value.

A number without fraction and exponent that fits 64 bits is an integer. Any other number is the
double of its leading digits, as many as fit an unsigned 64-bit integer, multiplied or divided
by a power of ten; a number too large for a double is refused. Minus zero is a double.
-/

namespace Stencil.Json

/-- The white space between JSON tokens. -/
def isSpace (c : Char) : Bool := c = ' ' || c = '\n' || c = '\t' || c = '\r'

/-- Drops white space in front of a token. -/
def skip (s : Text) : Text := s.dropWhile isSpace

/-- The value of a hexadecimal digit. -/
def hexValue? (c : Char) : Option Nat :=
  if isDigit c then some (c.toNat - '0'.toNat)
  else if 'a' ≤ c && c ≤ 'f' then some (c.toNat - 'a'.toNat + 10)
  else if 'A' ≤ c && c ≤ 'F' then some (c.toNat - 'A'.toNat + 10)
  else none

/-- The number written by four hexadecimal digits. -/
def hex4? (a b c d : Char) : Option Nat := do
  return ((← hexValue? a) * 16 + (← hexValue? b)) * 256 + (← hexValue? c) * 16 + (← hexValue? d)

/-- The character meant by a letter after a backslash. -/
def simpleEscape? (c : Char) : Option Char :=
  match c with
  | '"' => some '"'
  | '\\' => some '\\'
  | '/' => some '/'
  | 'b' => some '\x08'
  | 'f' => some '\x0c'
  | 'n' => some '\n'
  | 'r' => some '\r'
  | 't' => some '\t'
  | _ => none

/-- Reads a string after its opening quote, up to and including the closing one. Characters
beyond the basic plane may be escaped as a pair of surrogates; a lone surrogate is refused. -/
def readString : Text → Option (Text × Text)
  | [] => none
  | '"' :: s => some ([], s)
  | '\\' :: 'u' :: a :: b :: c :: d :: s =>
    match hex4? a b c d with
    | none => none
    | some n =>
      if 0xD800 ≤ n && n < 0xDC00 then
        match s with
        | '\\' :: 'u' :: e :: f :: g :: h :: s =>
          match hex4? e f g h with
          | none => none
          | some m =>
            if 0xDC00 ≤ m && m < 0xE000 then
              (readString s).map fun (t, rest) =>
                (Char.ofNat (0x10000 + (n - 0xD800) * 0x400 + (m - 0xDC00)) :: t, rest)
            else none
        | _ => none
      else if 0xDC00 ≤ n && n < 0xE000 then none
      else (readString s).map fun (t, rest) => (Char.ofNat n :: t, rest)
  | '\\' :: c :: s =>
    match simpleEscape? c with
    | none => none
    | some e => (readString s).map fun (t, rest) => (e :: t, rest)
  | c :: s =>
    if c.toNat < 0x20 || c = '\\' then none
    else (readString s).map fun (t, rest) => (c :: t, rest)

/-- Appends digits to a number as long as the result fits an unsigned 64-bit integer; with the
number of digits taken. -/
def keepDigits : (n : Nat) → Text → Nat × Nat
  | n, [] => (n, 0)
  | n, c :: s =>
    let m := 10 * n + Decimal.digitValue c
    if m < UInt64.size then
      let (k, count) := keepDigits m s
      (k, count + 1)
    else (n, 0)

/-- A power of ten as a double. -/
def tenTo (e : Nat) : Float := Float.ofScientific 1 false e

/-- Multiplies a double by a power of ten; none if the result is too large. Exponents below the
range of a double are taken in steps. -/
def scale? : (steps : Nat) → Float → Int → Option Float
  | _, f, .ofNat e =>
    if e ≤ 308 then
      let g := f * tenTo e
      if g.isInf then none else some g
    else if f == 0 then some f else none
  | 0, _, .negSucc _ => some 0
  | steps + 1, f, .negSucc e =>
    if e < 308 then some (f / tenTo (e + 1))
    else if f == 0 then some f
    else scale? steps (f / tenTo 308) (.negSucc e + 308)

/-- The double written by the digits before and after the point and by an exponent. -/
def floatOf? (whole fraction : Text) (exponent : Int) : Option Float :=
  let (n, kept) := keepDigits 0 whole
  let (n, places) := keepDigits n fraction
  scale? 3 (Float.ofNat n) ((whole.length - kept : Nat) - (places : Int) + exponent)

/-- Reads the exponent of a number, if there is one. -/
def readExponent (s : Text) : Option (Option Int × Text) :=
  match s with
  | c :: s' =>
    if c = 'e' || c = 'E' then
      let (negative, s') :=
        match s' with
        | '+' :: s' => (false, s')
        | '-' :: s' => (true, s')
        | s' => (false, s')
      let digits := s'.takeWhile isDigit
      let n : Int := Decimal.natOfDigits digits
      if digits.isEmpty then none
      else some (some (if negative then -n else n), s'.dropWhile isDigit)
    else some (none, s)
  | [] => some (none, [])

/-- Reads the fraction of a number, if there is one. -/
def readFraction (s : Text) : Option (Option Text × Text) :=
  match s with
  | '.' :: s =>
    let digits := s.takeWhile isDigit
    if digits.isEmpty then none else some (some digits, s.dropWhile isDigit)
  | s => some (none, s)

/-- A number without fraction and exponent. -/
def ofWhole? (negative : Bool) (whole : Text) : Option Json :=
  let n := Decimal.natOfDigits whole
  if negative then
    if n ≠ 0 && Int64.minValue.toInt ≤ -n then some (.int (-n))
    else (floatOf? whole [] 0).map (.float <| -·)
  else if n < UInt64.size then some (.int n)
  else (floatOf? whole [] 0).map .float

/-- Reads a number. -/
def readNumber (s : Text) : Option (Json × Text) := do
  let (negative, s) :=
    match s with
    | '-' :: s => (true, s)
    | s => (false, s)
  let whole := s.takeWhile isDigit
  if whole.isEmpty || (whole.length > 1 && whole.head? = some '0') then none
  let (fraction, s) ← readFraction (s.dropWhile isDigit)
  let (exponent, s) ← readExponent s
  if fraction.isNone && exponent.isNone then
    return (← ofWhole? negative whole, s)
  let f ← floatOf? whole (fraction.getD []) (exponent.getD 0)
  return (.float (Decimal.signed negative f), s)

mutual

/-- Reads one value. The depth is the number of arrays and objects that may still be opened. -/
def readValue : (fuel depth : Nat) → Text → Option (Json × Text)
  | 0, _, _ => none
  | fuel + 1, depth, s =>
    match skip s with
    | 'n' :: 'u' :: 'l' :: 'l' :: s => some (.null, s)
    | 't' :: 'r' :: 'u' :: 'e' :: s => some (.bool true, s)
    | 'f' :: 'a' :: 'l' :: 's' :: 'e' :: s => some (.bool false, s)
    | '"' :: s => (readString s).map fun (t, rest) => (.str (String.ofList t), rest)
    | '[' :: s =>
      match depth with
      | 0 => none
      | depth + 1 =>
        match skip s with
        | ']' :: s => some (.arr [], s)
        | s => (readItems fuel depth s).map fun (items, rest) => (.arr items, rest)
    | '\x7b' :: s =>
      match depth with
      | 0 => none
      | depth + 1 =>
        match skip s with
        | '\x7d' :: s => some (.obj [], s)
        | s => (readMembers fuel depth s).map fun (ms, rest) => (.obj (Dict.ofEntries ms), rest)
    | s => readNumber s

/-- Reads items up to and including the closing bracket. -/
def readItems : (fuel depth : Nat) → Text → Option (List Json × Text)
  | 0, _, _ => none
  | fuel + 1, depth, s =>
    match readValue fuel depth s with
    | none => none
    | some (v, s) =>
      match skip s with
      | ',' :: s => (readItems fuel depth s).map fun (items, rest) => (v :: items, rest)
      | ']' :: s => some ([v], s)
      | _ => none

/-- Reads members up to and including the closing brace. -/
def readMembers : (fuel depth : Nat) → Text → Option (List (String × Json) × Text)
  | 0, _, _ => none
  | fuel + 1, depth, s =>
    match skip s with
    | '"' :: s =>
      match readString s with
      | none => none
      | some (key, s) =>
        match skip s with
        | ':' :: s =>
          match readValue fuel depth s with
          | none => none
          | some (v, s) =>
            let member := (String.ofList key, v)
            match skip s with
            | ',' :: s => (readMembers fuel depth s).map fun (ms, rest) => (member :: ms, rest)
            | '\x7d' :: s => some ([member], s)
            | _ => none
        | _ => none
    | _ => none

end

/-- The deepest nesting of arrays and objects that is read. -/
def maxDepth : Nat := 127

/-- Reads a text that holds one value. Every call either consumes a character or is the one
before a call that does, so the fuel never runs out. -/
def parse? (s : Text) : Option Json :=
  match readValue (2 * s.length + 2) maxDepth s with
  | some (v, rest) => if (skip rest).isEmpty then some v else none
  | none => none

end Stencil.Json
