import Stencil.Dict
import Stencil.Decimal.Layout

/-!
# JSON values and their compact text

Objects keep the order of their members. Text is written without any white space; whole doubles
keep a fraction so that they do not read back as integers, and doubles that JSON has no notation
for are written as `null`.
-/

namespace Stencil

/-- A JSON value. Integers lie between the least signed and the greatest unsigned 64-bit one. -/
inductive Json where
  /-- The null value. -/
  | null
  /-- A truth value. -/
  | bool (b : Bool)
  /-- A number written without fraction and exponent. -/
  | int (n : Int)
  /-- Any other number. -/
  | float (f : Float)
  /-- A string. -/
  | str (s : String)
  /-- An array. -/
  | arr (items : List Json)
  /-- An object, its members in order. -/
  | obj (members : List (String × Json))
  deriving Inhabited

namespace Json

/-- A control character as a four-digit escape. -/
def controlEscape (n : Nat) : Text :=
  ['\\', 'u', '0', '0', Nat.digitChar (n / 16), Nat.digitChar (n % 16)]

/-- A character as it stands in a JSON string. -/
def escapeChar (c : Char) : Text :=
  if c = '"' then ['\\', '"']
  else if c = '\\' then ['\\', '\\']
  else if c.toNat < 0x20 then
    if c.toNat = 0x08 then ['\\', 'b']
    else if c.toNat = 0x0C then ['\\', 'f']
    else if c = '\n' then ['\\', 'n']
    else if c = '\r' then ['\\', 'r']
    else if c = '\t' then ['\\', 't']
    else controlEscape c.toNat
  else [c]

/-- A string between quotes. -/
def stringText (s : String) : Text := '"' :: s.toList.flatMap escapeChar ++ ['"']

/-- A double, or `null` if it is not finite. -/
def floatText (f : Float) : Text :=
  if f.isFinite then Decimal.Layout.interchange.floatText f else "null".toList

mutual

/-- The compact text of a value. -/
def text : Json → Text
  | .null => "null".toList
  | .bool true => "true".toList
  | .bool false => "false".toList
  | .int n => Decimal.intText n
  | .float f => floatText f
  | .str s => stringText s
  | .arr items => '[' :: itemsText items ++ [']']
  | .obj members => '\x7b' :: membersText members ++ ['\x7d']

/-- Items separated by commas. -/
def itemsText : List Json → Text
  | [] => []
  | [v] => text v
  | v :: w :: rest => text v ++ ',' :: itemsText (w :: rest)

/-- Members separated by commas. -/
def membersText : List (String × Json) → Text
  | [] => []
  | [(k, v)] => stringText k ++ ':' :: text v
  | (k, v) :: m :: rest => stringText k ++ ':' :: text v ++ ',' :: membersText (m :: rest)

end

end Json

end Stencil
