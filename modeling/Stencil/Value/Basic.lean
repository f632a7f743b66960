import Stencil.Json.Basic

/-!
# Values

What a template can be given: null, truth values, 64-bit integers, doubles, strings, lists and
objects. A context is an ordered dictionary of values, and so are the fields of an object.

A value has a text, which is what a tag is replaced by, and a truth, which decides conditions.
-/

namespace Stencil

/-- A value in a rendering context. -/
inductive Value where
  /-- The absence of a value. -/
  | null
  /-- A truth value. -/
  | bool (b : Bool)
  /-- An integer. -/
  | int (n : Int64)
  /-- A double. -/
  | float (f : Float)
  /-- A string. -/
  | str (s : String)
  /-- A list. -/
  | list (items : List Value)
  /-- An object, its fields in order. -/
  | object (fields : List (String × Value))
  deriving Inhabited

/-- What a template is rendered against: values by name. -/
abbrev Context := Dict Value

namespace Value

mutual

/-- The value in the data notation. -/
def toJson : Value → Json
  | .null => .null
  | .bool b => .bool b
  | .int n => .int n.toInt
  | .float f => .float f
  | .str s => .str s
  | .list items => .arr (itemsToJson items)
  | .object fields => .obj (fieldsToJson fields)

/-- The items of a list in the data notation. -/
def itemsToJson : List Value → List Json
  | [] => []
  | v :: rest => toJson v :: itemsToJson rest

/-- The fields of an object in the data notation. -/
def fieldsToJson : List (String × Value) → List (String × Json)
  | [] => []
  | (k, v) :: rest => (k, toJson v) :: fieldsToJson rest

end

mutual

/-- The value of a piece of data. Integers beyond 64 bits with sign become doubles. -/
def ofJson : Json → Value
  | .null => .null
  | .bool b => .bool b
  | .int n =>
    match Decimal.toInt64? n with
    | some k => .int k
    | none => .float (Float.ofInt n)
  | .float f => .float f
  | .str s => .str s
  | .arr items => .list (itemsOfJson items)
  | .obj members => .object (fieldsOfJson members)

/-- The items of an array as values. -/
def itemsOfJson : List Json → List Value
  | [] => []
  | v :: rest => ofJson v :: itemsOfJson rest

/-- The members of an object as fields. -/
def fieldsOfJson : List (String × Json) → List (String × Value)
  | [] => []
  | (k, v) :: rest => (k, ofJson v) :: fieldsOfJson rest

end

/-- Whether the value can stand in running text. -/
def isScalar : Value → Bool
  | .list _ => false
  | .object _ => false
  | _ => true

/-- The text of a value. Null has none; lists and objects are written as data. -/
def text : Value → Text
  | .null => []
  | .bool true => "true".toList
  | .bool false => "false".toList
  | .int n => Decimal.intText n.toInt
  | .float f => Decimal.Layout.plain.floatText f
  | .str s => s.toList
  | v => v.toJson.text

/-- The text of a value as a string. -/
def display (v : Value) : String := String.ofList v.text

/-- The number a text stands for: digits, points, exponents and minus signs within blanks, but
no leading plus sign and no named number. -/
def numberOfText? (s : Text) : Option Float :=
  let s := s.trim
  if s.head? = some '+' then none
  else if s.all fun c => isDigit c || c = '.' || c = '-' || c = 'e' || c = 'E' || c = '+' then
    Decimal.readFloat? s
  else none

/-- The value as a number; text that looks like a number counts. -/
def number? : Value → Option Float
  | .int n => some (Float.ofInt n.toInt)
  | .float f => some f
  | .str s => numberOfText? s.toList
  | _ => none

/-- Whether the value counts as empty: null, false, zero, the texts without a character and
with a single zero, and lists and objects without an entry. -/
def isEmpty : Value → Bool
  | .null => true
  | .bool b => !b
  | .int n => n == 0
  | .float f => f == 0.0
  | .str s => s = "" || s = "0"
  | .list items => items.isEmpty
  | .object fields => fields.isEmpty

/-- Whether a condition takes the value for true. -/
def isTruthy (v : Value) : Bool := !v.isEmpty

end Value

end Stencil
