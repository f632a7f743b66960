import Stencil.Value.Basic

/-!
# HTML escaping

The five characters with a meaning in HTML become entities. The ampersand goes first, so that
the ampersands of the other entities stay as they are. Escaping a context escapes every string
in it, at any depth, and leaves its keys alone.
-/

namespace Stencil

/-- Escapes the characters with a meaning in HTML. -/
def escapeHtml (s : Text) : Text :=
  s.replace ['&'] "&amp;".toList
    |>.replace ['<'] "&lt;".toList
    |>.replace ['>'] "&gt;".toList
    |>.replace ['"'] "&quot;".toList
    |>.replace ['\''] "&#039;".toList

/-- A character or the entity that stands for it. -/
def htmlEntity (c : Char) : Text :=
  if c = '&' then "&amp;".toList
  else if c = '<' then "&lt;".toList
  else if c = '>' then "&gt;".toList
  else if c = '"' then "&quot;".toList
  else if c = '\'' then "&#039;".toList
  else [c]

namespace Value

mutual

/-- Escapes every string in a value. -/
def escaped : Value → Value
  | .str s => .str (String.ofList (escapeHtml s.toList))
  | .list items => .list (escapedItems items)
  | .object fields => .object (escapedFields fields)
  | v => v

/-- Escapes every string in a list of values. -/
def escapedItems : List Value → List Value
  | [] => []
  | v :: rest => escaped v :: escapedItems rest

/-- Escapes every string under a list of keys. -/
def escapedFields : List (String × Value) → List (String × Value)
  | [] => []
  | (k, v) :: rest => (k, escaped v) :: escapedFields rest

end

end Value

/-- Escapes every string in a context. -/
def Context.escaped (ctx : Context) : Context := Value.escapedFields ctx

end Stencil
