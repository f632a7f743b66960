import Stencil.Value.Basic

/-!
# Paths into a context

A path names a value by the keys that lead to it, separated by points or arrows. The two
separators mean the same. A number leads into a list.
-/

namespace Stencil

namespace Path

/-- The parts of a path, as texts. -/
def parts : Text → List Text
  | [] => [[]]
  | '.' :: s => [] :: parts s
  | '-' :: '>' :: s => [] :: parts s
  | c :: s =>
    match parts s with
    | [] => [[c]]
    | part :: rest => (c :: part) :: rest

/-- The segments of a path. There is always at least one. -/
def segments (path : Text) : List String := (parts path).map String.ofList

end Path

/-- One step along a path: a field of an object or an item of a list. -/
def Value.child? : Value → String → Option Value
  | .object fields, segment => Dict.get? fields segment
  | .list items, segment => (Decimal.readUInt64? segment.toList).bind fun i => items[i]?
  | _, _ => none

/-- The value a path leads to; none as soon as a segment is missing. -/
def Context.resolve? (ctx : Context) (path : Text) : Option Value :=
  match Path.segments path with
  | [] => none
  | key :: rest => (ctx.get? key).bind fun v => rest.foldlM Value.child? v

end Stencil
