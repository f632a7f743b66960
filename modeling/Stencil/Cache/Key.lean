import Stencil.Error
import Stencil.Sha256
import Stencil.Value.Context

/-!
# Cache keys

What a render gives depends on the name of the template and on the context. Its cache key is the
digest of both: the name, a zero byte, and the context as data. Data has no notation for
infinities and for what is not a number, so a context that holds one has no key.
-/

namespace Stencil

namespace Value

mutual

/-- The first number without a notation in a value at a path, with the path to it. -/
def nonFinite? (path : Text) : Value → Option (Text × Float)
  | .float f => if f.isFinite then none else some (path, f)
  | .list items => nonFiniteItem? path 0 items
  | .object fields => nonFiniteField? path fields
  | _ => none

/-- The first number without a notation in the items of a list. -/
def nonFiniteItem? (path : Text) (index : Nat) : List Value → Option (Text × Float)
  | [] => none
  | v :: rest =>
    match nonFinite? (path ++ '.' :: Decimal.natText index) v with
    | some found => some found
    | none => nonFiniteItem? path (index + 1) rest

/-- The first number without a notation in the fields of an object. -/
def nonFiniteField? (path : Text) : List (String × Value) → Option (Text × Float)
  | [] => none
  | (k, v) :: rest =>
    match nonFinite? (path ++ '.' :: k.toList) v with
    | some found => some found
    | none => nonFiniteField? path rest

end

end Value

/-- The first number without a notation in a context, with the path to it. -/
def Context.nonFinite? (ctx : Context) : Option (Text × Float) :=
  ctx.findSome? fun (k, v) => v.nonFinite? k.toList

namespace Cache

/-- What is digested into a cache key. -/
def payload (name : String) (ctx : Context) : Text := name.toList ++ Char.ofNat 0 :: ctx.text

/-- The key under which a render is cached. -/
def key? (name : String) (ctx : Context) : Except Error String :=
  match ctx.nonFinite? with
  | some (path, f) =>
    .error (.nonFiniteNumber (String.ofList path)
      (String.ofList (Decimal.Layout.plain.floatText f)))
  | none => .ok (Sha256.hexDigest (String.ofList (payload name ctx)).toUTF8.toList)

end Cache

end Stencil
