import Stencil.Value.Context

/-!
# What stands in a value

Numbers that a value mentions, and keys that its objects have, at any depth.
-/

namespace Stencil

namespace Value

/-- The number stands in a value, at any depth. -/
inductive Mentions (f : Float) : Value → Prop where
  /-- The value is the number. -/
  | self : Mentions f (.float f)
  /-- It stands in an item of a list. -/
  | item {items : List Value} {v : Value} (hmem : v ∈ items) (inner : Mentions f v) :
    Mentions f (.list items)
  /-- It stands in a field of an object. -/
  | field {fields : List (String × Value)} {x : String × Value} (hmem : x ∈ fields)
    (inner : Mentions f x.2) : Mentions f (.object fields)

theorem mentions_list {f : Float} {items : List Value} :
    Mentions f (.list items) ↔ ∃ v ∈ items, Mentions f v := by
  refine ⟨fun h => ?_, fun ⟨v, hmem, inner⟩ => .item hmem inner⟩
  cases h with
  | item hmem inner => exact ⟨_, hmem, inner⟩

theorem mentions_object {f : Float} {fields : List (String × Value)} :
    Mentions f (.object fields) ↔ ∃ x ∈ fields, Mentions f x.2 := by
  refine ⟨fun h => ?_, fun ⟨x, hmem, inner⟩ => .field hmem inner⟩
  cases h with
  | field hmem inner => exact ⟨_, hmem, inner⟩

mutual

/-- No object in the value has a key twice. -/
def KeysOnce : Value → Prop
  | .list items => ItemsKeysOnce items
  | .object fields => Dict.KeysUnique fields ∧ FieldsKeysOnce fields
  | _ => True

/-- The same for every item. -/
def ItemsKeysOnce : List Value → Prop
  | [] => True
  | v :: rest => v.KeysOnce ∧ ItemsKeysOnce rest

/-- The same for every field. -/
def FieldsKeysOnce : List (String × Value) → Prop
  | [] => True
  | (_, v) :: rest => v.KeysOnce ∧ FieldsKeysOnce rest

end

end Value

namespace Context

/-- The number stands in a context, at any depth. -/
def Mentions (f : Float) (ctx : Context) : Prop := ∃ x ∈ ctx, x.2.Mentions f

/-- Neither the context nor an object in it has a key twice. -/
def KeysOnce (ctx : Context) : Prop := (Value.object ctx).KeysOnce

end Context

end Stencil
