import Stencil.Json.Basic
import Stencil.Proofs.Dict
import Mathlib.Logic.Basic

/-!
# Members of objects

An object may be written with a key that comes again. It means the object in which every key comes
once, with the value of its last mention, and so do the objects inside. Two values are the same if
their objects have the same under every key, in whatever order.
-/

namespace Stencil.Json

variable {a b : Json} {members members' : List (String × Json)}

/-! ## What repeated keys mean -/

mutual

/-- The value that is meant by what is written: of the members with one key the last counts. -/
def settled : Json → Json
  | .arr items => .arr (itemsSettled items)
  | .obj members => .obj (Dict.ofEntries (membersSettled members))
  | v => v

/-- The same for every item. -/
def itemsSettled : List Json → List Json
  | [] => []
  | v :: rest => v.settled :: itemsSettled rest

/-- The same for the value of every member. -/
def membersSettled : List (String × Json) → List (String × Json)
  | [] => []
  | (k, v) :: rest => (k, v.settled) :: membersSettled rest

end

theorem membersSettled_eq_map (members : List (String × Json)) :
    membersSettled members = members.map fun x => (x.1, x.2.settled) := by
  induction members with
  | nil => rfl
  | cons x members ih =>
    obtain ⟨k, v⟩ := x
    rw [membersSettled, ih, List.map_cons]

/-- The last mention of a key counts. -/
theorem get?_settled (members : List (String × Json)) (key : String) :
    Dict.get? (Dict.ofEntries (membersSettled members)) key =
      (Dict.get? members.reverse key).map settled := by
  rw [Dict.get?_ofEntries, membersSettled_eq_map, ← List.map_reverse]
  exact Dict.get?_map members.reverse settled key

mutual

/-- No object has a key twice. -/
def KeysOnce : Json → Prop
  | .arr items => ItemsKeysOnce items
  | .obj members => Dict.KeysUnique members ∧ MembersKeysOnce members
  | _ => True

/-- The same for every item. -/
def ItemsKeysOnce : List Json → Prop
  | [] => True
  | v :: rest => v.KeysOnce ∧ ItemsKeysOnce rest

/-- The same for the value of every member. -/
def MembersKeysOnce : List (String × Json) → Prop
  | [] => True
  | (_, v) :: rest => v.KeysOnce ∧ MembersKeysOnce rest

end

theorem itemsKeysOnce_iff {items : List Json} :
    ItemsKeysOnce items ↔ ∀ v ∈ items, v.KeysOnce := by
  induction items with
  | nil => simp [ItemsKeysOnce]
  | cons v items ih => rw [ItemsKeysOnce, ih, List.forall_mem_cons]

theorem membersKeysOnce_iff : MembersKeysOnce members ↔ ∀ x ∈ members, x.2.KeysOnce := by
  induction members with
  | nil => simp [MembersKeysOnce]
  | cons x members ih =>
    obtain ⟨k, v⟩ := x
    rw [MembersKeysOnce, ih, List.forall_mem_cons]

mutual

/-- What is meant has every key once. -/
theorem keysOnce_settled : ∀ v : Json, v.settled.KeysOnce
  | .null | .bool _ | .int _ | .float _ | .str _ => trivial
  | .arr items => itemsKeysOnce_settled items
  | .obj members => by
    refine ⟨Dict.keysUnique_ofEntries _, membersKeysOnce_iff.mpr fun x hx => ?_⟩
    rcases Dict.mem_merge hx with hnil | hx
    · cases hnil
    · exact membersKeysOnce_iff.mp (membersKeysOnce_settled members) x hx

theorem itemsKeysOnce_settled : ∀ items : List Json, ItemsKeysOnce (itemsSettled items)
  | [] => trivial
  | v :: rest => ⟨keysOnce_settled v, itemsKeysOnce_settled rest⟩

theorem membersKeysOnce_settled : ∀ members : List (String × Json),
    MembersKeysOnce (membersSettled members)
  | [] => trivial
  | (_, v) :: rest => ⟨keysOnce_settled v, membersKeysOnce_settled rest⟩

end

mutual

/-- A value without objects. -/
def ObjectFree : Json → Prop
  | .arr items => ItemsObjectFree items
  | .obj _ => False
  | _ => True

/-- Items without objects. -/
def ItemsObjectFree : List Json → Prop
  | [] => True
  | v :: rest => v.ObjectFree ∧ ItemsObjectFree rest

end

mutual

/-- Without objects there is no key that could come again. -/
theorem ObjectFree.settled_eq : ∀ {v : Json}, v.ObjectFree → v.settled = v
  | .null, _ | .bool _, _ | .int _, _ | .float _, _ | .str _, _ => rfl
  | .arr _, h => congrArg Json.arr (ItemsObjectFree.settled_eq h)
  | .obj _, h => h.elim

theorem ItemsObjectFree.settled_eq : ∀ {items : List Json}, ItemsObjectFree items →
    itemsSettled items = items
  | [], _ => rfl
  | _ :: _, h => congrArg₂ List.cons h.1.settled_eq h.2.settled_eq

end

mutual

theorem objectFree_settled : ∀ {v : Json}, v.settled.ObjectFree → v.ObjectFree
  | .null, _ | .bool _, _ | .int _, _ | .float _, _ | .str _, _ => trivial
  | .arr _, h => itemsObjectFree_settled h
  | .obj _, h => h

theorem itemsObjectFree_settled : ∀ {items : List Json}, ItemsObjectFree (itemsSettled items) →
    ItemsObjectFree items
  | [], _ => trivial
  | _ :: _, h => ⟨objectFree_settled h.1, itemsObjectFree_settled h.2⟩

end

/-! ## Equal values -/

mutual

/-- Two values are equal, but for the order of the members of objects. -/
inductive Same : Json → Json → Prop
  | refl (a : Json) : Same a a
  | arr {items items' : List Json} (h : ItemsSame items items') : Same (.arr items) (.arr items')
  | obj {members members' : List (String × Json)}
      (hkeys : ∀ key, (Dict.get? members key).isSome = (Dict.get? members' key).isSome)
      (hvalues : ∀ key v v', Dict.get? members key = some v → Dict.get? members' key = some v' →
        Same v v') : Same (.obj members) (.obj members')

/-- Every item of a list is equal to the item in its place. -/
inductive ItemsSame : List Json → List Json → Prop
  | nil : ItemsSame [] []
  | cons {a b : Json} {items items' : List Json} (h : Same a b) (hrest : ItemsSame items items') :
      ItemsSame (a :: items) (b :: items')

end

mutual

theorem Same.symm : ∀ {a b : Json}, Same a b → Same b a
  | _, _, .refl a => .refl a
  | _, _, .arr h => .arr h.symm
  | _, _, .obj hkeys hvalues =>
    .obj (fun key => (hkeys key).symm) fun key v v' hv hv' => (hvalues key v' v hv' hv).symm

theorem ItemsSame.symm : ∀ {items items' : List Json}, ItemsSame items items' →
    ItemsSame items' items
  | _, _, .nil => .nil
  | _, _, .cons h hrest => .cons h.symm hrest.symm

end

mutual

/-- Without objects, equal values have no order to differ in. -/
theorem Same.eq_of_objectFree : ∀ {a b : Json}, Same a b → a.ObjectFree → a = b
  | _, _, .refl _, _ => rfl
  | _, _, .arr h, ha => congrArg Json.arr (h.eq_of_objectFree ha)
  | _, _, .obj _ _, ha => ha.elim

theorem ItemsSame.eq_of_objectFree : ∀ {items items' : List Json}, ItemsSame items items' →
    ItemsObjectFree items → items = items'
  | _, _, .nil, _ => rfl
  | _, _, .cons h hrest, ha => congrArg₂ List.cons (h.eq_of_objectFree ha.1)
      (hrest.eq_of_objectFree ha.2)

end

end Stencil.Json
