import Stencil.Proofs.Json.RoundTrip
import Stencil.Proofs.Value.Nesting

/-!
# Contexts read back

A context that is written as data and read again is the same: keys in their order, integers and
strings exactly, and every value of its kind. Only doubles are left out, which the reader of data
rounds in two steps, and nesting that is deeper than the reader goes.
-/

namespace Stencil

namespace Value

mutual

/-- Data of a value is taken for the value again. -/
theorem ofJson_toJson : ∀ v : Value, ofJson v.toJson = v
  | .list items => congrArg Value.list (itemsOfJson_itemsToJson items)
  | .object fields => congrArg Value.object (fieldsOfJson_fieldsToJson fields)
  | .int n => by
    rw [toJson, ofJson, Decimal.toInt64?, if_pos ⟨Int64.minValue_le_toInt n, Int64.toInt_le n⟩]
    simp
  | .null => rfl
  | .bool _ => rfl
  | .float _ => rfl
  | .str _ => rfl

theorem itemsOfJson_itemsToJson : ∀ items : List Value, itemsOfJson (itemsToJson items) = items
  | [] => rfl
  | v :: rest => by
    rw [itemsToJson, itemsOfJson, ofJson_toJson v, itemsOfJson_itemsToJson rest]

theorem fieldsOfJson_fieldsToJson : ∀ fields : List (String × Value),
    fieldsOfJson (fieldsToJson fields) = fields
  | [] => rfl
  | (k, v) :: rest => by
    rw [fieldsToJson, fieldsOfJson, ofJson_toJson v, fieldsOfJson_fieldsToJson rest]

end

theorem keys_fieldsToJson (fields : List (String × Value)) :
    Dict.keys (fieldsToJson fields) = Dict.keys fields := by
  induction fields with
  | nil => rfl
  | cons x fields ih => exact congrArg (x.1 :: ·) ih

mutual

/-- What reading gives back holds no double and no key twice. -/
theorem exact_toJson : ∀ (v : Value), v.KeysOnce → (∀ f, ¬ v.Mentions f) → v.toJson.Exact
  | .list items, h, hfloat =>
    itemsExact_itemsToJson items h fun v hv f hf => hfloat f (.item hv hf)
  | .object fields, h, hfloat => by
    refine ⟨?_, membersExact_fieldsToJson fields h.2 fun x hx f hf => hfloat f (.field hx hf)⟩
    unfold Dict.KeysUnique
    rw [keys_fieldsToJson]
    exact h.1
  | .int n, _, _ => by
    have hlow := Int64.minValue_le_toInt n
    have hhigh := Int64.toInt_lt n
    have hsize : UInt64.size = 2 ^ 64 := rfl
    exact ⟨hlow, by omega⟩
  | .float f, _, hfloat => absurd .self (hfloat f)
  | .null, _, _ => trivial
  | .bool _, _, _ => trivial
  | .str _, _, _ => trivial

theorem itemsExact_itemsToJson : ∀ (items : List Value), ItemsKeysOnce items →
    (∀ v ∈ items, ∀ f, ¬ v.Mentions f) → Json.ItemsExact (itemsToJson items)
  | [], _, _ => trivial
  | v :: rest, h, hfloat =>
    ⟨exact_toJson v h.1 (hfloat v List.mem_cons_self),
      itemsExact_itemsToJson rest h.2 fun w hw => hfloat w (List.mem_cons_of_mem v hw)⟩

theorem membersExact_fieldsToJson : ∀ (fields : List (String × Value)), FieldsKeysOnce fields →
    (∀ x ∈ fields, ∀ f, ¬ x.2.Mentions f) → Json.MembersExact (fieldsToJson fields)
  | [], _, _ => trivial
  | (k, v) :: rest, h, hfloat =>
    ⟨exact_toJson v h.1 (hfloat (k, v) List.mem_cons_self),
      membersExact_fieldsToJson rest h.2 fun x hx => hfloat x (List.mem_cons_of_mem (k, v) hx)⟩

end

end Value

namespace Context

/-- **A context reads back from its text.** It may be nested as deep as the reader goes, and only
doubles may not stand in it. -/
theorem parse_text {ctx : Context} (hkeys : ctx.KeysOnce) (hfloat : ∀ f, ¬ ctx.Mentions f)
    (hdepth : ctx.toJson.depth ≤ Json.maxDepth) : parse ctx.text = .ok ctx := by
  have hexact : ctx.toJson.Exact :=
    Value.exact_toJson (.object ctx) hkeys fun f hf => hfloat f (Value.mentions_object.mp hf)
  have hread : Json.parse? ctx.text = some ctx.toJson := Json.parse?_text hexact hdepth
  rw [parse, hread]
  exact congrArg Except.ok (Value.fieldsOfJson_fieldsToJson ctx)

/-- A ledger with the least integer, characters that are escaped, and every kind of value. -/
def ledger : Context :=
  [("z \"\\\n\x00", .int Int64.minValue),
   ("a", .list [.null, .bool true, .object [("é", .str "\t\x1f/😀"), ("", .int 7)], .list []]),
   ("m", .object [])]

theorem parse_text_ledger :
    ledger.KeysOnce ∧ (∀ f, ¬ ledger.Mentions f) ∧ ledger.toJson.depth ≤ Json.maxDepth ∧
      parse ledger.text = .ok ledger := by
  have hkeys : ledger.KeysOnce := by
    simp [ledger, KeysOnce, Value.KeysOnce, Value.ItemsKeysOnce, Value.FieldsKeysOnce,
      Dict.KeysUnique, Dict.keys]
  have hfloat : ∀ f, ¬ ledger.Mentions f := by
    rintro f ⟨x, hx, h⟩
    simp only [ledger, List.mem_cons, List.not_mem_nil, or_false] at hx
    rcases hx with rfl | rfl | rfl
    · cases h
    · simp only [Value.mentions_list, Value.mentions_object, List.exists_mem_cons_iff,
        List.not_mem_nil, false_and, exists_false, or_false] at h
      rcases h with h | h | h | h <;> cases h
    · simp [Value.mentions_object] at h
  have hdepth : ledger.toJson.depth ≤ Json.maxDepth := by decide
  exact ⟨hkeys, hfloat, hdepth, parse_text hkeys hfloat hdepth⟩

end Context

end Stencil
