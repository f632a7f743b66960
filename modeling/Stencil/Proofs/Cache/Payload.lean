import Stencil.Cache.Key
import Stencil.Proofs.Json.Text

/-!
# What a cache key is made of

The text that a cache key digests tells names and contexts apart, whatever characters a name is
made of: the context has no zero character, so the last one in the text ends the name. What is
left to trust is the digest.
-/

namespace Stencil

namespace Value

mutual

/-- A value is known by what it is written as. -/
theorem toJson_inj : ∀ (v w : Value), v.toJson = w.toJson → v = w
  | .list items, w, h => by
    cases w with
    | list others => rw [itemsToJson_inj items others (Json.arr.inj h)]
    | _ => cases h
  | .object fields, w, h => by
    cases w with
    | object others => rw [fieldsToJson_inj fields others (Json.obj.inj h)]
    | _ => cases h
  | .null, w, h => by
    cases w with
    | null => rfl
    | _ => cases h
  | .bool b, w, h => by
    cases w with
    | bool c => rw [Json.bool.inj h]
    | _ => cases h
  | .int n, w, h => by
    cases w with
    | int m => rw [Int64.toInt_inj.mp (Json.int.inj h)]
    | _ => cases h
  | .float f, w, h => by
    cases w with
    | float g => rw [Json.float.inj h]
    | _ => cases h
  | .str s, w, h => by
    cases w with
    | str t => rw [Json.str.inj h]
    | _ => cases h

theorem itemsToJson_inj : ∀ (xs ys : List Value), itemsToJson xs = itemsToJson ys → xs = ys
  | [], [], _ => rfl
  | [], _ :: _, h => nomatch h
  | _ :: _, [], h => nomatch h
  | v :: xs, w :: ys, h => by
    obtain ⟨hv, hxs⟩ := List.cons.inj h
    rw [toJson_inj v w hv, itemsToJson_inj xs ys hxs]

theorem fieldsToJson_inj : ∀ (xs ys : List (String × Value)),
    fieldsToJson xs = fieldsToJson ys → xs = ys
  | [], [], _ => rfl
  | [], _ :: _, h => nomatch h
  | _ :: _, [], h => nomatch h
  | (k, v) :: xs, (l, w) :: ys, h => by
    obtain ⟨hm, hxs⟩ := List.cons.inj h
    obtain ⟨rfl, hv⟩ := Prod.mk.inj hm
    rw [toJson_inj v w hv, fieldsToJson_inj xs ys hxs]

end

mutual

/-- Where a search for numbers without a notation finds none, all numbers are finite. -/
theorem nonFinite?_eq_none : ∀ (v : Value) (path : Text),
    v.nonFinite? path = none ↔ v.toJson.isFinite = true
  | .float f, path => by
    rw [nonFinite?]
    change _ ↔ f.isFinite = true
    split <;> simp_all
  | .list items, path => nonFiniteItem?_eq_none items path 0
  | .object fields, path => nonFiniteField?_eq_none fields path
  | .null, _ => ⟨fun _ => rfl, fun _ => rfl⟩
  | .bool _, _ => ⟨fun _ => rfl, fun _ => rfl⟩
  | .int _, _ => ⟨fun _ => rfl, fun _ => rfl⟩
  | .str _, _ => ⟨fun _ => rfl, fun _ => rfl⟩

theorem nonFiniteItem?_eq_none : ∀ (items : List Value) (path : Text) (index : Nat),
    nonFiniteItem? path index items = none ↔ Json.itemsFinite (itemsToJson items) = true
  | [], _, _ => ⟨fun _ => rfl, fun _ => rfl⟩
  | v :: rest, path, index => by
    have hv := nonFinite?_eq_none v (path ++ '.' :: Decimal.natText index)
    have hrest := nonFiniteItem?_eq_none rest path (index + 1)
    rw [nonFiniteItem?, itemsToJson, Json.itemsFinite, Bool.and_eq_true, ← hv, ← hrest]
    split <;> simp_all

theorem nonFiniteField?_eq_none : ∀ (fields : List (String × Value)) (path : Text),
    nonFiniteField? path fields = none ↔ Json.membersFinite (fieldsToJson fields) = true
  | [], _ => ⟨fun _ => rfl, fun _ => rfl⟩
  | (k, v) :: rest, path => by
    have hv := nonFinite?_eq_none v (path ++ '.' :: k.toList)
    have hrest := nonFiniteField?_eq_none rest path
    rw [nonFiniteField?, fieldsToJson, Json.membersFinite, Bool.and_eq_true, ← hv, ← hrest]
    split <;> simp_all

end

theorem membersFinite_fieldsToJson {fields : List (String × Value)} :
    Json.membersFinite (fieldsToJson fields) = true ↔
      ∀ x ∈ fields, x.2.toJson.isFinite = true := by
  induction fields with
  | nil => simp [fieldsToJson, Json.membersFinite]
  | cons x fields ih =>
    rw [fieldsToJson, Json.membersFinite, Bool.and_eq_true, ih, List.forall_mem_cons]

mutual

theorem isFinite_escaped : ∀ v : Value, v.escaped.toJson.isFinite = v.toJson.isFinite
  | .list items => isFinite_escapedItems items
  | .object fields => isFinite_escapedFields fields
  | .null => rfl
  | .bool _ => rfl
  | .int _ => rfl
  | .float _ => rfl
  | .str _ => rfl

theorem isFinite_escapedItems : ∀ items : List Value,
    Json.itemsFinite (itemsToJson (escapedItems items)) = Json.itemsFinite (itemsToJson items)
  | [] => rfl
  | v :: rest => by
    simp only [escapedItems, itemsToJson, Json.itemsFinite, isFinite_escaped v,
      isFinite_escapedItems rest]

theorem isFinite_escapedFields : ∀ fields : List (String × Value),
    Json.membersFinite (fieldsToJson (escapedFields fields)) =
      Json.membersFinite (fieldsToJson fields)
  | [] => rfl
  | (k, v) :: rest => by
    simp only [escapedFields, fieldsToJson, Json.membersFinite, isFinite_escaped v,
      isFinite_escapedFields rest]

end

end Value

namespace Context

theorem nonFinite?_eq_none_iff_forall {ctx : Context} :
    ctx.nonFinite? = none ↔ ∀ x ∈ ctx, x.2.toJson.isFinite = true := by
  rw [Context.nonFinite?, List.findSome?_eq_none_iff]
  exact forall₂_congr fun x _ => Value.nonFinite?_eq_none x.2 x.1.toList

theorem nonFinite?_eq_none {ctx : Context} :
    ctx.nonFinite? = none ↔ ctx.toJson.isFinite = true :=
  nonFinite?_eq_none_iff_forall.trans Value.membersFinite_fieldsToJson.symm

/-- Escaping strings changes no number. -/
theorem nonFinite?_escaped {ctx : Context} : ctx.escaped.nonFinite? = none ↔
    ctx.nonFinite? = none := by
  rw [nonFinite?_eq_none, nonFinite?_eq_none]
  change Json.membersFinite (Value.fieldsToJson (Value.escapedFields ctx)) = true ↔
    Json.membersFinite (Value.fieldsToJson ctx) = true
  rw [Value.isFinite_escapedFields]

/-- A context without such numbers is known by its text. -/
theorem text_injective {ctx ctx' : Context} (hf : ctx.nonFinite? = none)
    (hf' : ctx'.nonFinite? = none) (h : ctx.text = ctx'.text) : ctx = ctx' :=
  Value.fieldsToJson_inj ctx ctx' (Json.obj.inj
    (Json.text_injective (nonFinite?_eq_none.mp hf) (nonFinite?_eq_none.mp hf') h))

end Context

namespace Cache

variable {name name' : String} {ctx ctx' : Context}

/-- A name and a context are known by what their key digests. -/
theorem payload_injective (hf : ctx.nonFinite? = none) (hf' : ctx'.nonFinite? = none)
    (h : payload name ctx = payload name' ctx') : name = name' ∧ ctx = ctx' := by
  -- read from its end, the text runs up to the first zero character
  have hspan : ∀ {n : String} {c : Context}, c.nonFinite? = none →
      (payload n c).reverse.takeWhile (· ≠ Char.ofNat 0) = c.text.reverse ∧
        (payload n c).reverse.dropWhile (· ≠ Char.ofNat 0) = Char.ofNat 0 :: n.toList.reverse := by
    intro n c hc
    rw [payload, List.reverse_append, List.reverse_cons, List.append_assoc, List.singleton_append]
    refine Decimal.span_append (List.all_eq_true.mpr fun x hx => ?_) (by simp)
    rw [List.mem_reverse] at hx
    have hlow := Json.le_of_mem_text _ (Context.nonFinite?_eq_none.mp hc) x hx
    exact decide_eq_true fun h => absurd (h ▸ hlow) (by decide)
  have htext := (hspan (n := name) hf).1.symm.trans (h ▸ (hspan (n := name') hf').1)
  have hname := (hspan (n := name) hf).2.symm.trans (h ▸ (hspan (n := name') hf').2)
  exact ⟨String.toList_inj.mp (List.reverse_inj.mp (List.cons.inj hname).2),
    Context.text_injective hf hf' (List.reverse_inj.mp htext)⟩

/-- The bytes that a key digests. -/
def payloadBytes (name : String) (ctx : Context) : List UInt8 :=
  (String.ofList (payload name ctx)).toUTF8.toList

theorem toList_loop_eq (bs : ByteArray) (i : Nat) (r : List UInt8) :
    ByteArray.toList.loop bs i r = r.reverse ++ bs.data.toList.drop i := by
  fun_induction ByteArray.toList.loop bs i r with
  | case1 i r hlt ih =>
    have hlen : i < bs.data.toList.length := by simpa using hlt
    have hget : bs.get! i = bs.data.toList[i] := by
      change bs.data[i]! = _
      rw [getElem!_pos bs.data i hlt]
      rfl
    rw [ih, List.drop_eq_getElem_cons hlen, hget, List.reverse_cons, List.append_assoc]
    rfl
  | case2 i r hlt =>
    rw [List.drop_eq_nil_of_le (by simpa using Nat.le_of_not_lt hlt), List.append_nil]

theorem toList_eq_data (bs : ByteArray) : bs.toList = bs.data.toList := by
  rw [ByteArray.toList, toList_loop_eq, List.reverse_nil, List.nil_append, List.drop_zero]

theorem payloadBytes_injective (hf : ctx.nonFinite? = none) (hf' : ctx'.nonFinite? = none)
    (h : payloadBytes name ctx = payloadBytes name' ctx') : name = name' ∧ ctx = ctx' := by
  have hbytes : (String.ofList (payload name ctx)).toUTF8 =
      (String.ofList (payload name' ctx')).toUTF8 := by
    rw [payloadBytes, payloadBytes, toList_eq_data, toList_eq_data] at h
    exact ByteArray.ext (Array.toList_inj.mp h)
  have htext := String.toByteArray_inj.mp hbytes
  exact payload_injective hf hf' (by simpa using congrArg String.toList htext)

theorem key?_eq_ok {key : String} :
    key? name ctx = .ok key ↔
      ctx.nonFinite? = none ∧ key = Sha256.hexDigest (payloadBytes name ctx) := by
  rw [key?]
  cases ctx.nonFinite? with
  | none => simp [payloadBytes, eq_comm]
  | some x => simp

/-- The digest tells apart what the keys of these names and contexts digest. -/
def DigestsApart (pairs : List (String × Context)) : Prop :=
  ∀ p ∈ pairs, ∀ q ∈ pairs, p.2.nonFinite? = none → q.2.nonFinite? = none →
    Sha256.hexDigest (payloadBytes p.1 p.2) = Sha256.hexDigest (payloadBytes q.1 q.2) →
    payloadBytes p.1 p.2 = payloadBytes q.1 q.2

instance (pairs : List (String × Context)) : Decidable (DigestsApart pairs) :=
  inferInstanceAs (Decidable (∀ p ∈ pairs, ∀ q ∈ pairs, p.2.nonFinite? = none →
    q.2.nonFinite? = none →
    Sha256.hexDigest (payloadBytes p.1 p.2) = Sha256.hexDigest (payloadBytes q.1 q.2) →
    payloadBytes p.1 p.2 = payloadBytes q.1 q.2))

/-- A name and a context are known by their key. -/
theorem DigestsApart.eq_of_key? {pairs : List (String × Context)} {p q : String × Context}
    {key : String} (h : DigestsApart pairs) (hp : p ∈ pairs) (hq : q ∈ pairs)
    (hkp : key? p.1 p.2 = .ok key) (hkq : key? q.1 q.2 = .ok key) : p = q := by
  obtain ⟨hfp, hdp⟩ := key?_eq_ok.mp hkp
  obtain ⟨hfq, hdq⟩ := key?_eq_ok.mp hkq
  have hbytes := h p hp q hq hfp hfq (hdp.symm.trans hdq)
  exact Prod.ext_iff.mpr (payloadBytes_injective hfp hfq hbytes)

end Cache

end Stencil
