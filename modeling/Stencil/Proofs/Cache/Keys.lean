import Mathlib
import Stencil.Proofs.Cache.Payload
import Stencil.Proofs.Value.Nesting

/-!
# Cache keys separate renders

A context has a key unless it mentions a number without a notation, however deep. What the key
digests is the name, a zero byte and the context as data. Names may have zero characters of their
own, but the data has none, so its bytes and those of the name are told apart; and data tells
contexts apart by their keys in order, by the kinds of their values and by the signs of their zeros.
-/

namespace Stencil

namespace Value

mutual

/-- All numbers of a value are finite unless it mentions one that is not. -/
theorem isFinite_iff_mentions : ∀ v : Value,
    v.toJson.isFinite = true ↔ ∀ f, v.Mentions f → f.isFinite = true
  | .float g => ⟨fun h f hf => by cases hf; exact h, fun h => h g .self⟩
  | .list items => (itemsFinite_iff_mentions items).trans (by simp only [mentions_list])
  | .object fields => (membersFinite_iff_mentions fields).trans (by simp only [mentions_object])
  | .null => ⟨fun _ _ h => (nomatch h), fun _ => rfl⟩
  | .bool _ => ⟨fun _ _ h => (nomatch h), fun _ => rfl⟩
  | .int _ => ⟨fun _ _ h => (nomatch h), fun _ => rfl⟩
  | .str _ => ⟨fun _ _ h => (nomatch h), fun _ => rfl⟩

theorem itemsFinite_iff_mentions : ∀ items : List Value,
    Json.itemsFinite (itemsToJson items) = true ↔
      ∀ f, (∃ v ∈ items, v.Mentions f) → f.isFinite = true
  | [] => by simp [itemsToJson, Json.itemsFinite]
  | v :: rest => by
    rw [itemsToJson, Json.itemsFinite, Bool.and_eq_true, isFinite_iff_mentions v,
      itemsFinite_iff_mentions rest]
    simp only [List.exists_mem_cons_iff, or_imp, forall_and]

theorem membersFinite_iff_mentions : ∀ fields : List (String × Value),
    Json.membersFinite (fieldsToJson fields) = true ↔
      ∀ f, (∃ x ∈ fields, x.2.Mentions f) → f.isFinite = true
  | [] => by simp [fieldsToJson, Json.membersFinite]
  | (k, v) :: rest => by
    rw [fieldsToJson, Json.membersFinite, Bool.and_eq_true, isFinite_iff_mentions v,
      membersFinite_iff_mentions rest]
    simp only [List.exists_mem_cons_iff, or_imp, forall_and]

end

end Value

theorem isFinite_eq_false_iff {f : Float} :
    f.isFinite = false ↔ f.isNaN = true ∨ f.isInf = true := by
  change f.toModel.unpack.isFinite = false ↔
    f.toModel.unpack.isNaN = true ∨ f.toModel.unpack.isInf = true
  cases f.toModel.unpack <;>
    simp [Float.Model.UnpackedFloat.isFinite, Float.Model.UnpackedFloat.isNaN,
      Float.Model.UnpackedFloat.isInf]

namespace Cache

variable {name name' : String} {ctx ctx' : Context}

/-- A context has no key where a number in it is an infinity or not a number. -/
theorem exists_key?_eq_error :
    (∃ e, key? name ctx = .error e) ↔ ∃ f, ctx.Mentions f ∧ (f.isNaN = true ∨ f.isInf = true) := by
  have hfails : (∃ e, key? name ctx = .error e) ↔ ¬ ctx.nonFinite? = none := by
    rw [key?]
    cases ctx.nonFinite? <;> simp
  rw [hfails, Context.nonFinite?_eq_none]
  refine (not_congr (Value.membersFinite_iff_mentions ctx)).trans ?_
  simp only [← isFinite_eq_false_iff, not_forall, Bool.not_eq_true, Context.Mentions, exists_prop]

/-- What a key digests are the bytes of the name, a zero byte and the bytes of the data. -/
theorem payloadBytes_eq :
    payloadBytes name ctx =
      name.toUTF8.toList ++ 0 :: (String.ofList ctx.text).toUTF8.toList := by
  have hsplit : String.ofList (payload name ctx) =
      name ++ (String.ofList [Char.ofNat 0] ++ String.ofList ctx.text) := by
    rw [payload, String.ofList_append, String.ofList_toList, ← List.singleton_append,
      String.ofList_append]
  have hzero : (String.ofList [Char.ofNat 0]).toByteArray.data.toList = [0] := by decide +kernel
  simp only [payloadBytes, hsplit, String.toUTF8, String.toByteArray_append, toList_eq_data,
    ByteArray.data_append, Array.toList_append, hzero, List.singleton_append]

/-- **Cache keys separate all distinct renders.** A name and a context have a key unless an infinity
or what is not a number stands in the context at any depth. Otherwise the key is the digest of the
name, a zero byte and the context as data, and two names and contexts for which these bytes are the
same are the same: the same characters in the names, zero characters included, and in the contexts
the same keys in the same order, integers apart from doubles, and a zero apart from its negative. -/
theorem key?_separates (name : String) (ctx : Context) :
    ((∃ e, key? name ctx = .error e) ↔
      ∃ f, ctx.Mentions f ∧ (f.isNaN = true ∨ f.isInf = true)) ∧
    (∀ key, key? name ctx = .ok key → key = Sha256.hexDigest
      (name.toUTF8.toList ++ 0 :: (String.ofList ctx.text).toUTF8.toList)) ∧
    ∀ (name' : String) (ctx' : Context) (key key' : String),
      key? name ctx = .ok key → key? name' ctx' = .ok key' →
      name.toUTF8.toList ++ 0 :: (String.ofList ctx.text).toUTF8.toList =
        name'.toUTF8.toList ++ 0 :: (String.ofList ctx'.text).toUTF8.toList →
      name = name' ∧ ctx = ctx' := by
  simp only [← payloadBytes_eq]
  refine ⟨exists_key?_eq_error, fun key h => (key?_eq_ok.mp h).2, ?_⟩
  intro name' ctx' key key' h h' hbytes
  exact payloadBytes_injective (key?_eq_ok.mp h).1 (key?_eq_ok.mp h').1 hbytes

/-- A number that is none, two levels down, and zeros of either sign behind a name with a zero
character. -/
theorem key?_separates_zeros :
    (∃ e, key? "t" [("rows", .list [.object [("n", .float (0.0 / 0.0))]])] = .error e) ∧
    ∃ key key', key? "t\x00" [("x", .float 0.0)] = .ok key ∧
      key? "t\x00" [("x", .float (-0.0))] = .ok key' ∧
      "t\x00".toUTF8.toList ++
          0 :: (String.ofList (Context.text [("x", .float 0.0)])).toUTF8.toList ≠
        "t\x00".toUTF8.toList ++
          0 :: (String.ofList (Context.text [("x", .float (-0.0))])).toUTF8.toList := by
  have hkey : key? "t\x00" [("x", .float 0.0)] = .ok _ := key?_eq_ok.mpr ⟨rfl, rfl⟩
  have hkey' : key? "t\x00" [("x", .float (-0.0))] = .ok _ := key?_eq_ok.mpr ⟨rfl, rfl⟩
  refine ⟨(key?_separates _ _).1.mpr ⟨0.0 / 0.0, ?_, .inl (by decide +kernel)⟩, _, _, hkey, hkey',
    fun hbytes => ?_⟩
  · exact ⟨_, .head _, .item (.head _) (.field (.head _) .self)⟩
  · have hctx := ((key?_separates _ _).2.2 _ _ _ _ hkey hkey' hbytes).2
    have hzero : (0.0 : Float) = -0.0 := by simpa using hctx
    exact absurd (congrArg Float.toBits hzero) (by decide +kernel)

end Cache

end Stencil
