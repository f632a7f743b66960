import Stencil.Dict

/-!
# Dictionaries

Where the entries of a dictionary come from, and families of dictionaries: one dictionary of values
that depend on the member stands for all of them, and goes through every operation as they do.
-/

namespace Stencil

namespace Dict

variable {ι β : Type}

theorem get?_map {γ : Type} (ds : Dict β) (f : β → γ) (key : String) :
    Dict.get? (ds.map fun x => (x.1, f x.2)) key = (ds.get? key).map f := by
  induction ds with
  | nil => rfl
  | cons x ds ih =>
    obtain ⟨k, v⟩ := x
    simp only [List.map_cons, get?]
    split
    · rfl
    · exact ih

/-- A key is present where a value is stored under it. -/
theorem get?_isSome {ds : Dict β} {key : String} : (ds.get? key).isSome ↔ key ∈ ds.keys := by
  induction ds with
  | nil => simp [get?, keys]
  | cons x ds ih =>
    obtain ⟨k, v⟩ := x
    unfold keys at ih ⊢
    by_cases hk : k = key
    · simp [get?, hk]
    · simp [get?, hk, Ne.symm hk, ih]

theorem mem_of_get? {ds : Dict β} {key : String} {v : β} (h : ds.get? key = some v) :
    (key, v) ∈ ds := by
  induction ds with
  | nil => exact absurd h (by simp [get?])
  | cons x ds ih =>
    obtain ⟨k, u⟩ := x
    rw [get?] at h
    split at h
    · rename_i hk
      obtain rfl := Option.some.inj h
      simp [hk]
    · simp [ih h]

/-- A value that is there after a set has been there before, or is the one that was set. -/
theorem eq_some_of_get?_set {ds : Dict β} {key k : String} {v b : β}
    (h : (ds.set key v).get? k = some b) : ds.get? k = some b ∨ k = key ∧ b = v := by
  rw [get?_set] at h
  split at h
  · rename_i heq
    exact .inr ⟨heq.symm, (Option.some.inj h).symm⟩
  · exact .inl h

theorem mem_set {ds : Dict β} {key : String} {v : β} {x : String × β} (h : x ∈ ds.set key v) :
    x = (key, v) ∨ x ∈ ds := by
  induction ds with
  | nil => exact .inl (List.mem_singleton.mp h)
  | cons y ds ih =>
    obtain ⟨k, u⟩ := y
    rw [set] at h
    split at h
    · rename_i hk
      rcases List.mem_cons.mp h with h | h
      · exact .inl (hk ▸ h)
      · exact .inr (by simp [h])
    · rcases List.mem_cons.mp h with h | h
      · exact .inr (by simp [h])
      · rcases ih h with h | h
        · exact .inl h
        · exact .inr (by simp [h])

theorem merge_cons (ds : Dict β) (key : String) (v : β) (upper : Dict β) :
    ds.merge ((key, v) :: upper) = (ds.set key v).merge upper :=
  rfl

theorem merge_append (ds upper upper' : Dict β) :
    ds.merge (upper ++ upper') = (ds.merge upper).merge upper' :=
  List.foldl_append

theorem mem_merge {ds upper : Dict β} {x : String × β} (h : x ∈ ds.merge upper) :
    x ∈ ds ∨ x ∈ upper := by
  induction upper generalizing ds with
  | nil => exact .inl h
  | cons y upper ih =>
    rcases ih h with h | h
    · rcases mem_set h with rfl | h
      · exact .inr (by simp)
      · exact .inl h
    · exact .inr (by simp [h])

theorem get?_merge_of_notMem {ds upper : Dict β} {key : String} (h : key ∉ upper.keys) :
    (ds.merge upper).get? key = ds.get? key := by
  induction upper generalizing ds with
  | nil => rfl
  | cons x upper ih =>
    obtain ⟨k, v⟩ := x
    simp only [keys, List.map_cons, List.mem_cons, not_or] at h
    rw [merge_cons, ih h.2, get?_set, if_neg (Ne.symm h.1)]

theorem get?_append (ds ds' : Dict β) (key : String) :
    Dict.get? (ds ++ ds') key = (ds.get? key).or (Dict.get? ds' key) := by
  induction ds with
  | nil => rfl
  | cons x ds ih =>
    obtain ⟨k, v⟩ := x
    rw [List.cons_append, get?, get?, ih]
    split <;> rfl

/-- An overlay goes before what is below, and in it the last entry of a key counts. -/
theorem get?_merge (ds upper : Dict β) (key : String) :
    (ds.merge upper).get? key = ((ofEntries upper).get? key).or (ds.get? key) := by
  induction upper generalizing ds with
  | nil => rfl
  | cons x upper ih =>
    obtain ⟨k, v⟩ := x
    change ((ds.set k v).merge upper).get? key = ((merge (set [] k v) upper).get? key).or _
    rw [ih, ih, Option.or_assoc, get?_set, get?_set]
    by_cases hk : k = key
    · simp [hk]
    · simp [hk, get?]

/-- Of the entries of a list, the last of a key counts. -/
theorem get?_ofEntries (entries : List (String × β)) (key : String) :
    (ofEntries entries).get? key = Dict.get? entries.reverse key := by
  induction entries with
  | nil => rfl
  | cons x entries ih =>
    obtain ⟨k, v⟩ := x
    change (Dict.merge (Dict.set [] k v) entries).get? key = _
    rw [get?_merge, ih, List.reverse_cons, get?_append]
    rfl

theorem KeysUnique.merge {ds : Dict β} (h : ds.KeysUnique) (upper : Dict β) :
    (ds.merge upper).KeysUnique := by
  induction upper generalizing ds with
  | nil => exact h
  | cons x upper ih => exact ih (h.set x.1 x.2)

theorem keysUnique_nil : KeysUnique ([] : Dict β) := List.nodup_nil

theorem keysUnique_ofEntries (entries : List (String × β)) : (ofEntries entries).KeysUnique :=
  keysUnique_nil.merge entries

/-- Where every key occurs once, the first entry of a key is the last. -/
theorem KeysUnique.get?_ofEntries {ds : Dict β} (h : ds.KeysUnique) (key : String) :
    (ofEntries ds).get? key = ds.get? key := by
  induction ds with
  | nil => rfl
  | cons x ds ih =>
    obtain ⟨k, v⟩ := x
    obtain ⟨hk, h⟩ := List.nodup_cons.mp h
    change (Dict.merge (Dict.set [] k v) ds).get? key = _
    rw [get?_merge, ih h]
    by_cases heq : k = key
    · have hnone : Dict.get? ds key = none := by
        rw [← Option.not_isSome_iff_eq_none, get?_isSome, ← heq]
        exact hk
      simp [hnone, get?, Dict.set, heq]
    · simp [get?, Dict.set, heq]

/-- An overlay without repeated keys is in the result as it is. -/
theorem mem_merge_of_mem {ds upper : Dict β} (hu : upper.KeysUnique) {x : String × β}
    (h : x ∈ upper) : x ∈ ds.merge upper := by
  induction upper generalizing ds with
  | nil => cases h
  | cons y upper ih =>
    obtain ⟨k, v⟩ := y
    obtain ⟨hk, hu⟩ := List.nodup_cons.mp hu
    rcases List.mem_cons.mp h with rfl | h
    · refine mem_of_get? ?_
      rw [merge_cons, get?_merge_of_notMem hk, get?_set, if_pos rfl]
    · exact ih hu h

theorem set_of_notMem {ds : Dict β} {key : String} {value : β} (h : key ∉ ds.keys) :
    ds.set key value = ds ++ [(key, value)] := by
  induction ds with
  | nil => rfl
  | cons x ds ih =>
    obtain ⟨k, v⟩ := x
    simp only [keys, List.map_cons, List.mem_cons, not_or] at h
    rw [set, if_neg (Ne.symm h.1), ih h.2]
    rfl

/-- Keys that are new come behind the others, in their order. -/
theorem merge_eq_append {ds upper : Dict β} (h : KeysUnique (ds ++ upper)) :
    ds.merge upper = ds ++ upper := by
  induction upper generalizing ds with
  | nil => exact (List.append_nil ds).symm
  | cons x upper ih =>
    obtain ⟨k, v⟩ := x
    have hnew : k ∉ ds.keys := by
      unfold KeysUnique keys at h
      rw [List.map_append, List.map_cons] at h
      exact fun hk => (List.nodup_append.mp h).2.2 k hk k List.mem_cons_self rfl
    rw [merge_cons, set_of_notMem hnew, ih (by rwa [List.append_assoc]), List.append_assoc]
    rfl

theorem ofEntries_eq_self {ds : Dict β} (h : ds.KeysUnique) : ofEntries ds = ds :=
  merge_eq_append h

/-! ## Overlays -/

theorem set_set (ds : Dict β) (key : String) (v w : β) :
    (ds.set key v).set key w = ds.set key w := by
  induction ds with
  | nil => simp [set]
  | cons x ds ih =>
    obtain ⟨k, u⟩ := x
    by_cases hk : k = key
    · simp [set, hk]
    · simp [set, hk, ih]

/-- Setting a value that is there changes nothing. -/
theorem set_eq_self {ds : Dict β} {key : String} {v : β} (h : ds.get? key = some v) :
    ds.set key v = ds := by
  induction ds with
  | nil => exact absurd h (by simp [get?])
  | cons x ds ih =>
    obtain ⟨k, u⟩ := x
    rw [get?] at h
    rw [set]
    split at h
    · rw [if_pos ‹_›, Option.some.inj h]
    · rw [if_neg ‹_›, ih h]

/-- A key that is there keeps its place, so it can be set before or after other keys. -/
theorem set_comm {ds : Dict β} {key key' : String} (h : key ∈ ds.keys)
    (hne : key' ≠ key) (v w : β) :
    (ds.set key' w).set key v = (ds.set key v).set key' w := by
  induction ds with
  | nil => cases h
  | cons x ds ih =>
    obtain ⟨k, u⟩ := x
    by_cases hk : k = key
    · simp [set, hk, hne.symm]
    · have hmem : key ∈ keys ds := by
        simpa [keys, Ne.symm hk] using h
      by_cases hk' : k = key'
      · simp [set, hk', hne]
      · simp [set, hk, hk', ih hmem]

/-- A key that is there can be set before or after an overlay that does not mention it. -/
theorem set_merge {ds upper : Dict β} {key : String} (h : key ∈ ds.keys) (hu : key ∉ upper.keys)
    (v : β) : (ds.merge upper).set key v = (ds.set key v).merge upper := by
  induction upper generalizing ds with
  | nil => rfl
  | cons x upper ih =>
    obtain ⟨k, u⟩ := x
    obtain ⟨hk, hu⟩ : key ≠ k ∧ key ∉ keys upper := by simpa [keys] using hu
    have hmem : key ∈ (ds.set k u).keys := by
      rw [keys_set]
      split
      · exact h
      · exact List.mem_append_left _ h
    rw [merge_cons, ih hmem hu, set_comm h hk.symm, merge_cons]

/-- Setting a key in an overlay is setting it afterwards. -/
theorem merge_set {upper : Dict β} (hu : upper.KeysUnique) (ds : Dict β) (key : String) (v : β) :
    ds.merge (upper.set key v) = (ds.merge upper).set key v := by
  induction upper generalizing ds with
  | nil => rfl
  | cons x upper ih =>
    obtain ⟨k, u⟩ := x
    obtain ⟨hk, hu⟩ := List.nodup_cons.mp hu
    rw [merge_cons, set]
    split
    · rename_i heq
      subst heq
      have hmem : k ∈ (ds.set k u).keys := by
        rw [← get?_isSome, get?_set, if_pos rfl, Option.isSome_some]
      rw [merge_cons, set_merge hmem hk, set_set]
    · rw [merge_cons, ih hu]

/-- Overlays can be laid on each other first. -/
theorem merge_assoc {middle : Dict β} (hm : middle.KeysUnique) (ds upper : Dict β) :
    (ds.merge middle).merge upper = ds.merge (middle.merge upper) := by
  induction upper generalizing middle with
  | nil => rfl
  | cons x upper ih =>
    obtain ⟨k, v⟩ := x
    rw [merge_cons, merge_cons, ← merge_set hm, ih (hm.set k v)]

/-- An overlay that has nothing to change changes nothing. -/
theorem merge_eq_self {ds upper : Dict β} (h : ∀ x ∈ upper, ds.get? x.1 = some x.2) :
    ds.merge upper = ds := by
  induction upper with
  | nil => rfl
  | cons x upper ih =>
    obtain ⟨hx, h⟩ := List.forall_mem_cons.mp h
    rw [merge_cons, set_eq_self hx, ih h]

/-- Where every key occurs once, every entry counts. -/
theorem KeysUnique.get?_of_mem {ds : Dict β} (h : ds.KeysUnique) {x : String × β} (hx : x ∈ ds) :
    ds.get? x.1 = some x.2 := by
  induction ds with
  | nil => cases hx
  | cons y ds ih =>
    obtain ⟨k, v⟩ := y
    obtain ⟨hk, h⟩ := List.nodup_cons.mp h
    rw [get?]
    rcases List.mem_cons.mp hx with rfl | hx
    · exact if_pos rfl
    · have hne : k ≠ x.1 := fun heq => hk (heq ▸ List.mem_map.mpr ⟨x, hx, rfl⟩)
      rw [if_neg hne, ih h hx]

/-- What an overlay has new comes behind, in the order of its first mention. -/
theorem keys_merge (ds upper : Dict β) :
    (ds.merge upper).keys = ds.keys ++ (upper.keys.removeAll ds.keys).eraseDups := by
  induction upper generalizing ds with
  | nil => simp [merge, keys, List.removeAll]
  | cons x upper ih =>
    obtain ⟨k, v⟩ := x
    rw [merge_cons, ih, keys_set]
    show _ = _ ++ (List.removeAll (k :: keys upper) ds.keys).eraseDups
    by_cases hk : k ∈ ds.keys
    · rw [if_pos hk]
      simp [List.removeAll, hk]
    · rw [if_neg hk]
      have hnew : (keys upper).removeAll (ds.keys ++ [k]) =
          ((keys upper).removeAll ds.keys).filter fun b => !b == k := by
        rw [List.removeAll, List.removeAll, List.filter_filter]
        refine List.filter_congr fun b _ => ?_
        by_cases hb : b = k <;> simp [hb]
      rw [hnew]
      simp [List.removeAll, hk, List.eraseDups_cons]

/-- Keys stand where they are first mentioned. -/
theorem keys_ofEntries (entries : List (String × β)) :
    (ofEntries entries).keys = (keys entries).eraseDups := by
  have hall : (keys entries).removeAll [] = keys entries := List.filter_eq_self.mpr fun _ _ => rfl
  rw [ofEntries, keys_merge]
  exact congrArg List.eraseDups hall

/-! ## Other values under the same keys -/

theorem set_map {γ : Type} (ds : Dict β) (f : β → γ) (key : String) (v : β) :
    set (ds.map fun x => (x.1, f x.2)) key (f v) = (ds.set key v).map fun x => (x.1, f x.2) := by
  induction ds with
  | nil => rfl
  | cons x ds ih =>
    obtain ⟨k, u⟩ := x
    simp only [List.map_cons, set]
    split
    · rfl
    · rw [List.map_cons, ih]

theorem merge_map {γ : Type} (ds upper : Dict β) (f : β → γ) :
    merge (ds.map fun x => (x.1, f x.2)) (upper.map fun x => (x.1, f x.2)) =
      (ds.merge upper).map fun x => (x.1, f x.2) := by
  induction upper generalizing ds with
  | nil => rfl
  | cons x upper ih =>
    rw [List.map_cons, merge_cons, set_map, ih, merge_cons]

/-! ## Families -/

/-- What a member of a family of dictionaries holds. -/
def pick (ds : Dict (ι → β)) (i : ι) : Dict β := ds.map fun x => (x.1, x.2 i)

theorem get?_pick (ds : Dict (ι → β)) (i : ι) (key : String) :
    (pick ds i).get? key = (ds.get? key).map (· i) :=
  get?_map ds (· i) key

theorem set_pick (ds : Dict (ι → β)) (i : ι) (key : String) (v : ι → β) :
    (pick ds i).set key (v i) = pick (ds.set key v) i :=
  set_map ds (· i) key v

/-- The same dictionary for every member. -/
def constant (ds : Dict β) : Dict (ι → β) := ds.map fun x => (x.1, fun _ => x.2)

theorem pick_constant (ds : Dict β) (i : ι) : (constant ds).pick i = ds := by
  rw [constant, pick, List.map_map]
  exact List.map_id ds

theorem merge_pick (ds upper : Dict (ι → β)) (i : ι) :
    (ds.pick i).merge (upper.pick i) = (ds.merge upper).pick i :=
  merge_map ds upper (· i)

end Dict

end Stencil
