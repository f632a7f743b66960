import Stencil.Proofs.Settings.Fields

/-!
# Settings over defaults

What data says about a field is what stands under its keys, the last mention of each. Laid over the
defaults, the data has that value there, and the default wherever it says nothing, whatever else
it holds. So it is read as the settings with these values, unless one is not of the type of its
field.
-/

namespace Stencil

/-! ## Laying over -/

namespace Json

variable {members lower : List (String × Json)}

theorem over_eq_self {v old : Json} (hold : ∀ lower, old ≠ .obj lower) : v.over old = v := by
  cases v <;> cases old <;> first | rfl | exact absurd rfl (hold _)

/-- Under a key that is mentioned, what is laid over counts. -/
theorem get?_membersOver (h : Dict.KeysUnique members) (lower : List (String × Json))
    (key : String) :
    Dict.get? (membersOver members lower) key =
      match Dict.get? members key with
      | some v =>
        some (match Dict.get? lower key with
          | some old => v.over old
          | none => v)
      | none => Dict.get? lower key := by
  induction members generalizing lower with
  | nil => rfl
  | cons x members ih =>
    obtain ⟨k, v⟩ := x
    obtain ⟨hk, h⟩ := List.nodup_cons.mp h
    rw [membersOver, ih h, Dict.get?_set, Dict.get?]
    by_cases heq : k = key
    · subst heq
      -- no later member has the key, so what is set here stays
      have hnone : Dict.get? members k = none := by
        rw [← Option.not_isSome_iff_eq_none, Dict.get?_isSome]
        exact hk
      cases hlower : Dict.get? lower k <;> simp only [hnone, if_true]
    · simp only [if_neg heq]

end Json

namespace Settings

variable {s s' : Settings} {f : Field} {v : Json} {members base : List (String × Json)}

/-- The value at the end of a row of keys, each the last mention. -/
def mention? : Json → List String → Option Json
  | v, [] => some v
  | .obj members, key :: path => (Dict.get? members.reverse key).bind fun v => mention? v path
  | _, _ :: _ => none

/-- The groups of settings that are mentioned are objects. -/
def Grouped (members : List (String × Json)) : Prop :=
  ∀ group ∈ ["templates", "cache"], ∀ v, Dict.get? members.reverse group = some v →
    ∃ inner, v = .obj inner

theorem find?_over_top {key : String} {old : Json} (h : Dict.KeysUnique members)
    (hbase : Dict.get? base key = some old) (hold : ∀ lower, old ≠ .obj lower) :
    find? (.obj (Json.membersOver members base)) [key] =
      some ((find? (.obj members) [key]).getD old) := by
  rw [find?_top, find?_top, Json.get?_membersOver h, hbase]
  cases Dict.get? members key with
  | none => rfl
  | some v => simp [Json.over_eq_self hold]

theorem find?_over_group {group key : String} {lower : List (String × Json)} {old : Json}
    (h : (Json.obj members).KeysOnce)
    (hgroup : ∀ v, Dict.get? members group = some v → ∃ inner, v = .obj inner)
    (hbase : Dict.get? base group = some (.obj lower)) (hlower : Dict.get? lower key = some old)
    (hold : ∀ lower, old ≠ .obj lower) :
    find? (.obj (Json.membersOver members base)) [group, key] =
      some ((find? (.obj members) [group, key]).getD old) := by
  obtain ⟨hunique, hmembers⟩ := h
  cases hmention : Dict.get? members group with
  | none =>
    have hover : Dict.get? (Json.membersOver members base) group = some (.obj lower) := by
      rw [Json.get?_membersOver hunique, hmention, hbase]
    rw [find?_group hover, hlower, find?, hmention]
    rfl
  | some v =>
    obtain ⟨inner, rfl⟩ := hgroup v hmention
    have hinner : (Json.obj inner).KeysOnce :=
      Json.membersKeysOnce_iff.mp hmembers _ (Dict.mem_of_get? hmention)
    have hover : Dict.get? (Json.membersOver members base) group =
        some (.obj (Json.membersOver inner lower)) := by
      rw [Json.get?_membersOver hunique, hmention, hbase]
      rfl
    rw [find?_group hover, find?_group hmention, ← find?_top, ← find?_top]
    exact find?_over_top hinner.1 hlower hold

theorem get?_reverse (h : Dict.KeysUnique members) (key : String) :
    Dict.get? members.reverse key = Dict.get? members key := by
  rw [← Dict.get?_ofEntries, h.get?_ofEntries]

theorem mention?_eq_find? (h : v.KeysOnce) (path : List String) :
    mention? v path = find? v path := by
  induction path generalizing v with
  | nil => cases v <;> rfl
  | cons key path ih =>
    cases v with
    | obj members =>
      rw [mention?, find?, get?_reverse h.1]
      cases hkey : Dict.get? members key with
      | none => rfl
      | some w => exact ih (Json.membersKeysOnce_iff.mp h.2 _ (Dict.mem_of_get? hkey))
    | null | bool _ | int _ | float _ | str _ | arr _ => rfl

/-- Over the defaults, a field has the value that is mentioned, or its default. -/
theorem find?_over (hbase : toJson {} = .obj base) (h : (Json.obj members).KeysOnce)
    (hgroups : Grouped members) (f : Field) :
    find? (.obj (Json.membersOver members base)) f.path =
      some ((mention? (.obj members) f.path).getD (({} : Settings).value f)) := by
  have hgroup (group : String) (hmem : group ∈ ["templates", "cache"]) (v : Json)
      (hv : Dict.get? members group = some v) : ∃ inner, v = .obj inner :=
    hgroups group hmem v (get?_reverse h.1 group ▸ hv)
  obtain rfl := Json.obj.inj hbase
  rw [mention?_eq_find? h]
  cases f
  case debug | logLevel => exact find?_over_top h.1 rfl (by simp [value])
  all_goals exact find?_over_group h (hgroup _ (by simp)) rfl rfl (by simp [value, optionToJson])

/-! ## Reading what is laid over the defaults -/

/-- What comes of data with these members: settings that hold the mentioned values and the defaults
of all other fields, or an error if a mentioned value is not of the type of its field. -/
structure Loads (format : String) (members : List (String × Json))
    (result : Except Error Settings) : Prop where
  /-- It fails exactly when a mentioned value is of the wrong type. -/
  fails_iff : (∃ e, result = .error e) ↔
    ∃ (f : Field) (v : Json), mention? (.obj members) f.path = some v ∧ ¬ f.Fits v
  /-- The error tells the format. -/
  error_eq : ∀ e, result = .error e → e = .illTypedSettings format
  /-- Otherwise what is mentioned is set, and all else stays. -/
  value_eq : ∀ settings, result = .ok settings → ∀ f : Field,
    settings.value f = (mention? (.obj members) f.path).getD (({} : Settings).value f)

theorem ofData_eq_ok (format : String) (h : (Json.obj members).KeysOnce)
    (hgroups : Grouped members) :
    ofData format (.obj members) = .ok s ↔ ∀ f : Field,
      s.value f = (mention? (.obj members) f.path).getD (({} : Settings).value f) := by
  obtain ⟨base, hbase⟩ : ∃ base, toJson {} = .obj base := ⟨_, rfl⟩
  have hover : (Json.obj members).over (toJson {}) = .obj (Json.membersOver members base) := by
    rw [hbase, Json.over]
  have hfound (f : Field) := find?_over hbase h hgroups f
  have hread : ofJson? (.obj (Json.membersOver members base)) = some s ↔ ∀ f : Field,
      (mention? (.obj members) f.path).getD (({} : Settings).value f) = s.value f := by
    rw [ofJson?_eq_some_iff fun f => ⟨_, hfound f⟩]
    simp only [hfound, Option.some.injEq]
  rw [ofData, hover, forall_congr' fun f => eq_comm, ← hread]
  cases ofJson? (.obj (Json.membersOver members base)) <;> simp

theorem ofData_eq_error {format : String} {e : Error} (h : ofData format v = .error e) :
    e = .illTypedSettings format := by
  rw [ofData] at h
  split at h
  · cases h
  · exact (Except.error.inj h).symm

/-- Whatever is mentioned, a field that is not of its type is the only thing that fails. -/
theorem loads_ofData (format : String) (h : (Json.obj members).KeysOnce)
    (hgroups : Grouped members) : Loads format members (ofData format (.obj members)) where
  fails_iff := by
    constructor
    · rintro ⟨e, he⟩
      by_contra hfits
      push Not at hfits
      have hvalues (f : Field) :
          f.Fits ((mention? (.obj members) f.path).getD (({} : Settings).value f)) := by
        cases hmention : mention? (.obj members) f.path with
        | none => exact fits_value {} f
        | some v => exact hfits f v hmention
      obtain ⟨s, hs⟩ := exists_value hvalues
      rw [(ofData_eq_ok format h hgroups).mpr hs] at he
      cases he
    · rintro ⟨f, v, hmention, hfits⟩
      cases hresult : ofData format (.obj members) with
      | error e => exact ⟨e, rfl⟩
      | ok s =>
        have hvalue := (ofData_eq_ok format h hgroups).mp hresult f
        rw [hmention, Option.getD_some] at hvalue
        exact absurd (hvalue ▸ fits_value s f) hfits
  error_eq _ := ofData_eq_error
  value_eq _ := (ofData_eq_ok format h hgroups).mp

end Settings

end Stencil
