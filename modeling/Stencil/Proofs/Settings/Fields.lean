import Stencil.Proofs.Json.Members
import Stencil.Settings.Data
import Mathlib.Data.List.Basic

/-!
# The fields of settings

Settings are known by what their fields hold, each a value of one of a few types, and as data they
are an object in which every field is found under its keys. Reading is the other way round: data in
which every field is found stands for the settings that hold what is found, if there are such
settings, which is the case if every value is of the type of its field.
-/

namespace Stencil

/-- A field of the settings. -/
inductive Field where
  /-- Whether the program runs for its developers. -/
  | debug
  /-- The least level of messages. -/
  | logLevel
  /-- The directories of the templates. -/
  | dirs
  /-- The extension of template names. -/
  | extension
  /-- The text in front of a tag. -/
  | leftDelimiter
  /-- The text behind a tag. -/
  | rightDelimiter
  /-- Whether strings are escaped. -/
  | autoEscape
  /-- Whether tags without a value are removed. -/
  | clearUnresolved
  /-- Whether output is cached. -/
  | enabled
  /-- The kind of cache. -/
  | backend
  /-- The directory of the cache. -/
  | location

namespace Field

/-- The keys that lead to a field. -/
def path : Field → List String
  | debug => ["debug"]
  | logLevel => ["log_level"]
  | dirs => ["templates", "dirs"]
  | extension => ["templates", "extension"]
  | leftDelimiter => ["templates", "left_delimiter"]
  | rightDelimiter => ["templates", "right_delimiter"]
  | autoEscape => ["templates", "auto_escape"]
  | clearUnresolved => ["templates", "clear_unresolved"]
  | enabled => ["cache", "enabled"]
  | backend => ["cache", "backend"]
  | location => ["cache", "location"]

/-- Whether a value is of the type of a field: a truth value, a string, a string or null, or an
array of strings. -/
def Fits : Field → Json → Prop
  | debug, v | autoEscape, v | clearUnresolved, v | enabled, v => ∃ b, v = .bool b
  | logLevel, v | leftDelimiter, v | rightDelimiter, v | backend, v => ∃ s, v = .str s
  | extension, v | location, v => v = .null ∨ ∃ s, v = .str s
  | dirs, v => ∃ items : List String, v = .arr (items.map .str)

end Field

namespace Settings

variable {s s' : Settings} {f : Field} {v : Json} {members : List (String × Json)}

/-- What settings hold in a field, as data. -/
def value (s : Settings) : Field → Json
  | .debug => .bool s.debug
  | .logLevel => .str s.logLevel
  | .dirs => .arr (s.templates.dirs.map .str)
  | .extension => optionToJson s.templates.extension?
  | .leftDelimiter => .str s.templates.leftDelimiter
  | .rightDelimiter => .str s.templates.rightDelimiter
  | .autoEscape => .bool s.templates.autoEscape
  | .clearUnresolved => .bool s.templates.clearUnresolved
  | .enabled => .bool s.cache.enabled
  | .backend => .str s.cache.backend
  | .location => optionToJson s.cache.location?

/-! ## Types -/

theorem optionToJson_injective : Function.Injective optionToJson := by
  rintro (_ | a) (_ | b) h
  · rfl
  · cases h
  · cases h
  · exact congrArg some (Json.str.inj h)

theorem exists_optionToJson : (∃ o, v = optionToJson o) ↔ v = .null ∨ ∃ s, v = .str s := by
  constructor
  · rintro ⟨_ | s, rfl⟩
    · exact .inl rfl
    · exact .inr ⟨s, rfl⟩
  · rintro (rfl | ⟨s, rfl⟩)
    · exact ⟨none, rfl⟩
    · exact ⟨some s, rfl⟩

/-- Settings are the same if they hold the same. -/
theorem ext_value (h : ∀ f, s.value f = s'.value f) : s = s' := by
  have hdirs : s.templates.dirs = s'.templates.dirs :=
    List.map_injective_iff.mpr (fun _ _ => Json.str.inj) (Json.arr.inj (h .dirs))
  obtain ⟨debug, level, ⟨dirs, extension, left, right, escape, clear⟩,
      ⟨enabled, backend, location⟩⟩ := s
  obtain ⟨debug', level', ⟨dirs', extension', left', right', escape', clear'⟩,
    ⟨enabled', backend', location'⟩⟩ := s'
  obtain rfl := Json.bool.inj (h .debug)
  obtain rfl := Json.str.inj (h .logLevel)
  obtain rfl : dirs = dirs' := hdirs
  obtain rfl := optionToJson_injective (h .extension)
  obtain rfl := Json.str.inj (h .leftDelimiter)
  obtain rfl := Json.str.inj (h .rightDelimiter)
  obtain rfl := Json.bool.inj (h .autoEscape)
  obtain rfl := Json.bool.inj (h .clearUnresolved)
  obtain rfl := Json.bool.inj (h .enabled)
  obtain rfl := Json.str.inj (h .backend)
  obtain rfl := optionToJson_injective (h .location)
  rfl

theorem fits_value (s : Settings) (f : Field) : f.Fits (s.value f) := by
  cases f
  case extension | location => exact exists_optionToJson.mp ⟨_, rfl⟩
  all_goals exact ⟨_, rfl⟩

/-- Values of the types of their fields are held by settings. -/
theorem exists_value {values : Field → Json} (h : ∀ f : Field, f.Fits (values f)) :
    ∃ s : Settings, ∀ f, s.value f = values f := by
  obtain ⟨debug, hdebug⟩ := h .debug
  obtain ⟨level, hlevel⟩ := h .logLevel
  obtain ⟨dirs, hdirs⟩ := h .dirs
  obtain ⟨extension, hextension⟩ := exists_optionToJson.mpr (h .extension)
  obtain ⟨left, hleft⟩ := h .leftDelimiter
  obtain ⟨right, hright⟩ := h .rightDelimiter
  obtain ⟨escape, hescape⟩ := h .autoEscape
  obtain ⟨clear, hclear⟩ := h .clearUnresolved
  obtain ⟨enabled, henabled⟩ := h .enabled
  obtain ⟨backend, hbackend⟩ := h .backend
  obtain ⟨location, hlocation⟩ := exists_optionToJson.mpr (h .location)
  refine ⟨⟨debug, level, ⟨dirs, extension, left, right, escape, clear⟩,
    ⟨enabled, backend, location⟩⟩, fun f => ?_⟩
  cases f <;> (symm; assumption)

/-! ## Reading -/

theorem bool?_eq_some {o : Option Json} {b : Bool} : bool? o = some b ↔ o = some (.bool b) := by
  cases o with
  | none => simp [bool?]
  | some v => cases v <;> simp [bool?]

theorem string?_eq_some {o : Option Json} {t : String} :
    string? o = some t ↔ o = some (.str t) := by
  cases o with
  | none => simp [string?]
  | some v => cases v <;> simp [string?]

theorem option?_eq_some {o : Option Json} (ho : ∃ v, o = some v) {t : Option String} :
    option? o = some t ↔ o = some (optionToJson t) := by
  obtain ⟨v, rfl⟩ := ho
  cases t <;> cases v <;> simp [option?, optionToJson]

theorem mapM_string? {values : List Json} {items : List String} :
    values.mapM (fun v => string? (some v)) = some items ↔ values = items.map .str := by
  induction values generalizing items with
  | nil => cases items <;> simp
  | cons v values ih =>
    rw [List.mapM_cons]
    simp only [Option.bind_eq_bind, Option.bind_eq_some_iff, string?_eq_some, ih, Option.some.injEq]
    constructor
    · rintro ⟨t, rfl, rest, rfl, ⟨⟩⟩
      rfl
    · intro h
      cases items with
      | nil => cases h
      | cons t rest =>
        obtain ⟨rfl, rfl⟩ := List.cons.inj h
        exact ⟨t, rfl, rest, rfl, rfl⟩

theorem strings?_eq_some {o : Option Json} {items : List String} :
    strings? o = some items ↔ o = some (.arr (items.map .str)) := by
  cases o with
  | none => simp [strings?]
  | some v =>
    cases v with
    | arr values => rw [strings?, mapM_string?, Option.some.injEq, Json.arr.injEq]
    | null | bool _ | int _ | float _ | str _ | obj _ => simp [strings?]

theorem templates?_eq_some {t : TemplateSettings} :
    templates? (.obj members) = some t ↔
      strings? (Dict.get? members "dirs") = some t.dirs ∧
      option? (Dict.get? members "extension") = some t.extension? ∧
      string? (Dict.get? members "left_delimiter") = some t.leftDelimiter ∧
      string? (Dict.get? members "right_delimiter") = some t.rightDelimiter ∧
      bool? (Dict.get? members "auto_escape") = some t.autoEscape ∧
      bool? (Dict.get? members "clear_unresolved") = some t.clearUnresolved := by
  constructor
  · intro h
    simp only [templates?, fields?, List.map_cons, List.map_nil, Option.bind_eq_bind,
      Option.bind_some, Option.bind_eq_some_iff] at h
    obtain ⟨_, hdirs, _, hextension, _, hleft, _, hright, _, hescape, _, hclear, ⟨⟩⟩ := h
    exact ⟨hdirs, hextension, hleft, hright, hescape, hclear⟩
  · rintro ⟨hdirs, hextension, hleft, hright, hescape, hclear⟩
    simp [templates?, fields?, hdirs, hextension, hleft, hright, hescape, hclear]

theorem cache?_eq_some {c : CacheSettings} :
    cache? (.obj members) = some c ↔
      bool? (Dict.get? members "enabled") = some c.enabled ∧
      string? (Dict.get? members "backend") = some c.backend ∧
      option? (Dict.get? members "location") = some c.location? := by
  constructor
  · intro h
    simp only [cache?, fields?, List.map_cons, List.map_nil, Option.bind_eq_bind,
      Option.bind_some, Option.bind_eq_some_iff] at h
    obtain ⟨_, henabled, _, hbackend, _, hlocation, ⟨⟩⟩ := h
    exact ⟨henabled, hbackend, hlocation⟩
  · rintro ⟨henabled, hbackend, hlocation⟩
    simp [cache?, fields?, henabled, hbackend, hlocation]

theorem ofJson?_eq_some :
    ofJson? (.obj members) = some s ↔
      bool? (Dict.get? members "debug") = some s.debug ∧
      string? (Dict.get? members "log_level") = some s.logLevel ∧
      (∃ v, Dict.get? members "templates" = some v ∧ templates? v = some s.templates) ∧
      ∃ v, Dict.get? members "cache" = some v ∧ cache? v = some s.cache := by
  constructor
  · intro h
    simp only [ofJson?, fields?, List.map_cons, List.map_nil, Option.bind_eq_bind,
      Option.bind_some, Option.bind_eq_some_iff] at h
    obtain ⟨_, hdebug, _, hlevel, v, hv, _, htemplates, w, hw, _, hcache, ⟨⟩⟩ := h
    exact ⟨hdebug, hlevel, ⟨v, hv, htemplates⟩, w, hw, hcache⟩
  · rintro ⟨hdebug, hlevel, ⟨v, hv, htemplates⟩, w, hw, hcache⟩
    simp [ofJson?, fields?, hdebug, hlevel, hv, htemplates, hw, hcache]

/-- The value at the end of a row of keys. -/
def find? : Json → List String → Option Json
  | v, [] => some v
  | .obj members, key :: path => (Dict.get? members key).bind fun v => find? v path
  | _, _ :: _ => none

theorem find?_top (members : List (String × Json)) (key : String) :
    find? (.obj members) [key] = Dict.get? members key := by
  rw [find?]
  cases Dict.get? members key <;> rfl

theorem find?_group {group : String} {inner : List (String × Json)}
    (h : Dict.get? members group = some (.obj inner)) (key : String) :
    find? (.obj members) [group, key] = Dict.get? inner key := by
  rw [find?, h, Option.bind_some, find?_top]

theorem exists_group {group key : String} (h : ∃ v, find? (.obj members) [group, key] = some v) :
    ∃ inner, Dict.get? members group = some (.obj inner) := by
  obtain ⟨v, h⟩ := h
  rw [find?] at h
  obtain ⟨w, hw, h⟩ := Option.bind_eq_some_iff.mp h
  cases w with
  | obj inner => exact ⟨inner, hw⟩
  | null | bool _ | int _ | float _ | str _ | arr _ => cases h

/-- **Data stands for the settings that hold what is found in it**, if every field is found. -/
theorem ofJson?_eq_some_iff (hfound : ∀ f : Field, ∃ v, find? (.obj members) f.path = some v) :
    ofJson? (.obj members) = some s ↔ ∀ f :
    Field, find? (.obj members) f.path = some (s.value f) := by
  obtain ⟨templates, htemplates⟩ := exists_group (hfound .dirs)
  obtain ⟨cache, hcache⟩ := exists_group (hfound .enabled)
  have hextension : ∃ v, Dict.get? templates "extension" = some v :=
    find?_group htemplates "extension" ▸ hfound .extension
  have hlocation : ∃ v, Dict.get? cache "location" = some v :=
    find?_group hcache "location" ▸ hfound .location
  simp only [ofJson?_eq_some, htemplates, hcache, Option.some.injEq, exists_eq_left',
    templates?_eq_some, cache?_eq_some, bool?_eq_some, string?_eq_some, strings?_eq_some,
    option?_eq_some hextension, option?_eq_some hlocation]
  constructor
  · rintro ⟨hdebug, hlevel, ⟨hdirs, hextension, hleft, hright, hescape, hclear⟩, henabled, hbackend,
      hlocation⟩ f
    cases f
    case debug | logLevel => rw [Field.path, find?_top]; assumption
    case enabled | backend | location => rw [Field.path, find?_group hcache]; assumption
    all_goals
      rw [Field.path, find?_group htemplates]
      assumption
  · intro h
    simp only [← find?_top members, ← find?_group htemplates, ← find?_group hcache]
    exact ⟨h .debug, h .logLevel,
      ⟨h .dirs, h .extension, h .leftDelimiter, h .rightDelimiter, h .autoEscape,
      h .clearUnresolved⟩, h .enabled, h .backend, h .location⟩

end Settings

end Stencil
