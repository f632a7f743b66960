import Mathlib
import Stencil.Proofs.Json.Written
import Stencil.Proofs.Settings.Overlay
import Stencil.Proofs.Toml.Keys

/-!
# Loading settings

Settings are loaded from the text of an object, in JSON or in TOML. Each field that is mentioned is
set, by the last mention of its keys, and every other has its default. So a text that settings are
written as loads as these settings, and two texts with the same content load alike.
-/

namespace Stencil.Settings

open Json (Same)

variable {f : Field} {v w a b : Json} {members members' : List (String × Json)} {format : String}

/-! ## Repeated keys -/

/-- In what is meant, what is found is the last mention. -/
theorem mention?_settled (v : Json) (path : List String) :
    mention? v.settled path = (mention? v path).map Json.settled := by
  rw [mention?_eq_find? (Json.keysOnce_settled v)]
  induction path generalizing v with
  | nil => cases v <;> rfl
  | cons key path ih =>
    cases v with
    | obj members =>
      rw [Json.settled, find?, mention?, Json.get?_settled]
      cases Dict.get? members.reverse key with
      | none => rfl
      | some v => exact ih v
    | null | bool _ | int _ | float _ | str _ | arr _ => rfl

/-- No field is made of objects. -/
theorem objectFree_of_fits (h : f.Fits v) : v.ObjectFree := by
  have hstrings (items : List String) : Json.ItemsObjectFree (items.map .str) := by
    induction items with
    | nil => trivial
    | cons t items ih => exact ⟨trivial, ih⟩
  cases f
  case dirs =>
    obtain ⟨items, rfl⟩ := h
    exact hstrings items
  case extension | location => rcases h with rfl | ⟨t, rfl⟩ <;> trivial
  all_goals
    obtain ⟨x, rfl⟩ := h
    trivial

theorem fits_settled : f.Fits v.settled ↔ f.Fits v := by
  constructor
  · intro h
    rwa [← (Json.objectFree_settled (objectFree_of_fits h)).settled_eq]
  · intro h
    rwa [(objectFree_of_fits h).settled_eq]

theorem Grouped.settled (h : Grouped members) :
    Grouped (Dict.ofEntries (Json.membersSettled members)) := by
  intro group hgroup v hv
  rw [get?_reverse (Dict.keysUnique_ofEntries _), Json.get?_settled] at hv
  obtain ⟨w, hw, rfl⟩ := Option.map_eq_some_iff.mp hv
  obtain ⟨inner, rfl⟩ := h group hgroup w hw
  exact ⟨_, rfl⟩

theorem Loads.of_settled {result : Except Error Settings}
    (h : Loads format (Dict.ofEntries (Json.membersSettled members)) result) :
    Loads format members result := by
  have hmention (path : List String) :
      mention? (.obj (Dict.ofEntries (Json.membersSettled members))) path =
        (mention? (.obj members) path).map Json.settled := mention?_settled (.obj members) path
  refine ⟨h.fails_iff.trans ?_, h.error_eq, fun s hs f => ?_⟩
  · simp only [hmention, Option.map_eq_some_iff]
    constructor
    · rintro ⟨f, _, ⟨v, hv, rfl⟩, hfits⟩
      exact ⟨f, v, hv, fits_settled.not.mp hfits⟩
    · rintro ⟨f, v, hv, hfits⟩
      exact ⟨f, _, ⟨v, hv, rfl⟩, fits_settled.not.mpr hfits⟩
  · rw [h.value_eq s hs f, hmention]
    cases hv : mention? (.obj members) f.path with
    | none => rfl
    | some v =>
      -- what is set is of the type of the field, so it is the value that is written
      have hset : s.value f = v.settled := by
        rw [h.value_eq s hs f, hmention, hv]
        rfl
      have hfits : f.Fits v := fits_settled.mp (hset ▸ fits_value s f)
      exact (objectFree_of_fits hfits).settled_eq

/-! ## Texts -/

theorem ofJsonText_eq_ofData {s : Text} (h : Json.parse? s = some v) :
    ofJsonText s = ofData "JSON" v := by
  rw [ofJsonText, h]

theorem ofTomlText_eq_ofData {s : Text} (h : Toml.parse? s = some v) :
    ofTomlText s = ofData "TOML" v := by
  rw [ofTomlText, h]

theorem loads_ofJsonText {s : Text} (h : Json.IsText s (.obj members))
    (hdepth : (Json.obj members).depth ≤ Json.maxDepth) (hgroups : Grouped members) :
    Loads "JSON" members (ofJsonText s) := by
  have hparse : Json.parse? s = some (Json.obj members).settled :=
    Json.parse?_eq_some_iff.mpr ⟨_, h, hdepth, rfl⟩
  have hkeys : (Json.obj members).settled.KeysOnce := Json.keysOnce_settled _
  rw [ofJsonText_eq_ofData hparse]
  exact (loads_ofData "JSON" hkeys hgroups.settled).of_settled

theorem ofJsonText_eq_error {s : Text} (h : Json.parse? s = none) :
    ofJsonText s = .error (.malformedSettings "JSON") := by
  rw [ofJsonText, h]

/-- The reader gives up on a text that is nested too deeply. -/
theorem ofJsonText_of_deep {s : Text} (h : Json.IsText s v) (hdepth : Json.maxDepth < v.depth) :
    ofJsonText s = .error (.malformedSettings "JSON") :=
  ofJsonText_eq_error (Json.parse?_eq_none h hdepth)

theorem loads_ofTomlText {s : Text} (h : Toml.parse? s = some (.obj members))
    (hgroups : Grouped members) : Loads "TOML" members (ofTomlText s) := by
  rw [ofTomlText_eq_ofData h]
  exact loads_ofData "TOML" (Toml.keysOnce_parse? h) hgroups

theorem grouped_of_absent
    (h : ∀ group ∈ ["templates", "cache"], Dict.get? members.reverse group = none) :
    Grouped members := by
  intro group hgroup v hv
  rw [h group hgroup] at hv
  cases hv

/-! ## Settings that are written -/

theorem mention?_toJson (s : Settings) (f : Field) :
    mention? (toJson s) f.path = some (s.value f) := by
  cases f <;> rfl

theorem exact_optionToJson (o : Option String) : (optionToJson o).Exact := by
  cases o <;> trivial

theorem depth_optionToJson (o : Option String) : (optionToJson o).depth = 0 := by
  cases o <;> rfl

theorem exact_strings (items : List String) : Json.ItemsExact (items.map .str) := by
  induction items with
  | nil => trivial
  | cons t items ih => exact ⟨trivial, ih⟩

theorem depth_strings (items : List String) : Json.itemsDepth (items.map .str) = 0 := by
  induction items with
  | nil => rfl
  | cons t items ih => exact Nat.max_eq_zero_iff.mpr ⟨rfl, ih⟩

theorem exact_toJson (s : Settings) : (toJson s).Exact := by
  have htemplates : (templatesToJson s.templates).Exact :=
    ⟨by simp [Dict.KeysUnique, Dict.keys], exact_strings _, exact_optionToJson _, trivial, trivial,
      trivial, trivial, trivial⟩
  have hcache : (cacheToJson s.cache).Exact :=
    ⟨by simp [Dict.KeysUnique, Dict.keys], trivial, trivial, exact_optionToJson _, trivial⟩
  exact ⟨by simp [Dict.KeysUnique, Dict.keys], trivial, trivial, htemplates, hcache, trivial⟩

theorem depth_toJson (s : Settings) : (toJson s).depth ≤ Json.maxDepth := by
  simp [toJson, templatesToJson, cacheToJson, Json.depth, Json.membersDepth, depth_strings,
    depth_optionToJson, Json.maxDepth]

theorem grouped_toJson {s : Settings} (h : toJson s = .obj members) : Grouped members := by
  obtain rfl := Json.obj.inj h
  intro group hgroup v hv
  simp only [List.mem_cons, List.not_mem_nil, or_false] at hgroup
  rcases hgroup with rfl | rfl
  · obtain rfl := Option.some.inj hv
    exact ⟨_, rfl⟩
  · obtain rfl := Option.some.inj hv
    exact ⟨_, rfl⟩

/-- The settings that hold what is mentioned, and the defaults, are what is loaded. -/
theorem Loads.eq_ok {s : Settings} {result : Except Error Settings}
    (h : Loads format members result)
    (hvalue : ∀ f : Field,
      s.value f = (mention? (.obj members) f.path).getD (({} : Settings).value f)) :
    result = .ok s := by
  cases result with
  | error e =>
    obtain ⟨f, v, hv, hfits⟩ := h.fails_iff.mp ⟨e, rfl⟩
    have hset : s.value f = v := by rw [hvalue, hv, Option.getD_some]
    exact absurd (hset ▸ fits_value s f) hfits
  | ok s' => exact congrArg _ (ext_value fun f => (h.value_eq s' rfl f).trans (hvalue f).symm)

theorem Loads.of_toJson {settings : Settings} {result : Except Error Settings}
    (h : Loads format members result) (hmembers : toJson settings = .obj members) :
    result = .ok settings :=
  h.eq_ok fun f => by rw [← hmembers, mention?_toJson, Option.getD_some]

/-- **Settings that are written load as themselves**, however the text is laid out. -/
theorem ofJsonText_of_isText {settings : Settings} {s : Text}
    (h : Json.IsText s (toJson settings)) :
    ofJsonText s = .ok settings := by
  obtain ⟨members, hmembers⟩ : ∃ members, toJson settings = .obj members := ⟨_, rfl⟩
  have hdepth : (Json.obj members).depth ≤ Json.maxDepth := hmembers ▸ depth_toJson settings
  exact (loads_ofJsonText (hmembers ▸ h) hdepth (grouped_toJson hmembers)).of_toJson hmembers

theorem ofJsonText_toJson (settings : Settings) :
    ofJsonText (toJson settings).text = .ok settings := by
  have hparse : Json.parse? (toJson settings).text = some (toJson settings) :=
    Json.parse?_text (exact_toJson settings) (depth_toJson settings)
  obtain ⟨members, hmembers⟩ : ∃ members, toJson settings = .obj members := ⟨_, rfl⟩
  have hkeys : (Json.obj members).KeysOnce := hmembers ▸ Json.keysOnce_parse? hparse
  rw [ofJsonText_eq_ofData hparse, hmembers]
  exact (loads_ofData "JSON" hkeys (grouped_toJson hmembers)).of_toJson hmembers

/-! ## The same content -/

/-- Equal values have equal values under the same keys. -/
theorem find?_same (h : Same a b) (path : List String) :
    find? a path = none ∧ find? b path = none ∨
      ∃ v w, find? a path = some v ∧ find? b path = some w ∧ Same v w := by
  induction path generalizing a b with
  | nil =>
    refine .inr ⟨a, b, ?_, ?_, h⟩
    · cases a <;> rfl
    · cases b <;> rfl
  | cons key path ih =>
    cases h with
    | refl =>
      cases hfind : find? a (key :: path) with
      | none => exact .inl ⟨rfl, rfl⟩
      | some v => exact .inr ⟨v, v, rfl, rfl, .refl v⟩
    | arr => exact .inl ⟨rfl, rfl⟩
    | @obj members members' hkeys hvalues =>
      rw [find?, find?]
      have hkey := hkeys key
      cases hv : Dict.get? members key with
      | none =>
        rw [hv, Option.isSome_none] at hkey
        have hw : Dict.get? members' key = none :=
          Option.not_isSome_iff_eq_none.mp (hkey ▸ Bool.false_ne_true)
        rw [hw]
        exact .inl ⟨rfl, rfl⟩
      | some v =>
        rw [hv, Option.isSome_some] at hkey
        obtain ⟨w, hw⟩ := Option.isSome_iff_exists.mp hkey.symm
        rw [hw]
        exact ih (hvalues key v w hv hw)

theorem Grouped.same (hgroups : Grouped members) (h : (Json.obj members).KeysOnce)
    (h' : (Json.obj members').KeysOnce) (hsame : Same (.obj members) (.obj members')) :
    Grouped members' := by
  intro group hgroup w hw
  have hfind := find?_same hsame [group]
  rw [find?_top, find?_top, ← get?_reverse h'.1, hw] at hfind
  rcases hfind with ⟨-, hnone⟩ | ⟨v, w, hv, hw', hvalue⟩
  · cases hnone
  · obtain rfl := Option.some.inj hw'
    obtain ⟨inner, rfl⟩ := hgroups group hgroup v (get?_reverse h.1 group ▸ hv)
    cases hvalue <;> exact ⟨_, rfl⟩

/-- A field has the same value in data with the same content. -/
theorem value_eq_iff {s : Settings} (hsame : Same a b) (ha : a.KeysOnce) (hb : b.KeysOnce)
    (f : Field) :
    s.value f = (mention? b f.path).getD (({} : Settings).value f) ↔
      s.value f = (mention? a f.path).getD (({} : Settings).value f) := by
  rw [mention?_eq_find? ha, mention?_eq_find? hb]
  rcases find?_same hsame f.path with ⟨hv, hw⟩ | ⟨v, w, hv, hw, hvalue⟩
  · rw [hv, hw]
  · rw [hv, hw, Option.getD_some, Option.getD_some]
    have hfree : (s.value f).ObjectFree := objectFree_of_fits (fits_value s f)
    constructor
    · rintro rfl
      exact hvalue.symm.eq_of_objectFree hfree
    · rintro rfl
      exact hvalue.eq_of_objectFree hfree

theorem ofData_same {format' : String} {s : Settings} (h : (Json.obj members).KeysOnce)
    (hb : b.KeysOnce) (hgroups : Grouped members) (hsame : Same (.obj members) b) :
    ofData format' b = .ok s ↔ ofData format (.obj members) = .ok s := by
  obtain ⟨members', rfl⟩ : ∃ members', b = .obj members' := by
    cases hsame <;> exact ⟨_, rfl⟩
  rw [ofData_eq_ok format h hgroups, ofData_eq_ok format' hb (hgroups.same h hb hsame)]
  exact forall_congr' (value_eq_iff hsame h hb)

/-- **Partial settings override what they mention.** A text of an object in which the groups of
settings are objects fails to load exactly when a field is mentioned with a value that is not of
its type, and otherwise loads as the settings in which every mentioned field has the value of its
last mention, and every other field its default: in JSON, however it is laid out, as long as it is
not nested too deeply for the reader, and in TOML. The text that settings are written as loads as
these settings, and a TOML text with the content of a JSON text loads as the same settings. -/
theorem settings_load :
    (∀ (s : Text) (members : List (String × Json)), Json.IsText s (.obj members) →
      Grouped members →
        ((Json.obj members).depth ≤ Json.maxDepth → Loads "JSON" members (ofJsonText s)) ∧
        (Json.maxDepth < (Json.obj members).depth →
          ofJsonText s = .error (.malformedSettings "JSON"))) ∧
    (∀ (t : Text) (members : List (String × Json)), Toml.parse? t = some (.obj members) →
      Grouped members → Loads "TOML" members (ofTomlText t)) ∧
    (∀ settings : Settings, ofJsonText (toJson settings).text = .ok settings ∧
      ∀ s, Json.IsText s (toJson settings) → ofJsonText s = .ok settings) ∧
    (∀ (s t : Text) (members : List (String × Json)) (content : Json),
      Json.parse? s = some (.obj members) → Grouped members →
        Toml.parse? t = some content → Same (.obj members) content →
          ∀ settings, ofTomlText t = .ok settings ↔ ofJsonText s = .ok settings) := by
  refine ⟨fun s members h hgroups =>
      ⟨fun hdepth => loads_ofJsonText h hdepth hgroups, fun hdepth => ofJsonText_of_deep h hdepth⟩,
    fun t members h hgroups => loads_ofTomlText h hgroups,
    fun settings => ⟨ofJsonText_toJson settings, fun s h => ofJsonText_of_isText h⟩,
    fun s t members content hjson hgroups htoml hsame settings => ?_⟩
  rw [ofJsonText_eq_ofData hjson, ofTomlText_eq_ofData htoml]
  exact ofData_same (Json.keysOnce_parse? hjson) (Toml.keysOnce_parse? htoml) hgroups hsame

theorem parse?_reordered : Toml.parse? "x = []\ndebug = false\n".toList =
    some (.obj [("x", .arr []), ("debug", .bool false)]) := by
  cbv

/-- A field that is mentioned twice, and a TOML text with the same content in another order. -/
theorem settings_load_repeated :
    let s := "\x7b\"debug\":true,\"debug\":false,\"x\":[]\x7d".toList
    let t := "x = []\ndebug = false\n".toList
    let members := [("debug", Json.bool true), ("debug", .bool false), ("x", .arr [])]
    let read := [("debug", Json.bool false), ("x", .arr [])]
    let content := Json.obj [("x", .arr []), ("debug", .bool false)]
    (Json.IsText s (.obj members) ∧ Grouped members ∧
      (Json.obj members).depth ≤ Json.maxDepth ∧ ofJsonText s = .ok { debug := false }) ∧
    (Json.parse? s = some (.obj read) ∧ Toml.parse? t = some content ∧ Same (.obj read) content ∧
      ofTomlText t = .ok { debug := false }) ∧
    ofJsonText (toJson { debug := false }).text = .ok { debug := false } := by
  intro s t members read content
  have htext : Json.IsText s (.obj members) :=
    ⟨[], .members rfl (.cons rfl rfl rfl (.true rfl) rfl (.cons rfl rfl rfl (.false rfl) rfl
      (.last rfl rfl rfl (.noItems rfl rfl) rfl))), rfl⟩
  have hgroups : Grouped members := grouped_of_absent (by simp [members, Dict.get?])
  have hdepth : (Json.obj members).depth ≤ Json.maxDepth := by decide
  have hload : Loads "JSON" members (ofJsonText s) :=
    (settings_load.1 s members htext hgroups).1 hdepth
  have hjson : ofJsonText s = .ok { debug := false } := hload.eq_ok fun f => by cases f <;> rfl
  have hread : Json.parse? s = some (.obj read) :=
    Json.parse?_eq_some_iff.mpr ⟨_, htext, hdepth, rfl⟩
  have htoml : Toml.parse? t = some content := parse?_reordered
  have hget : ∀ key, Dict.get? read key =
      Dict.get? [("x", Json.arr []), ("debug", .bool false)] key := by
    intro key
    by_cases hd : "debug" = key
    · subst hd
      rfl
    · simp [read, Dict.get?, hd]
  have hsame : Same (.obj read) content :=
    .obj (fun key => by rw [hget]) fun key v w hv hw =>
      Option.some.inj ((hv.symm.trans (hget key)).trans hw) ▸ .refl v
  have hgroups' : Grouped read := grouped_of_absent (by simp [read, Dict.get?])
  exact ⟨⟨htext, hgroups, hdepth, hjson⟩,
    ⟨hread, htoml, hsame,
    (settings_load.2.2.2 s t read content hread hgroups' htoml hsame _).mpr hjson⟩,
    (settings_load.2.2.1 { debug := false }).1⟩

/-- Arrays in each other, and nothing in the last. -/
def nested : Nat → Json
  | 0 => .arr []
  | n + 1 => .arr [nested n]

theorem depth_nested (n : Nat) : (nested n).depth = n + 1 := by
  induction n with
  | zero => rfl
  | succ n ih => rw [nested, Json.depth, Json.itemsDepth, Json.itemsDepth, ih, Nat.max_zero]

theorem written_nested (n : Nat) (rest : Text) :
    Json.Written (List.replicate (n + 1) '[' ++ (List.replicate (n + 1) ']' ++ rest)) (nested n)
      rest := by
  induction n generalizing rest with
  | zero => exact .noItems rfl rfl
  | succ n ih =>
    rw [List.replicate_succ (n := n + 1), List.replicate_succ' (n := n + 1), List.append_assoc]
    exact .items rfl (.last (ih (']' :: rest)) rfl)

/-- A text that is nested too deeply for the reader, although no field is mentioned in it. Neither
has the reader a value for a number that is out of range, or for half of a surrogate pair. -/
theorem settings_load_unread :
    let s := "\x7b\"x\":".toList ++
      (List.replicate 127 '[' ++ (List.replicate 127 ']' ++ "\x7d".toList))
    let members := [("x", nested 126)]
    Json.IsText s (.obj members) ∧ Grouped members ∧
      (∀ f : Field, mention? (.obj members) f.path = none) ∧
      ofJsonText s = .error (.malformedSettings "JSON") ∧
      ofJsonText "\x7b\"x\":1e999\x7d".toList = .error (.malformedSettings "JSON") ∧
      ofJsonText "\x7b\"x\":\"\\ud800\"\x7d".toList = .error (.malformedSettings "JSON") := by
  intro s members
  have htext : Json.IsText s (.obj members) :=
    ⟨[], .members rfl (.last rfl rfl rfl (written_nested 126 "\x7d".toList) rfl), rfl⟩
  have hgroups : Grouped members := grouped_of_absent (by simp [members, Dict.get?])
  have hdepth : Json.maxDepth < (Json.obj members).depth := by
    show 127 < max (nested 126).depth 0 + 1
    rw [depth_nested]
    decide
  have hrange : Json.parse? "\x7b\"x\":1e999\x7d".toList = none := by decide +kernel
  have hsurrogate : Json.parse? "\x7b\"x\":\"\\ud800\"\x7d".toList = none := by decide +kernel
  exact ⟨htext, hgroups, fun f => by cases f <;> rfl, ofJsonText_of_deep htext hdepth,
    ofJsonText_eq_error hrange, ofJsonText_eq_error hsurrogate⟩

end Stencil.Settings
