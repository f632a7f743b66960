import Stencil.Error
import Stencil.Json.Reader
import Stencil.Settings.Basic
import Stencil.Toml.Document

/-!
# Settings as data

Settings are written as an object, and read from one that is laid over the defaults: what it
mentions counts, all else stays. An object is laid over another member by member, and every
other value takes the place of the one below.

A group of settings may also be written as an array of all its fields in order.
-/

namespace Stencil

mutual

/-- One value laid over another. -/
def Json.over : (upper lower : Json) → Json
  | .obj members, .obj base => .obj (Json.membersOver members base)
  | upper, _ => upper

/-- Members laid over the members of an object. -/
def Json.membersOver : (upper : List (String × Json)) → (lower : List (String × Json)) →
    List (String × Json)
  | [], lower => lower
  | (k, v) :: rest, lower =>
    Json.membersOver rest
      (Dict.set lower k
        (match Dict.get? lower k with
          | some old => Json.over v old
          | none => v))

end

namespace Settings

/-- A string or nothing, as data. -/
def optionToJson : Option String → Json
  | some s => .str s
  | none => .null

/-- The settings of templates as data. -/
def templatesToJson (t : TemplateSettings) : Json :=
  .obj
    [("dirs", .arr (t.dirs.map .str)),
     ("extension", optionToJson t.extension?),
     ("left_delimiter", .str t.leftDelimiter),
     ("right_delimiter", .str t.rightDelimiter),
     ("auto_escape", .bool t.autoEscape),
     ("clear_unresolved", .bool t.clearUnresolved)]

/-- The settings of the cache as data. -/
def cacheToJson (c : CacheSettings) : Json :=
  .obj
    [("enabled", .bool c.enabled),
     ("backend", .str c.backend),
     ("location", optionToJson c.location?)]

/-- Settings as data. -/
def toJson (s : Settings) : Json :=
  .obj
    [("debug", .bool s.debug),
     ("log_level", .str s.logLevel),
     ("templates", templatesToJson s.templates),
     ("cache", cacheToJson s.cache)]

/-- The fields of a group of settings, in order: members of an object by their names, or all
items of an array. -/
def fields? (names : List String) : Json → Option (List (Option Json))
  | .obj members => some (names.map fun name => Dict.get? members name)
  | .arr items => if items.length = names.length then some (items.map some) else none
  | _ => none

/-- A truth value. -/
def bool? : Option Json → Option Bool
  | some (.bool b) => some b
  | _ => none

/-- A string. -/
def string? : Option Json → Option String
  | some (.str s) => some s
  | _ => none

/-- A string or nothing. -/
def option? : Option Json → Option (Option String)
  | some (.str s) => some (some s)
  | some .null => some none
  | none => some none
  | _ => none

/-- A list of strings. -/
def strings? : Option Json → Option (List String)
  | some (.arr items) => items.mapM fun item => string? (some item)
  | _ => none

/-- The settings of templates that data stands for. -/
def templates? (json : Json) : Option TemplateSettings := do
  match ← fields? ["dirs", "extension", "left_delimiter", "right_delimiter", "auto_escape",
    "clear_unresolved"] json with
  | [dirs, extension, left, right, escape, clear] =>
    return {
      dirs := ← strings? dirs
      extension? := ← option? extension
      leftDelimiter := ← string? left
      rightDelimiter := ← string? right
      autoEscape := ← bool? escape
      clearUnresolved := ← bool? clear }
  | _ => none

/-- The settings of the cache that data stands for. -/
def cache? (json : Json) : Option CacheSettings := do
  match ← fields? ["enabled", "backend", "location"] json with
  | [enabled, backend, location] =>
    return {
      enabled := ← bool? enabled
      backend := ← string? backend
      location? := ← option? location }
  | _ => none

/-- The settings that data stands for. -/
def ofJson? (json : Json) : Option Settings := do
  match ← fields? ["debug", "log_level", "templates", "cache"] json with
  | [debug, level, templates, cache] =>
    return {
      debug := ← bool? debug
      logLevel := ← string? level
      templates := ← templates? (← templates)
      cache := ← cache? (← cache) }
  | _ => none

/-- The settings that data mentions, and the defaults of all others. -/
def ofData (format : String) (json : Json) : Except Error Settings :=
  match ofJson? (json.over (toJson {})) with
  | some settings => .ok settings
  | none => .error (.illTypedSettings format)

/-- Reads settings in JSON. -/
def ofJsonText (s : Text) : Except Error Settings :=
  match Json.parse? s with
  | some json => ofData "JSON" json
  | none => .error (.malformedSettings "JSON")

/-- Reads settings in TOML. -/
def ofTomlText (s : Text) : Except Error Settings :=
  match Toml.parse? s with
  | some json => ofData "TOML" json
  | none => .error (.malformedSettings "TOML")

end Settings

end Stencil
