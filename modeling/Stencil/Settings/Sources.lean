import Stencil.Disk.Basic
import Stencil.Settings.Data
import Stencil.Text.Case

/-!
# Where settings come from

Settings are read from a file, and the environment overrides them: each variable that is set
replaces the setting that it is for. Asking for a cache directory also asks for a cache made of
files.
-/

namespace Stencil

/-- The values of variables that are set. -/
abbrev Environment := String → Option String

namespace Settings

/-- The truth value that a text stands for. Blanks around it and its case do not count. -/
def flagOfText (s : String) : Bool :=
  String.ofList (Text.lower (Text.trim s.toList)) ∈ ["true", "1", "yes", "on"]

/-- The directories of a list separated by colons. Empty ones do not count. -/
def dirsOfText (s : String) : List String :=
  ((Text.splitOn ':' s.toList).filter fun dir => !dir.isEmpty).map String.ofList

/-- Settings overridden by the environment. -/
def override (s : Settings) (env : Environment) : Settings where
  debug := ((env "SIGIL_DEBUG").map flagOfText).getD s.debug
  logLevel := (env "SIGIL_LOG_LEVEL").getD s.logLevel
  templates :=
    { s.templates with
      dirs := ((env "SIGIL_TEMPLATE_DIRS").map dirsOfText).getD s.templates.dirs
      autoEscape := ((env "SIGIL_AUTO_ESCAPE").map flagOfText).getD s.templates.autoEscape }
  cache :=
    let enabled := ((env "SIGIL_CACHE_ENABLED").map flagOfText).getD s.cache.enabled
    match env "SIGIL_CACHE_DIR" with
    | some dir => ⟨enabled, "file", some dir⟩
    | none => { s.cache with enabled }

/-- The default settings, overridden by the environment. -/
def ofEnvironment (env : Environment) : Settings := override {} env

/-- The text of a settings file. -/
def readFile (disk : Disk) (format path : String) : Except Error Text :=
  match disk.readText? path.toList with
  | some text => .ok text
  | none => .error (.unreadableSettings format path)

/-- Reads a settings file in TOML. -/
def ofTomlFile (disk : Disk) (path : String) : Except Error Settings := do
  ofTomlText (← readFile disk "TOML" path)

/-- Reads a settings file in JSON. -/
def ofJsonFile (disk : Disk) (path : String) : Except Error Settings := do
  ofJsonText (← readFile disk "JSON" path)

end Settings

end Stencil
