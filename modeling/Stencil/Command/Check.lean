import Stencil.Disk.Basic
import Stencil.Engine.Basic

/-!
# Checking settings

The check finds what would keep an engine from working, and what probably is not meant.
-/

namespace Stencil

/-- How serious a finding is. -/
inductive Severity where
  /-- Something to know. -/
  | info
  /-- Something that is probably not meant. -/
  | warning
  /-- Something that cannot work. -/
  | error
  deriving DecidableEq, Repr

/-- A severity in a word. -/
def Severity.label : Severity → String
  | .info => "INFO"
  | .warning => "WARNING"
  | .error => "ERROR"

/-- Something found about settings. -/
structure Finding where
  /-- How serious it is. -/
  severity : Severity
  /-- What identifies it. -/
  id : String
  /-- What it is. -/
  message : String
  /-- What can be done about it. -/
  hint? : Option String := none
  deriving DecidableEq, Repr

namespace Settings

/-- What is found about the template directories. -/
def dirFindings (disk : Disk) (dirs : List String) : List Finding :=
  let missing := dirs.filter fun dir => !disk.isDirectory dir.toList
  (if dirs.isEmpty then
    [⟨.warning, "templates.W001", "No template directories configured",
      some "Set templates.dirs or SIGIL_TEMPLATE_DIRS"⟩]
   else []) ++
  missing.map fun dir =>
    ⟨.error, "templates.E001", "Template directory '" ++ dir ++ "' does not exist", none⟩

/-- What is found about the delimiters. -/
def delimiterFindings (left right : String) : List Finding :=
  if left = "" || right = "" then
    [⟨.error, "templates.E002", "Template delimiters must not be empty", none⟩]
  else if left = right then
    [⟨.warning, "templates.W002", "Left and right delimiters are both '" ++ left ++ "'",
      some "Identical delimiters make adjacent tags ambiguous"⟩]
  else []

/-- What is found about the cache. -/
def cacheFindings (cache : CacheSettings) : List Finding :=
  if cache.backend = "memory" then []
  else if cache.backend = "file" then
    match cache.location? with
    | some _ => []
    | none =>
      [⟨.error, "cache.E002", "The file cache backend has no location",
        some "Set cache.location or SIGIL_CACHE_DIR"⟩]
  else
    [⟨.error, "cache.E001", "Unknown cache backend '" ++ cache.backend ++ "'",
      some "Use \"memory\" or \"file\""⟩]

/-- Everything found about settings. If nothing else is wrong, an engine must be possible. -/
def findings (disk : Disk) (s : Settings) : List Finding :=
  let found := dirFindings disk s.templates.dirs ++
    delimiterFindings s.templates.leftDelimiter s.templates.rightDelimiter ++
    cacheFindings s.cache
  if found.any (·.severity = .error) then found
  else
    match Engine.ofSettings s.templates s.cache with
    | .ok _ => found
    | .error e => found ++ [⟨.error, "engine.E001", e.message, none⟩]

/-- The number of errors in some settings. -/
def errorCount (disk : Disk) (s : Settings) : Nat :=
  ((s.findings disk).filter (·.severity = .error)).length

end Settings

end Stencil
