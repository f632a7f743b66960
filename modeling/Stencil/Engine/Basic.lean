import Stencil.Filter.Builtin
import Stencil.Settings.Basic
import Stencil.Tag.Syntax
import Stencil.Template.Loader
import Stencil.Template.Plugins
import Stencil.Template.Variables

/-!
# Engines

An engine is the configuration that renders share. Nothing in it changes while it renders.
-/

namespace Stencil

/-- Where an engine caches its output. -/
inductive CacheBackend where
  /-- In memory. -/
  | memory
  /-- In the files of a directory. -/
  | files (dir : FilePath)
  deriving DecidableEq, Repr

/-- The cache that settings ask for. -/
def CacheBackend.ofSettings (settings : CacheSettings) : Except Error CacheBackend :=
  if settings.backend = "memory" then .ok .memory
  else if settings.backend = "file" then
    match settings.location? with
    | some dir => .ok (.files dir.toList)
    | none => .error .missingCacheLocation
  else .error (.unknownCacheBackend settings.backend)

/-- The configuration of renders. -/
structure Engine where
  /-- The delimiters of tags. -/
  delimiters : Delimiters := .braces
  /-- The filters that tags may use. -/
  filters : Filter.Registry := .builtin
  /-- The plugins that documents pass through. -/
  plugins : Plugins := []
  /-- The sources in memory, which go before every loader. -/
  sources : Sources := []
  /-- The loaders behind the sources in memory. -/
  loaders : List Loader := []
  /-- The values that every render has, unless its context has others. -/
  defaults : Context := []
  /-- Where output is cached. -/
  backend : CacheBackend := .memory
  /-- Whether output is cached. -/
  cacheEnabled : Bool := true
  /-- Whether the strings of contexts are escaped. -/
  autoEscape : Bool := true
  /-- Whether tags without a value are removed. -/
  clearUnresolved : Bool := false

namespace Engine

/-- The engine that settings ask for. -/
def ofSettings (templates : TemplateSettings) (cache : CacheSettings) : Except Error Engine := do
  let delimiters ← Delimiters.of? templates.leftDelimiter templates.rightDelimiter
  let backend ← CacheBackend.ofSettings cache
  return {
    delimiters
    backend
    loaders := [.ofDirectories (templates.dirs.map String.toList) templates.extension?]
    cacheEnabled := cache.enabled
    autoEscape := templates.autoEscape
    clearUnresolved := templates.clearUnresolved }

/-- All loaders, in the order in which they are asked. -/
def allLoaders (e : Engine) : List Loader := .memory e.sources :: e.loaders

/-- How an engine replaces variable tags. -/
def substitution (e : Engine) : Substitution := ⟨e.delimiters, e.filters, e.clearUnresolved⟩

/-- The context that a render works with: its own over the defaults, escaped if asked for. -/
def effectiveContext (e : Engine) (ctx : Context) : Context :=
  let merged : Context := e.defaults.merge ctx
  if e.autoEscape then merged.escaped else merged

/-- A truth value in words. -/
def flagText (b : Bool) : String := if b then "true" else "false"

/-- The engine in words. -/
def describe (e : Engine) : String :=
  let quoted (s : Text) := String.ofList s.quoted
  let natural (n : Nat) := String.ofList (Decimal.natText n)
  "Engine \x7b delimiters: Delimiters \x7b left: " ++ quoted e.delimiters.left ++
    ", right: " ++ quoted e.delimiters.right ++ " \x7d, filters: " ++ e.filters.describe ++
    ", plugins: " ++ e.plugins.describe ++
    ", loaders: LoaderChain \x7b loaders: " ++ natural e.allLoaders.length ++
    " \x7d, cache_enabled: " ++ flagText e.cacheEnabled ++
    ", auto_escape: " ++ flagText e.autoEscape ++
    ", clear_unresolved: " ++ flagText e.clearUnresolved ++ ", .. \x7d"

end Engine

end Stencil
