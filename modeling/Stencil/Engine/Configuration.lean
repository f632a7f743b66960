import Stencil.Engine.Basic

/-!
# Changes of the configuration

Between two renders the configuration of an engine may change. A change that fails leaves the
engine as it was. What is cached stays in the store.
-/

namespace Stencil

/-- A change of the configuration. -/
inductive Change where
  /-- Tags stand between other delimiters. -/
  | delimiters (left right : String)
  /-- A filter is added, in the place of the one of its name. -/
  | filter (name : String) (filter : Filter)
  /-- A plugin is added, in the place of the one of its name or behind all others. -/
  | plugin (name : String) (plugin : Plugin)
  /-- The strings of contexts are escaped, or no longer. -/
  | autoEscape (on : Bool)
  /-- Tags without a value are removed, or no longer. -/
  | clearUnresolved (on : Bool)
  /-- Values are laid over the defaults. -/
  | data (data : Context)
  /-- One default is set. -/
  | assign (key : String) (value : Value)
  /-- Output is cached, or no longer. -/
  | cache (on : Bool)

namespace Engine

/-- Makes a change. -/
def configure (e : Engine) : Change → Except Error Engine
  | .delimiters left right => do
    let delimiters ← Delimiters.of? left right
    return { e with delimiters }
  | .filter name filter => return { e with filters := Dict.set e.filters name filter }
  | .plugin name plugin => return { e with plugins := Dict.set e.plugins name plugin }
  | .autoEscape on => return { e with autoEscape := on }
  | .clearUnresolved on => return { e with clearUnresolved := on }
  | .data data => return { e with defaults := e.defaults.merge data }
  | .assign key value => return { e with defaults := e.defaults.set key value }
  | .cache on => return { e with cacheEnabled := on }

/-- The engine after a change, whether or not it fails. -/
def configured (e : Engine) (change : Change) : Engine :=
  match e.configure change with
  | .ok e => e
  | .error _ => e

end Engine

end Stencil
