import Stencil.Text.Quoted
import Stencil.Value.Basic

/-!
# Plugins

A plugin changes a whole document. Plugins run in the order in which they were registered. One
registered under a name that is taken replaces the plugin of that name, in its place.
-/

namespace Stencil

/-- A transformation of a document, given its context. -/
abbrev Plugin := Text → Context → Text

/-- Plugins by name, in the order in which they run. -/
abbrev Plugins := Dict Plugin

namespace Plugins

/-- Runs every plugin over a document. -/
def apply (plugins : Plugins) (s : Text) (ctx : Context) : Text :=
  plugins.foldl (fun s (_, plugin) => plugin s ctx) s

/-- The plugins in words. -/
def describe (plugins : Plugins) : String :=
  "PluginRegistry \x7b plugins: " ++
    String.ofList (Text.quotedList (plugins.keys.map String.toList)) ++ " \x7d"

end Plugins

end Stencil
