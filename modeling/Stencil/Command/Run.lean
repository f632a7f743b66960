import Stencil.Cache.Store
import Stencil.Command.Assignment
import Stencil.Command.Basic
import Stencil.Command.Check
import Stencil.Engine.Render
import Stencil.Settings.Sources

/-!
# Running commands

A command works on the file system and with the settings of the environment. It gives the output
and the file system afterwards, and may fail.
-/

namespace Stencil

/-- What a command gives. -/
structure CommandResult where
  /-- Whether the command succeeded. -/
  outcome : Except Error Unit
  /-- What it has written. -/
  output : Text
  /-- The file system afterwards. -/
  disk : Disk

namespace Command

/-- Settings changed by the arguments of a render. Without a directory, templates are in the
working directory. -/
def applyArguments (s : Settings) (a : Arguments) : Settings :=
  let dirs := s.templates.dirs ++ a.valuesOf "dir"
  { s with
    templates :=
      { s.templates with
        dirs := if dirs.isEmpty then ["."] else dirs
        leftDelimiter := (a.value? "left").getD s.templates.leftDelimiter
        rightDelimiter := (a.value? "right").getD s.templates.rightDelimiter
        autoEscape := s.templates.autoEscape && !a.hasFlag "no-escape" }
    cache := { s.cache with enabled := s.cache.enabled && !a.hasFlag "no-cache" } }

/-- Renders a template with an engine that caches as it is configured to. -/
def renderWith (e : Engine) (disk : Disk) (name : String) (ctx : Context) : CommandResult :=
  match e.backend with
  | .memory =>
    let (rendered, output) := e.emit disk .memory .text [] [] name ctx
    ⟨rendered.outcome.map fun _ => (), output, disk⟩
  | .files dir =>
    let (rendered, output) := e.emit disk (.files dir) .text disk [] name ctx
    ⟨rendered.outcome.map fun _ => (), output, rendered.store⟩

/-- What a render needs: the engine, the name of the template and the context. -/
def prepareRender (disk : Disk) (env : Environment) (s : Settings) (a : Arguments) :
    Except Error (Engine × String × Context) := do
  let s ←
    match a.value? "config" with
    | some path => (Settings.ofTomlFile disk path).map (·.override env)
    | none => pure s
  let s := applyArguments s a
  let ctx ← Context.build disk (a.value? "context") (a.valuesOf "set")
  return (← Engine.ofSettings s.templates s.cache, a.argument?.getD "", ctx)

/-- Removes the cache files that settings lead to, and counts them. -/
def clearFileCache (disk : Disk) (s : Settings) : Except Error (Nat × Disk) :=
  match s.cache.location? with
  | some dir =>
    if s.cache.backend = "file" then disk.removeCacheFiles dir.toList else .ok (0, disk)
  | none => .ok (0, disk)

/-- Runs a command with its arguments. -/
def run (disk : Disk) (env : Environment) (s : Settings) (command : Command) (a : Arguments) :
    CommandResult :=
  match command with
  | .check =>
    let count := s.errorCount disk
    ⟨if count = 0 then .ok () else .error (.failedChecks count), [], disk⟩
  | .clearCache =>
    match clearFileCache disk s with
    | .ok (_, disk) => ⟨.ok (), [], disk⟩
    | .error e => ⟨.error e, [], disk⟩
  | .render =>
    match prepareRender disk env s a with
    | .ok (e, name, ctx) => renderWith e disk name ctx
    | .error e => ⟨.error e, [], disk⟩

end Command

end Stencil
