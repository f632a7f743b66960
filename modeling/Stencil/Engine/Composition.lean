import Stencil.Engine.Basic
import Stencil.Template.Ancestry
import Stencil.Template.Blocks
import Stencil.Template.Conditionals
import Stencil.Template.Loops
import Stencil.Template.Protection

/-!
# Composition

Composing a template gives one text without other templates: protected regions are put aside,
every include tag is replaced by the rendered template it names, and a template that extends
another is put into the place of its own tag, with its blocks handed on as definitions.

A template is never composed inside itself, so what composition goes through has as many names at
most as there are in memory and in the sources in files. The fuel is such a bound. It runs out only
where data makes tags, and these name a file in one way after the other; such a chain is given up as
a cycle.
-/

namespace Stencil

namespace Engine

/-- Renders a composed text: loops first, then variables, plugins over a whole document, and
conditionals. -/
def process (e : Engine) (ctx : Context) (isDocument : Bool) (s : Text) : Text :=
  let substitute := e.substitution.apply
  let renderBody (body : Text) (ctx : Context) : Text :=
    substitute (resolveConditionals e.delimiters ctx body) ctx
  let s := substitute (expandLoops e.delimiters renderBody s ctx) ctx
  let s := if isDocument then e.plugins.apply s ctx else s
  resolveConditionals e.delimiters ctx s

/-- What a render remembers while it composes. -/
structure Progress where
  /-- The protected regions put aside so far. -/
  regions : ProtectedRegions := []
  /-- The names of templates asked for so far. -/
  requests : List String := []

/-- A step of composition, which may fail. -/
abbrev Composing := ExceptT (Stop Error) (StateM Progress)

/-- What a step of composition comes to, and what is remembered then. -/
abbrev Composed (α : Type) := Except (Stop Error) α × Progress

/-- Loads a template and puts its protected regions aside. -/
def request (e : Engine) (disk : Disk) (name : String) : Composing Text := do
  modify fun p => { p with requests := p.requests ++ [name] }
  match Loader.loadFirst disk e.allLoaders name with
  | .error err => throw (.failed err)
  | .ok source =>
    let p ← get
    let (source, regions) := ProtectedRegions.extract e.delimiters p.regions source
    set { p with regions }
    return source

/-- Composes a template inside others, given the definitions of more derived templates. -/
def compose (e : Engine) (disk : Disk) (ctx : Context) :
    (fuel : Nat) → Ancestry → Blocks → String → Composing Text
  | 0, _, _, _ => throw .outOfFuel
  | fuel + 1, ancestry, definitions, name => do
    let ancestry ← liftM ((ancestry.enter name).mapError Stop.failed)
    let source ← e.request disk name
    let edits ← (Tag.scan e.delimiters.includeTag source).mapM fun t => do
      let included ← compose e disk ctx fuel ancestry [] t.content
      return (⟨t.start, t.stop, e.process ctx false included⟩ : Edit)
    let text := source.splice edits
    match (Tag.scan e.delimiters.baseTag text).head? with
    | none => return definitions.resolve e.delimiters [] text
    | some t => do
      let definitions := Blocks.collect e.delimiters text definitions
      let base ← compose e disk ctx fuel ancestry definitions t.content
      let rest := Blocks.strip e.delimiters text
      match (Tag.scan e.delimiters.baseTag rest).head? with
      | some t => return rest.splice [⟨t.start, t.stop, base⟩]
      | none => return rest ++ base

/-- A bound on the number of templates composed inside each other: the names in memory, and the
characters in files. -/
def depthBound (e : Engine) (disk : Disk) : Nat :=
  e.allLoaders.foldl (fun n loader => n + loader.capacity disk) 2

/-- Why a template is not rendered, given what its composition has stopped with. -/
def reason (name : String) : Stop Error → Error
  | .failed err => err
  | .outOfFuel => .cycle [name]

/-- Renders a template, given the context to work with; with the names of the templates asked
for. -/
def renderFresh (e : Engine) (disk : Disk) (name : String) (ctx : Context) :
    Except Error Text × List String :=
  let (result, progress) := (e.compose disk ctx (e.depthBound disk) [] [] name).run {}
  match result with
  | .ok composed =>
    (.ok (progress.regions.restore (e.process ctx true composed)), progress.requests)
  | .error stop => (.error (reason name stop), progress.requests)

end Engine

end Stencil
