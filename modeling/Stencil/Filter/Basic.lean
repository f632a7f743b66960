import Stencil.Error
import Stencil.Text.Quoted
import Stencil.Value.Context

/-!
# Filters

A filter transforms one value, given the parameters written in the tag. Filters are found by
name in a registry. A chain runs its stages from left to right; a stage without a filter, or
whose filter fails, hands on the value it was given, so a chain never fails.
-/

namespace Stencil

/-- A transformation of a value by parameters. -/
abbrev Filter := Value → List String → Except FilterError Value

namespace Filter

/-- One stage of a chain. -/
structure Stage where
  /-- The name of the filter. -/
  name : String
  /-- The parameters. -/
  params : List String
  deriving DecidableEq, Repr

namespace Stage

/-- Reads a stage: a name, and after a colon parameters separated by commas. Blanks around them
do not count, and a blank text is no stage. -/
def parse? (s : Text) : Option Stage :=
  let s := s.trim
  if s.isEmpty then none
  else
    match s.splitOnce? ':' with
    | none => some ⟨String.ofList s, []⟩
    | some (name, params) =>
      some ⟨String.ofList name.trim, (params.splitOn ',').map fun p => String.ofList p.trim⟩

end Stage

/-- A row of stages. -/
abbrev Chain := List Stage

/-- Reads a chain: stages separated by bars. -/
def Chain.parse (s : Text) : Chain := (s.splitOn '|').filterMap Stage.parse?

/-- Filters by name. -/
abbrev Registry := Dict Filter

namespace Registry

/-- Applies the filter of a name. -/
def apply (r : Registry) (name : String) (v : Value) (params : List String) :
    Except FilterError Value :=
  match r.get? name with
  | none => .error (.unknown name)
  | some filter => filter v params

/-- The value after one stage of a chain. -/
def stage (r : Registry) (v : Value) (s : Stage) : Value :=
  match r.apply s.name v s.params with
  | .ok w => w
  | .error _ => v

/-- The value after a chain. -/
def run (r : Registry) (v : Value) (chain : Chain) : Value := chain.foldl r.stage v

/-- The filters in words, by name in order. -/
def describe (r : Registry) : String :=
  let names := r.keys.mergeSort fun a b => a ≤ b
  "FilterRegistry \x7b filters: " ++ String.ofList (Text.quotedList (names.map String.toList)) ++
    " \x7d"

end Registry

end Filter

end Stencil
