import Stencil.Error

/-!
# Ancestry

While a template is composed, the templates that led to it are its ancestors. A template may be
used any number of times, but never inside itself.
-/

namespace Stencil

/-- The templates being composed, from the outermost to the innermost. -/
abbrev Ancestry := List String

namespace Ancestry

/-- Enters a template. -/
def enter (names : Ancestry) (name : String) : Except Error Ancestry :=
  if name ∈ names then .error (.cycle (names ++ [name])) else .ok (names ++ [name])

/-- Leaves the innermost template. -/
def leave (names : Ancestry) : Ancestry := names.dropLast

end Ancestry

end Stencil
