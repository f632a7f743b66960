import Stencil.Error
import Stencil.Json.Reader
import Stencil.Value.Html
import Stencil.Value.Path

/-!
# Contexts as data

A context is written as an object and read back from one. Reading refuses everything else.
-/

namespace Stencil.Context

/-- The context written by an object of the data notation. -/
def ofJson? : Json → Except Error Context
  | .obj members => .ok (Value.fieldsOfJson members)
  | other => .error (.contextNotObject (String.ofList other.text))

/-- Reads a context. -/
def parse (s : Text) : Except Error Context :=
  match Json.parse? s with
  | some json => ofJson? json
  | none => .error .malformedContext

/-- The context as an object. -/
def toJson (ctx : Context) : Json := .obj (Value.fieldsToJson ctx)

/-- The context in the data notation. -/
def text (ctx : Context) : Text := ctx.toJson.text

end Stencil.Context
