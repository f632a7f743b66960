import Stencil.Filter.Basic
import Stencil.Tag.Syntax

/-!
# Variables

A variable tag is replaced by the text of the value at its path, after its filters. It stays as
it is where its path is a word of another construct, leads nowhere, or leads to a list or object
that no filter turns into something with a text of its own.
-/

namespace Stencil

/-- The words that belong to other constructs and are never variables. -/
def reservedWords : List Text :=
  ["if", "elseif", "else", "endif", "end", "block", "endblock", "noparse"].map String.toList

/-- How variable tags are replaced. -/
structure Substitution where
  /-- The delimiters of the tags. -/
  delimiters : Delimiters
  /-- The filters that tags may use. -/
  filters : Filter.Registry
  /-- Whether a path that leads nowhere stands for null. -/
  clearUnresolved : Bool

namespace Substitution

/-- The value after the filters of a tag. A blank list of filters is none. -/
def filtered (σ : Substitution) (chain? : Option Text) (v : Value) : Value :=
  match chain? with
  | none => v
  | some chain => if chain.trim.isEmpty then v else σ.filters.run v (Filter.Chain.parse chain)

/-- What a variable tag is replaced by, if it is. -/
def text? (σ : Substitution) (ctx : Context) (v : Variable) : Option Text :=
  if reservedWords.any (· = v.path) then none
  else
    match ctx.resolve? v.path with
    | none => if σ.clearUnresolved then some (σ.filtered v.chain? .null).text else none
    | some value =>
      let value := σ.filtered v.chain? value
      if value.isScalar then some value.text else none

/-- Replaces the variable tags of a text. -/
def apply (σ : Substitution) (s : Text) (ctx : Context) : Text :=
  s.replaceTags σ.delimiters.variableTag fun t => (σ.text? ctx t.content).getD t.lexeme

end Substitution

end Stencil
