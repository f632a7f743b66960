import Stencil.Tag.Balance
import Stencil.Tag.Syntax
import Stencil.Value.Path

/-!
# Loops

A loop repeats its body for every row of a list. The bound form `{row in rows}…{end rows}` gives
the body each row under a name, the legacy form `{rows}…{/rows}` lays it over the context. Next
to the row's fields stand `index`, which counts from zero, and `i`, which counts from one; a
field of the row with such a name goes before them. A row that is no object stands under
`value`.

An opening tag without its closing tag is no loop and stays as it is.
-/

namespace Stencil

namespace Loop

/-- What a row gives to the body of a loop. -/
def bindings (index : Nat) (row : Value) : Context :=
  let counters : Context :=
    [("index", .int (Int64.ofNat index)), ("i", .int (Int64.ofNat (index + 1)))]
  match row with
  | .object fields => counters.merge fields
  | row => counters.set "value" row

/-- The context that the body of a loop has for a row. -/
def rowContext (form : LoopForm) (outer : Context) (index : Nat) (row : Value) : Context :=
  match form with
  | .bound name => outer.set name (.object (bindings index row))
  | .legacy => outer.merge (bindings index row)

/-- The opening tags of loops, from left to right. A legacy one must have a closing tag of its
path anywhere in the text. -/
def openings (d : Delimiters) (s : Text) : List (Tag LoopHead) :=
  let closed := (Tag.scan d.legacyClosing s).map (·.content)
  let legacy := (Tag.scan d.legacyOpening s).filter fun t => t.content.path ∈ closed
  (Tag.scan d.loopOpening s).merge legacy fun a b => a.start ≤ b.start

/-- The closing tag of a loop. -/
def closing? (d : Delimiters) (s : Text) (t : Tag LoopHead) : Option (Tag Text) :=
  match t.content.form with
  | .bound _ => Tag.closing? (d.loopOpening.map (·.path)) d.loopClosing t.content.path s t.stop
  | .legacy =>
    Tag.closing? (d.legacyOpening.map (·.path)) d.legacyClosing t.content.path s t.stop

/-- The outermost loops of a text. -/
def outermost (d : Delimiters) (s : Text) : List (Tag.Enclosure LoopHead Text) :=
  Tag.outermost (closing? d s) 0 (openings d s)

/-- The rows of a loop; none if there is no list at its path. -/
def rows (ctx : Context) (head : LoopHead) : List Value :=
  match ctx.resolve? head.path with
  | some (.list items) => items
  | _ => []

end Loop

/-- Expands the loops of a text. The body of a loop is expanded first and then rendered, once for
every row and in its context. -/
def expandLoops (d : Delimiters) (render : Text → Context → Text) (s : Text) (ctx : Context) :
    Text :=
  if _h : s = [] then []
  else
    s.splice ((Loop.outermost d s).map fun loop =>
      ⟨loop.opening.start, loop.closing.stop,
        (Loop.rows ctx loop.opening.content).zipIdx.flatMap fun (row, index) =>
          let ctx := Loop.rowContext loop.opening.content.form ctx index row
          render (expandLoops d render (loop.body s) ctx) ctx⟩)
termination_by s.length
decreasing_by exact loop.length_body_lt ‹_›

end Stencil
