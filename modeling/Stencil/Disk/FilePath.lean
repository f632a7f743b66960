import Stencil.Text.Basic

/-!
# File paths

A path is the text that names a file: names separated by slashes. Two slashes in a row count as
one, and a point for a name means the directory itself, which says something only at the front
of a relative path.

The extension of a name is what follows its last point, unless the point comes first.
-/

namespace Stencil

/-- A path, as it is written. -/
abbrev FilePath := Text

namespace FilePath

/-- A step of a path. -/
inductive Component where
  /-- From the root. -/
  | root
  /-- To the directory itself. -/
  | current
  /-- To the directory above. -/
  | parent
  /-- To an entry of the directory. -/
  | normal (name : Text)
  deriving DecidableEq, Repr

/-- Whether a path starts at the root. -/
def isAbsolute (p : FilePath) : Bool := p.head? = some '/'

/-- The names between the slashes. -/
def pieces (p : FilePath) : List Text := p.splitOn '/'

/-- Whether a name between slashes says nothing. -/
def isVoid (piece : Text) : Bool := piece.isEmpty || piece = ['.']

/-- The steps that pieces say. -/
def stepsOf (pieces : List Text) : List Component :=
  (pieces.filter fun piece => !isVoid piece).map fun piece =>
    if piece = ['.', '.'] then .parent else .normal piece

/-- The steps of a path. -/
def components (p : FilePath) : List Component :=
  let steps := stepsOf p.pieces
  if p.isAbsolute then .root :: steps
  else if p.pieces.head? = some ['.'] then .current :: steps
  else steps

/-- The pieces up to the last one that says something. -/
def trimmedPieces (p : FilePath) : List Text := (p.pieces.reverse.dropWhile isVoid).reverse

/-- The name that a path ends in, if its last step leads to an entry. -/
def fileName? (p : FilePath) : Option Text :=
  match p.trimmedPieces.getLast? with
  | some piece => if piece = ['.', '.'] then none else some piece
  | none => none

/-- What follows the last point of a name; none if there is nothing in front of that point. -/
def extensionOf? (name : Text) : Option Text :=
  let extension := name.reverse.takeWhile (· ≠ '.')
  if extension.length + 1 < name.length then some extension.reverse else none

/-- The extension of a path. -/
def extension? (p : FilePath) : Option Text := p.fileName?.bind extensionOf?

/-- Puts an extension behind the name that a path ends in. -/
def addExtension (p : FilePath) (extension : Text) : FilePath :=
  match p.fileName? with
  | none => p
  | some _ => ['/'].intercalate p.trimmedPieces ++ '.' :: extension

/-- A path that starts where another leads. -/
def join (dir p : FilePath) : FilePath :=
  if p.isAbsolute then p
  else if dir.isEmpty || dir.getLast? = some '/' then dir ++ p
  else dir ++ '/' :: p

/-- Whether a path stays inside the directory it starts from. -/
def isContained (p : FilePath) : Bool :=
  p.components.all fun step =>
    match step with
    | .root | .parent => false
    | .current | .normal _ => true

end FilePath

end Stencil
