import Stencil.Disk.Basic
import Stencil.Value.Context

/-!
# Contexts from a command line

A context is read from a file, and changed by assignments such as `user.name=Ana`. The key is a
path of names separated by points; objects on the way are made where there are none. The value is
data, if it reads as data, and a string otherwise.
-/

namespace Stencil

/-- The members of an object. -/
abbrev Members := Dict Json

namespace Members

/-- Stores a value at a path. What stands in the way gives way to an object. -/
def setPath (v : Json) : List String → Members → Members
  | [], members => members
  | [key], members => members.set key v
  | key :: path, members =>
    let inner :=
      match members.get? key with
      | some (.obj inner) => inner
      | _ => []
    members.set key (.obj (setPath v path inner))

/-- The value at a path. -/
def getPath? : List String → Members → Option Json
  | [], _ => none
  | [key], members => members.get? key
  | key :: path, members =>
    match members.get? key with
    | some (.obj inner) => getPath? path inner
    | _ => none

end Members

/-- A value to be stored at a path. -/
structure Assignment where
  /-- The names on the path. -/
  path : List String
  /-- The value. -/
  value : Json

namespace Assignment

/-- The value that a text stands for. -/
def valueOf (raw : Text) : Json := (Json.parse? raw).getD (.str (String.ofList raw))

/-- The names on a path. -/
def pathOf (key : Text) : List String := (key.splitOn '.').map String.ofList

/-- Reads an assignment. -/
def read (s : String) : Except Error Assignment :=
  match Text.splitOnce? '=' s.toList with
  | none => .error (.malformedAssignment s)
  | some (key, raw) =>
    if key.trim.isEmpty then .error (.emptyAssignmentKey s)
    else .ok ⟨pathOf key.trim, valueOf raw⟩

/-- Makes an assignment. -/
def apply (a : Assignment) (members : Members) : Members := members.setPath a.value a.path

end Assignment

namespace Context

/-- The object in a context file. -/
def readFile (disk : Disk) (path : String) : Except Error Members :=
  match disk.readText? path.toList with
  | none => .error (.io "a context file cannot be read")
  | some text =>
    match Json.parse? text with
    | some (.obj members) => .ok members
    | some _ => .error (.contextFileNotObject path)
    | none => .error (.malformedContextFile path)

/-- The context of a file, changed by assignments. -/
def build (disk : Disk) (file? : Option String) (assignments : List String) :
    Except Error Context := do
  let members ←
    match file? with
    | some path => readFile disk path
    | none => pure []
  let members ← assignments.foldlM (fun members s => do return (← Assignment.read s).apply members)
    members
  return Value.fieldsOfJson members

end Context

end Stencil
