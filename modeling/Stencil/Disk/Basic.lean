import Stencil.Disk.FilePath

/-!
# The file system

The part of the file system that can be seen: files with their bytes, and directories. Every
entry is known by its place, the names that lead to it from the root.

A path is followed step by step. A step is possible in a directory only, so a path that goes on
behind a file leads nowhere, even if only by a slash.
-/

namespace Stencil

/-- An entry of the file system. -/
inductive Node where
  /-- A file. -/
  | file (bytes : ByteArray)
  /-- A directory. -/
  | directory

/-- The names that lead to an entry from the root. -/
abbrev Place := List Text

/-- The files and directories that can be seen. -/
structure Disk where
  /-- The entries by their place. The root is not among them. -/
  nodes : List (Place × Node)
  /-- Where relative paths start. -/
  workingPlace : Place
  /-- The size in bytes of the longest name, if names cannot have any length. -/
  nameLimit? : Option Nat := some 255

namespace Disk

/-- Why a path cannot be used. -/
inductive Fault where
  /-- There is no such entry. -/
  | notFound
  /-- A file stands where a directory should. -/
  | notADirectory
  /-- A directory stands where a file should. -/
  | isADirectory
  /-- A name is longer than names may be. -/
  | nameTooLong
  deriving DecidableEq, Repr

/-- Whether a name is short enough. -/
def admits (disk : Disk) (name : Text) : Bool :=
  match disk.nameLimit? with
  | some limit => name.utf8Size ≤ limit
  | none => true

/-- The entry at a place. -/
def get? (disk : Disk) (place : Place) : Option Node :=
  if place.isEmpty then some .directory else disk.nodes.lookup place

/-- Stores an entry. -/
def set (disk : Disk) (place : Place) (node : Node) : Disk :=
  { disk with nodes := (place, node) :: disk.nodes.filter (·.1 ≠ place) }

/-- Removes an entry. -/
def erase (disk : Disk) (place : Place) : Disk :=
  { disk with nodes := disk.nodes.filter (·.1 ≠ place) }

/-- Whether there is a directory at a place. -/
def hasDirectory (disk : Disk) (place : Place) : Bool :=
  match disk.get? place with
  | some .directory => true
  | _ => false

/-- Follows the names of a path from a place. -/
def walk (disk : Disk) : Place → List Text → Except Fault Place
  | place, [] => .ok place
  | place, piece :: rest =>
    if !disk.hasDirectory place then .error .notADirectory
    else if FilePath.isVoid piece then walk disk place rest
    else if piece = ['.', '.'] then walk disk place.dropLast rest
    else if !disk.admits piece then .error .nameTooLong
    else if (disk.get? (place ++ [piece])).isNone then .error .notFound
    else walk disk (place ++ [piece]) rest

/-- Where a path starts. -/
def origin (disk : Disk) (path : FilePath) : Place :=
  if path.isAbsolute then [] else disk.workingPlace

/-- The place that a path leads to. The empty path leads nowhere. -/
def locate (disk : Disk) (path : FilePath) : Except Fault Place :=
  if path.isEmpty then .error .notFound else disk.walk (disk.origin path) path.pieces

/-- Whether a path leads to a file. -/
def isFile (disk : Disk) (path : FilePath) : Bool :=
  match disk.locate path with
  | .ok place =>
    match disk.get? place with
    | some (.file _) => true
    | _ => false
  | .error _ => false

/-- Whether a path leads to a directory. -/
def isDirectory (disk : Disk) (path : FilePath) : Bool :=
  match disk.locate path with
  | .ok place => disk.hasDirectory place
  | .error _ => false

/-- The bytes of the file that a path leads to. -/
def read (disk : Disk) (path : FilePath) : Except Fault ByteArray := do
  match disk.get? (← disk.locate path) with
  | some (.file bytes) => return bytes
  | some .directory => throw .isADirectory
  | none => throw .notFound

/-- The text of the file that a path leads to; none if there is no file or it is no text. -/
def readText? (disk : Disk) (path : FilePath) : Option Text :=
  match disk.read path with
  | .ok bytes => (String.fromUTF8? bytes).map String.toList
  | .error _ => none

/-- Follows the names of a path from a place, and makes the directories that are missing. -/
def makeWay (disk : Disk) : Place → List Text → Except Fault Disk
  | place, [] => if disk.hasDirectory place then .ok disk else .error .notADirectory
  | place, piece :: rest =>
    if !disk.hasDirectory place then .error .notADirectory
    else if FilePath.isVoid piece then makeWay disk place rest
    else if piece = ['.', '.'] then makeWay disk place.dropLast rest
    else if !disk.admits piece then .error .nameTooLong
    else
      let next := place ++ [piece]
      makeWay (if (disk.get? next).isNone then disk.set next .directory else disk) next rest

/-- Makes the directory of a path, and those above it. -/
def makeDirectories (disk : Disk) (path : FilePath) : Except Fault Disk :=
  disk.makeWay (disk.origin path) path.pieces

/-- Writes a file of a directory. -/
def writeIn (disk : Disk) (dir : FilePath) (name : Text) (bytes : ByteArray) :
    Except Fault Disk := do
  let place ← disk.walk (disk.origin dir) dir.pieces
  if !disk.hasDirectory place then throw .notADirectory
  if !disk.admits name then throw .nameTooLong
  if disk.hasDirectory (place ++ [name]) then throw .isADirectory
  return disk.set (place ++ [name]) (.file bytes)

/-- The entries of a directory, by name. -/
def entries (disk : Disk) (place : Place) : List (Text × Node) :=
  disk.nodes.filterMap fun (other, node) =>
    match other.getLast? with
    | some name => if other.dropLast = place then some (name, node) else none
    | none => none

/-- The paths of all files below a place, relative to it and sorted. -/
def listing (disk : Disk) (place : Place) : List String :=
  let paths := disk.nodes.filterMap fun (other, node) =>
    match node with
    | .file _ =>
      if place.isPrefixOf other then
        some (String.ofList (['/'].intercalate (other.drop place.length)))
      else none
    | .directory => none
  paths.mergeSort fun a b => a ≤ b

/-- The number of bytes in all files, one more for each. -/
def size (disk : Disk) : Nat :=
  disk.nodes.foldl
    (fun n (_, node) =>
      match node with
      | .file bytes => n + bytes.size + 1
      | .directory => n)
    0

end Disk

end Stencil
