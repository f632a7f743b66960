import Stencil.Dict
import Stencil.Disk.Basic
import Stencil.Error

/-!
# Loaders

A loader finds the source of a template by its name: among sources in memory, or among the files
of some directories. A name without an extension gets the one that the loader adds; a name that
leads out of the directories is refused.

Loaders are asked in order. A loader that does not have the name passes it on to the next;
every other answer is final.
-/

namespace Stencil

/-- Sources of templates by name. -/
abbrev Sources := Dict Text

/-- A place where templates come from. -/
inductive Loader where
  /-- Sources in memory. -/
  | memory (sources : Sources)
  /-- The files of directories, and the extension added to names that have none. -/
  | directories (dirs : List FilePath) (extension? : Option Text)

namespace Loader

/-- The extension added to names unless something else is asked for. -/
def standardExtension : String := "html"

/-- A loader of the files of directories. Points in front of the extension do not count. -/
def ofDirectories (dirs : List FilePath) (extension? : Option String) : Loader :=
  let extension? := extension?.map fun e => e.toList.dropWhile (· = '.')
  .directories dirs (extension?.filter fun e => !e.isEmpty)

/-- The path of the file that a template name means. -/
def filePath (extension? : Option Text) (name : String) : FilePath :=
  let path : FilePath := name.toList
  match extension? with
  | some extension => if path.extension?.isNone then path.addExtension extension else path
  | none => path

/-- Where a template may be, in the order of the directories. -/
def candidates (dirs : List FilePath) (extension? : Option Text) (name : String) :
    List FilePath :=
  dirs.map fun dir => dir.join (filePath extension? name)

/-- Loads the source of a template. -/
def load (disk : Disk) (loader : Loader) (name : String) : Except Error Text :=
  match loader with
  | .memory sources =>
    match sources.get? name with
    | some source => .ok source
    | none => .error (.notInMemory name)
  | .directories dirs extension? =>
    if !(filePath extension? name).isContained then .error (.escapingTemplateName name)
    else
      match (candidates dirs extension? name).find? disk.isFile with
      | none => .error (.notInDirectories name (dirs.map String.ofList))
      | some path =>
        match disk.readText? path with
        | some source => .ok source
        | none => .error (.unreadableTemplate (String.ofList path))

/-- Whether a loader does not have a template. -/
def misses (disk : Disk) (name : String) (loader : Loader) : Bool :=
  match loader.load disk name with
  | .error e => e.kind = .templateNotFound
  | .ok _ => false

/-- Loads the source of a template from the first loader that has it. -/
def loadFirst (disk : Disk) (loaders : List Loader) (name : String) : Except Error Text :=
  match loaders with
  | [] => .error (.notFound name)
  | loader :: rest =>
    match loader.load disk name with
    | .ok source => .ok source
    | .error e => if e.kind = .templateNotFound then loadFirst disk rest name else .error e

/-- The number of loaders that are asked for a template. -/
def asked (disk : Disk) (loaders : List Loader) (name : String) : Nat :=
  match loaders with
  | [] => 0
  | loader :: rest => if misses disk name loader then asked disk rest name + 1 else 1

/-- A bound on the number of names that a template can be used under. -/
def capacity (disk : Disk) : Loader → Nat
  | .memory sources => sources.length
  | .directories _ _ => disk.size

end Loader

end Stencil
