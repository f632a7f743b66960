import Stencil.Command.Run

/-!
# The program

The program takes its settings from the environment, and its command and the arguments from the
command line.

A command works on a copy of the part of the file system that it can need. The copy is made
first, path by path; what the command has changed in it is carried over afterwards. A render does
not tell beforehand which templates it will ask for, so it is tried until the copy has all of
them.
-/

namespace Stencil.Program

/-- The variables that override settings. -/
def variableNames : List String :=
  ["SIGIL_DEBUG", "SIGIL_LOG_LEVEL", "SIGIL_TEMPLATE_DIRS", "SIGIL_AUTO_ESCAPE",
    "SIGIL_CACHE_ENABLED", "SIGIL_CACHE_DIR"]

/-- The environment of the program. -/
def environment : IO Environment := do
  let values ← variableNames.mapM fun name => return (name, ← IO.getEnv name)
  return fun name => (values.lookup name).join

/-- The path of a place. -/
def pathOf (place : Place) : String := String.ofList ('/' :: ['/'].intercalate place)

/-- Copies what the names of a path lead to. -/
def copyWay (disk : Disk) : Place → List Text → IO Disk
  | _, [] => return disk
  | place, piece :: rest => do
    if FilePath.isVoid piece then copyWay disk place rest
    else if piece = ['.', '.'] then copyWay disk place.dropLast rest
    else
      let next := place ++ [piece]
      let entry := (← IO.currentDir) / pathOf next
      if ← entry.isDir then copyWay (disk.set next .directory) next rest
      else if ← entry.pathExists then
        return disk.set next (.file (← IO.FS.readBinFile entry))
      else return disk

/-- Copies what a path leads to. -/
def copy (disk : Disk) (path : FilePath) : IO Disk :=
  copyWay disk (disk.origin path) path.pieces

/-- Copies what each of some paths leads to. -/
def copyAll (disk : Disk) (paths : List FilePath) : IO Disk := paths.foldlM copy disk

/-- Copies the files of a directory. -/
def copyFiles (disk : Disk) (dir : FilePath) : IO Disk := do
  let disk ← copy disk dir
  if !disk.isDirectory dir then return disk
  let entries ← ((← IO.currentDir) / String.ofList dir).readDir
  copyAll disk (entries.toList.map fun entry => dir.join entry.fileName.toList)

/-- A copy that has the working directory only. -/
def workingCopy : IO Disk := do
  let path : FilePath := (← IO.currentDir).toString.toList
  let place := path.pieces.filter fun piece => !FilePath.isVoid piece
  copy { nodes := [], workingPlace := place } path

/-- The paths at which an engine looks for a template. -/
def searched (e : Engine) (name : String) : List FilePath :=
  e.loaders.flatMap fun
    | .memory _ => []
    | .directories dirs extension? =>
      if (Loader.filePath extension? name).isContained then
        Loader.candidates dirs extension? name
      else []

/-- Copies the templates that a render asks for. -/
partial def copyTemplates (e : Engine) (name : String) (ctx : Context) (disk : Disk) :
    IO Disk := do
  let requests := (e.render disk .failing () name ctx).requests
  let next ← copyAll disk (requests.flatMap (searched e))
  if next.nodes.length = disk.nodes.length then return next
  else copyTemplates e name ctx next

/-- Copies the cache file of a render. -/
def copyCacheFile (e : Engine) (name : String) (ctx : Context) (disk : Disk) : IO Disk :=
  match e.backend, e.key? name (e.effectiveContext ctx) with
  | .files dir, some key => copy disk (dir.join (CacheStore.fileName key))
  | _, _ => return disk

/-- Copies what a command can need. -/
def copyFor (env : Environment) (s : Settings) (command : Command) (a : Arguments) :
    IO Disk := do
  let disk ← workingCopy
  match command with
  | .check => copyAll disk (s.templates.dirs.map String.toList)
  | .clearCache =>
    match s.cache.location? with
    | some dir => copyFiles disk dir.toList
    | none => return disk
  | .render =>
    let given := (a.value? "config").toList ++ (a.value? "context").toList
    let disk ← copyAll disk (given.map String.toList)
    match Command.prepareRender disk env s a with
    | .ok (e, name, ctx) => copyTemplates e name ctx (← copyCacheFile e name ctx disk)
    | .error _ => return disk

/-- Writes a file, and makes the directories above it. A file that cannot be written is left
out. -/
def writeFile (place : Place) (bytes : ByteArray) : IO Unit := do
  try
    IO.FS.createDirAll (pathOf place.dropLast)
    IO.FS.writeBinFile (pathOf place) bytes
  catch _ => return

/-- Carries over what was changed in a copy. -/
def carryOver (before after : Disk) : IO Unit := do
  for (place, node) in after.nodes do
    match node, before.get? place with
    | .file bytes, some (.file old) => if bytes.toList ≠ old.toList then writeFile place bytes
    | .file bytes, _ => writeFile place bytes
    | .directory, _ => pure ()
  for (place, _) in before.nodes do
    if (after.get? place).isNone then IO.FS.removeFile (pathOf place)

/-- A finding in words. -/
def findingText (f : Finding) : String :=
  f.severity.label ++ " (" ++ f.id ++ "): " ++ f.message ++
    match f.hint? with
    | some hint => "\n\tHINT: " ++ hint
    | none => ""

/-- The commands in words. -/
def usage : String :=
  "Usage: sigil <COMMAND> [OPTIONS]\n\nCommands:\n" ++
    String.join (Command.all.map fun c => "  " ++ c.name ++ "\t" ++ c.help ++ "\n")

/-- Answers a command line that is not carried out. -/
def answerFault (fault : UsageFault) : IO UInt32 := do
  match fault with
  | .displayHelp => IO.print usage; return 0
  | .displayVersion => IO.println "sigil 0.1.0"; return 0
  | _ => IO.eprint ("error: " ++ fault.name ++ "\n\n" ++ usage); return 2

/-- Says why the program fails. -/
def fail (e : Error) : IO UInt32 := do
  IO.eprintln ("sigil: " ++ e.message)
  return 1

/-- Carries out a command. -/
def execute (command : Command) (a : Arguments) : IO UInt32 := do
  let env ← environment
  let s := Settings.ofEnvironment env
  let disk ← copyFor env s command a
  if command = .check then
    for f in s.findings disk do IO.eprintln (findingText f)
  let result := Command.run disk env s command a
  IO.print (String.ofList result.output)
  carryOver disk result.disk
  match result.outcome with
  | .ok () => return 0
  | .error e => fail e

end Stencil.Program

/-- Runs the command that the words of the command line ask for. -/
def main (words : List String) : IO UInt32 := do
  try
    match Stencil.Command.read words with
    | .ok (command, arguments) => Stencil.Program.execute command arguments
    | .error fault => Stencil.Program.answerFault fault
  catch e => Stencil.Program.fail (.io (toString e))
