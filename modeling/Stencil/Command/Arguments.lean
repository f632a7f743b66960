/-!
# Command lines

A command line is a row of words. A word that starts with two hyphens is a long option, whose
value may follow behind an equals sign; a word that starts with one is a short option, whose
value may follow directly. Otherwise the value of an option is the next word. Behind a word of
two hyphens alone nothing is an option any more.

The value of an option counts only when the next word that is understood has been reached: until
then a fault in that word goes before a fault in the value.
-/

namespace Stencil

/-- Why a command line is not carried out. -/
inductive UsageFault where
  /-- No command is given. -/
  | missingSubcommand
  /-- There is no such command. -/
  | invalidSubcommand
  /-- There is no such option, or no place for an argument. -/
  | unknownArgument
  /-- An argument is missing. -/
  | missingRequiredArgument
  /-- A value is missing, or is empty where it must not be. -/
  | invalidValue
  /-- A value for an option that takes none. -/
  | tooManyValues
  /-- An option is given more than once. -/
  | argumentConflict
  /-- Help is asked for. -/
  | displayHelp
  /-- The version is asked for. -/
  | displayVersion
  deriving DecidableEq, Repr

/-- The name of a fault. -/
def UsageFault.name : UsageFault → String
  | .missingSubcommand => "MissingSubcommand"
  | .invalidSubcommand => "InvalidSubcommand"
  | .unknownArgument => "UnknownArgument"
  | .missingRequiredArgument => "MissingRequiredArgument"
  | .invalidValue => "InvalidValue"
  | .tooManyValues => "TooManyValues"
  | .argumentConflict => "ArgumentConflict"
  | .displayHelp => "DisplayHelp"
  | .displayVersion => "DisplayVersion"

/-- What an option does. -/
inductive OptionKind where
  /-- Takes a value, which names a file or not, and may be given again or not. -/
  | value (isPath repeatable : Bool)
  /-- Is given or not. -/
  | flag
  /-- Asks for something instead of the command. -/
  | stop (fault : UsageFault)
  deriving DecidableEq, Repr

/-- An option of a command. -/
structure OptionRule where
  /-- Its long name. -/
  long : String
  /-- Its short name. -/
  short? : Option Char := none
  /-- What it does. -/
  kind : OptionKind
  deriving DecidableEq, Repr

/-- What the words of a command may be. -/
structure CommandRule where
  /-- The options. -/
  options : List OptionRule
  /-- Whether there is one argument that is no option. -/
  hasArgument : Bool

/-- The option that asks for help. -/
def OptionRule.help : OptionRule := ⟨"help", some 'h', .stop .displayHelp⟩

/-- The option that asks for the version. -/
def OptionRule.version : OptionRule := ⟨"version", some 'V', .stop .displayVersion⟩

/-- A word of a command line. -/
inductive Word where
  /-- The end of the options. -/
  | separator
  /-- A long option, and the value behind its equals sign. -/
  | long (name : String) (value? : Option String)
  /-- A short option, and what follows it. -/
  | short (name : Char) (rest : List Char)
  /-- Anything else. -/
  | plain (text : String)

/-- What a word is. -/
def Word.ofString (s : String) : Word :=
  match s.toList with
  | ['-', '-'] => .separator
  | '-' :: '-' :: body =>
    let name := body.takeWhile (· ≠ '=')
    match body.drop name.length with
    | [] => .long (String.ofList name) none
    | _ :: value => .long (String.ofList name) (some (String.ofList value))
  | '-' :: c :: rest => .short c rest
  | _ => .plain s

/-- The arguments of a command. -/
structure Arguments where
  /-- The values of options, by long name and in order. -/
  values : List (String × String) := []
  /-- The flags that are given. -/
  flags : List String := []
  /-- The argument that is no option. -/
  argument? : Option String := none

namespace Arguments

/-- The values of an option. -/
def valuesOf (a : Arguments) (name : String) : List String :=
  a.values.filterMap fun (other, v) => if other = name then some v else none

/-- The value of an option. -/
def value? (a : Arguments) (name : String) : Option String := (a.valuesOf name).head?

/-- Whether a flag is given. -/
def hasFlag (a : Arguments) (name : String) : Bool := a.flags.contains name

/-- Stores the value of an option. -/
def addValue (a : Arguments) (name : String) (isPath repeatable : Bool) (v : String) :
    Except UsageFault Arguments :=
  if !repeatable && (a.value? name).isSome then .error .argumentConflict
  else if isPath && v = "" then .error .invalidValue
  else .ok { a with values := a.values ++ [(name, v)] }

end Arguments

/-- Arguments that are partly read. -/
structure PartialArguments where
  /-- What counts already. -/
  done : Arguments := {}
  /-- The last option, whether its value names a file and whether it may be given again, and its
  value as soon as there is one. -/
  last? : Option (String × Bool × Bool × Option String) := none

namespace PartialArguments

/-- Makes the last option count. -/
def settle (p : PartialArguments) : Except UsageFault Arguments :=
  match p.last? with
  | none => .ok p.done
  | some (_, _, _, none) => .error .invalidValue
  | some (name, isPath, repeatable, some v) => p.done.addValue name isPath repeatable v

/-- Takes an option, and the value attached to it. -/
def takeOption (p : PartialArguments) (rule : OptionRule) (value? : Option String) :
    Except UsageFault PartialArguments := do
  let done ← p.settle
  match rule.kind with
  | .value isPath repeatable =>
    match value? with
    | some v => return { done := ← done.addValue rule.long isPath repeatable v }
    | none => return { done, last? := some (rule.long, isPath, repeatable, none) }
  | .flag =>
    if done.hasFlag rule.long then throw .argumentConflict
    return { done := { done with flags := done.flags ++ [rule.long] } }
  | .stop fault => throw fault

/-- Takes an argument that is no option. -/
def takeArgument (p : PartialArguments) (rule : CommandRule) (text : String) :
    Except UsageFault PartialArguments := do
  if !rule.hasArgument || p.done.argument?.isSome then throw .unknownArgument
  let done ← p.settle
  return { done := { done with argument? := some text } }

/-- Takes a word in front of the end of the options. -/
def takeWord (p : PartialArguments) (rule : CommandRule) (word : Word) :
    Except UsageFault PartialArguments :=
  match word with
  | .separator => .ok p
  | .long name value? =>
    match rule.options.find? (·.long = name) with
    | none => .error .unknownArgument
    | some option =>
      match option.kind, value? with
      | .value _ _, value? => p.takeOption option value?
      | _, some _ => .error .tooManyValues
      | _, none => p.takeOption option none
  | .short c rest =>
    match rule.options.find? (·.short? = some c) with
    | none => .error .unknownArgument
    | some option =>
      match option.kind, rest with
      | .value _ _, '=' :: v => p.takeOption option (some (String.ofList v))
      | .value _ _, c :: v => p.takeOption option (some (String.ofList (c :: v)))
      | _, _ => p.takeOption option none
  | .plain text =>
    match p.last? with
    | some (name, isPath, repeatable, none) =>
      .ok { p with last? := some (name, isPath, repeatable, some text) }
    | _ => p.takeArgument rule text

end PartialArguments

namespace CommandRule

/-- Reads the words of a command, some of which are read already. -/
def readFrom (rule : CommandRule) : (plainOnly : Bool) → PartialArguments → List String →
    Except UsageFault Arguments
  | _, p, [] => p.settle
  | true, p, text :: rest => do readFrom rule true (← p.takeArgument rule text) rest
  | false, p, text :: rest =>
    match Word.ofString text with
    | .separator => readFrom rule true p rest
    | word => do readFrom rule false (← p.takeWord rule word) rest

/-- Reads the words of a command. -/
def read (rule : CommandRule) (words : List String) : Except UsageFault Arguments := do
  let arguments ← readFrom rule false {} words
  if rule.hasArgument && arguments.argument?.isNone then throw .missingRequiredArgument
  return arguments

end CommandRule

end Stencil
