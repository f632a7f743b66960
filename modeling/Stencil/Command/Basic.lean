import Stencil.Command.Arguments
import Stencil.Text.Quoted

/-!
# Commands

The commands of the program and their arguments.
-/

namespace Stencil

/-- A command of the program. -/
inductive Command where
  /-- Checks the settings. -/
  | check
  /-- Empties the cache. -/
  | clearCache
  /-- Renders a template. -/
  | render
  deriving DecidableEq, Repr

namespace Command

/-- The commands by name in order. -/
def all : List Command := [.check, .clearCache, .render]

/-- The name of a command. -/
def name : Command → String
  | .check => "check"
  | .clearCache => "clearcache"
  | .render => "render"

/-- What a command does, in a line. -/
def help : Command → String
  | .check => "Check template and cache settings"
  | .clearCache => "Remove all cached render output"
  | .render => "Render a template against a JSON context"

/-- The command of a name. -/
def ofName? (name : String) : Option Command := all.find? (·.name = name)

/-- Commands in words. -/
def describeAll (commands : List Command) : String :=
  "CommandRegistry \x7b commands: " ++
    String.ofList (Text.quotedList (commands.map fun c => c.name.toList)) ++ " \x7d"

/-- What the words behind a command may be. -/
def rule : Command → CommandRule
  | .check => ⟨[.help], false⟩
  | .clearCache => ⟨[.help], false⟩
  | .render =>
    ⟨[⟨"dir", some 'd', .value true true⟩,
      ⟨"context", some 'c', .value true false⟩,
      ⟨"config", none, .value true false⟩,
      ⟨"set", some 's', .value false true⟩,
      ⟨"left", none, .value false false⟩,
      ⟨"right", none, .value false false⟩,
      ⟨"no-cache", none, .flag⟩,
      ⟨"no-escape", none, .flag⟩,
      .help], true⟩

/-- What is answered to a word in the place of a command. -/
def faultOf (text : String) : UsageFault :=
  match PartialArguments.takeWord {} ⟨[.help, .version], false⟩ (Word.ofString text) with
  | .error .unknownArgument =>
    match Word.ofString text with
    | .plain _ => .invalidSubcommand
    | _ => .unknownArgument
  | .error fault => fault
  | .ok _ => .missingSubcommand

/-- What is answered to a request for help on commands. -/
def helpFault (names : List String) : UsageFault :=
  match names with
  | [] => .displayHelp
  | [name] =>
    if name = "help" || (ofName? name).isSome then .displayHelp else .invalidSubcommand
  | _ => .invalidSubcommand

/-- Reads a command and its arguments. -/
def read : List String → Except UsageFault (Command × Arguments)
  | [] => .error .missingSubcommand
  | "--" :: rest =>
    match rest with
    | [] => .error .missingSubcommand
    | text :: _ =>
      if text = "help" || (ofName? text).isSome then .error .unknownArgument
      else .error .invalidSubcommand
  | text :: rest =>
    if text = "help" then .error (helpFault rest)
    else
      match ofName? text with
      | none => .error (faultOf text)
      | some command => do return (command, ← command.rule.read rest)

end Command

end Stencil
