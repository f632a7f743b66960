import Stencil.Text.Quoted
import Stencil.Decimal.Integer

/-!
# Errors

Every error is a cause. Its kind says how far it reaches: a structural error aborts the render
it occurs in, a contained one stays with the construct that raised it. Its message opens with
the kind.

Where a reason comes from outside, from a data format's reader or from the file system, the
message ends before it.
-/

namespace Stencil

/-- The kinds of errors. -/
inductive ErrorKind where
  /-- A template name that can never be loaded. -/
  | invalidTemplateName
  /-- A template that no loader has. -/
  | templateNotFound
  /-- A malformed condition. -/
  | templateSyntax
  /-- Templates that include or extend each other in a cycle. -/
  | composition
  /-- A filter that cannot transform its input. -/
  | filter
  /-- A missing or invalid setting. -/
  | configuration
  /-- Data that cannot be read or written. -/
  | serialization
  /-- A cache store that failed. -/
  | cache
  /-- A failure of the file system. -/
  | io
  deriving DecidableEq, Repr

namespace ErrorKind

/-- How messages of the kind begin. -/
def label : ErrorKind → String
  | .invalidTemplateName => "Invalid template name"
  | .templateNotFound => "Template does not exist"
  | .templateSyntax => "Template syntax error"
  | .composition => "Composition error"
  | .filter => "Filter error"
  | .configuration => "Configuration error"
  | .serialization => "Serialization error"
  | .cache => "Cache error"
  | .io => "IO error"

/-- The message of an error of the kind. -/
def message (kind : ErrorKind) (detail : String) : String := kind.label ++ ": " ++ detail

/-- Whether errors of the kind abort the render. -/
def isStructural : ErrorKind → Bool
  | .invalidTemplateName | .templateNotFound | .composition => true
  | _ => false

/-- Whether errors of the kind stay with the construct that raised them. -/
def isContained : ErrorKind → Bool
  | .templateSyntax | .filter => true
  | _ => false

end ErrorKind

/-- What is wrong with a condition. -/
inductive ConditionFault where
  /-- A character that starts no token. -/
  | unexpectedCharacter (c : Char)
  /-- A string without its closing quote. -/
  | unterminatedString
  /-- Digits and points that make no number. -/
  | invalidNumber (text : String)
  /-- Tokens after a complete condition. -/
  | trailingInput
  /-- A comparison of comparisons. -/
  | chainedComparison
  /-- An opening parenthesis without its closing one. -/
  | missingParenthesis
  /-- A token where an operand should be. -/
  | unexpectedToken (token : String)
  /-- No token where an operand should be. -/
  | unexpectedEnd
  deriving DecidableEq, Repr

/-- The fault in words. -/
def ConditionFault.message : ConditionFault → String
  | .unexpectedCharacter c => "unexpected character '" ++ c.toString ++ "'"
  | .unterminatedString => "unterminated string literal"
  | .invalidNumber text => s!"invalid number '{text}'"
  | .trailingInput => "unexpected trailing input"
  | .chainedComparison => "chained comparison"
  | .missingParenthesis => "missing ')'"
  | .unexpectedToken token => s!"unexpected token {token}"
  | .unexpectedEnd => "unexpected end of expression"

/-- Why a filter failed. -/
inductive FilterError where
  /-- No filter of the name is registered. -/
  | unknown (name : String)
  /-- A parameter is missing or empty. -/
  | missingParameter (filter what : String)
  /-- A limit is not an unsigned integer. -/
  | invalidLimit (filter raw : String)
  /-- The value is not a number. -/
  | notANumber (filter text : String)
  /-- A precision is not an integer. -/
  | invalidPrecision (raw : String)
  /-- A timestamp lies outside the calendar. -/
  | timestampOutOfRange (seconds : Int)
  /-- A text is no date. -/
  | unreadableDate (text : String)
  /-- A date modifier does not start with a number. -/
  | invalidModifier (modifier : String)
  /-- A date modifier ends after a number. -/
  | missingUnit (modifier : String)
  /-- A date modifier names no unit of time. -/
  | unknownUnit (unit : String)
  /-- A shifted date lies outside the calendar. -/
  | shiftOutOfRange (amount : Int) (unit : String)
  /-- A registered filter failed in its own way. -/
  | custom (message : String)
  deriving DecidableEq, Repr

/-- The failure in words. -/
def FilterError.message : FilterError → String
  | .unknown name => s!"Unknown filter: '{name}'"
  | .missingParameter filter what => s!"{filter} requires a {what} parameter"
  | .invalidLimit filter raw => s!"{filter}: invalid limit '{raw}'"
  | .notANumber filter text => s!"{filter}: '{text}' is not a number"
  | .invalidPrecision raw => s!"round: invalid precision '{raw}'"
  | .timestampOutOfRange seconds =>
    "Timestamp out of range: " ++ String.ofList (Decimal.intText seconds)
  | .unreadableDate text => s!"Cannot parse '{text}' as a date"
  | .invalidModifier modifier => s!"Invalid date modifier: '{modifier}'"
  | .missingUnit modifier => s!"Missing unit in date modifier: '{modifier}'"
  | .unknownUnit unit => s!"Unknown date unit: '{unit}'"
  | .shiftOutOfRange amount unit =>
    "Date modification out of range: " ++ String.ofList (Decimal.intText amount) ++ " " ++ unit
  | .custom message => message

/-- Everything that can go wrong. -/
inductive Error where
  /-- A render was asked for without a name. -/
  | emptyTemplateName
  /-- A template name leads out of the template directories. -/
  | escapingTemplateName (name : String)
  /-- A set of templates in memory does not have the name. -/
  | notInMemory (name : String)
  /-- No directory has a file of the name. -/
  | notInDirectories (name : String) (dirs : List String)
  /-- No loader has the name. -/
  | notFound (name : String)
  /-- A template file cannot be read as text. -/
  | unreadableTemplate (path : String)
  /-- A condition is malformed. -/
  | condition (source : String) (fault : ConditionFault)
  /-- A template is composed inside itself; the path ends in the repeated name. -/
  | cycle (path : List String)
  /-- A filter failed. -/
  | filter (cause : FilterError)
  /-- A tag delimiter is empty. -/
  | emptyDelimiter
  /-- The file cache has no directory. -/
  | missingCacheLocation
  /-- There is no cache of the kind. -/
  | unknownCacheBackend (backend : String)
  /-- A settings text does not follow its format. -/
  | malformedSettings (format : String)
  /-- A setting has a value of the wrong type. -/
  | illTypedSettings (format : String)
  /-- A settings file cannot be read as text. -/
  | unreadableSettings (format path : String)
  /-- A context assignment has no equals sign. -/
  | malformedAssignment (assignment : String)
  /-- A context assignment has no key. -/
  | emptyAssignmentKey (assignment : String)
  /-- The settings check found errors. -/
  | failedChecks (count : Nat)
  /-- A context is not in the data notation. -/
  | malformedContext
  /-- A context is data, but not an object. -/
  | contextNotObject (text : String)
  /-- A context file holds data, but not an object. -/
  | contextFileNotObject (path : String)
  /-- A context file is not in the data notation. -/
  | malformedContextFile (path : String)
  /-- A context holds a number without a notation, so it has no cache key. -/
  | nonFiniteNumber (path number : String)
  /-- A cache entry cannot be read. -/
  | cacheRead (key : String)
  /-- A cache entry cannot be written. -/
  | cacheWrite (key : String)
  /-- The file system failed. -/
  | io (what : String)
  deriving DecidableEq, Repr

namespace Error

/-- The kind of an error. -/
def kind : Error → ErrorKind
  | .emptyTemplateName | .escapingTemplateName _ => .invalidTemplateName
  | .notInMemory _ | .notInDirectories _ _ | .notFound _ | .unreadableTemplate _ =>
    .templateNotFound
  | .condition _ _ => .templateSyntax
  | .cycle _ => .composition
  | .filter _ => .filter
  | .emptyDelimiter | .missingCacheLocation | .unknownCacheBackend _ | .malformedSettings _
  | .illTypedSettings _ | .unreadableSettings _ _ | .malformedAssignment _
  | .emptyAssignmentKey _ | .failedChecks _ => .configuration
  | .malformedContext | .contextNotObject _ | .contextFileNotObject _ | .malformedContextFile _
  | .nonFiniteNumber _ _ => .serialization
  | .cacheRead _ | .cacheWrite _ => .cache
  | .io _ => .io

/-- The cause in words. -/
def detail : Error → String
  | .emptyTemplateName => "Template name must not be empty"
  | .escapingTemplateName name => s!"Template '{name}' escapes the template directories"
  | .notInMemory name => s!"Template '{name}' not found in StringLoader"
  | .notInDirectories name dirs =>
    s!"Template '{name}' not found in directories: " ++
      String.ofList (Text.quotedList (dirs.map (·.toList)))
  | .notFound name => s!"Template '{name}' not found by any loader"
  | .unreadableTemplate path => s!"Error reading template '{path}': "
  | .condition source fault => fault.message ++ s!" in condition '{source}'"
  | .cycle path => "Template cycle detected: " ++ " -> ".intercalate path
  | .filter cause => cause.message
  | .emptyDelimiter => "Template delimiters must not be empty"
  | .missingCacheLocation => "The file cache backend requires a location"
  | .unknownCacheBackend backend => s!"Unknown cache backend '{backend}'"
  | .malformedSettings format => s!"Failed to parse {format}: "
  | .illTypedSettings format => s!"Failed to deserialize settings from {format}: "
  | .unreadableSettings format path => s!"Failed to read {format} file '{path}': "
  | .malformedAssignment assignment => s!"Invalid --set '{assignment}': expected key=value"
  | .emptyAssignmentKey assignment => s!"Invalid --set '{assignment}': empty key"
  | .failedChecks count =>
    "Settings check found " ++ String.ofList (Decimal.natText count) ++ " error(s)"
  | .malformedContext => "Invalid context JSON: "
  | .contextNotObject text => s!"Context JSON must be an object, got: {text}"
  | .contextFileNotObject path => s!"Context file '{path}' must contain a JSON object"
  | .malformedContextFile path => s!"Invalid JSON in '{path}': "
  | .nonFiniteNumber path number =>
    s!"Cannot serialize context: '{path}' holds non-finite float {number}"
  | .cacheRead key => s!"Failed to read cache entry '{key}'"
  | .cacheWrite key => s!"Failed to write cache entry '{key}'"
  | .io what => what

/-- The message of an error. -/
def message (e : Error) : String := e.kind.message e.detail

end Error

/-! ## Running out of fuel -/

/-- Why a run with a bounded number of steps has no result. -/
inductive Stop (ε : Type) where
  /-- There was no fuel for a further step. -/
  | outOfFuel
  /-- The run has failed. -/
  | failed (err : ε)
  deriving DecidableEq, Repr

namespace Stop

variable {ε α : Type}

/-- The outcome of a run that had enough fuel. -/
def settle : (run : Except (Stop ε) α) → run ≠ .error .outOfFuel → Except ε α
  | .ok a, _ => .ok a
  | .error (.failed err), _ => .error err
  | .error .outOfFuel, h => absurd rfl h

theorem settle_eq_iff {run : Except (Stop ε) α} {r : Except ε α} (h : run ≠ .error .outOfFuel) :
    settle run h = r ↔ run = r.mapError .failed := by
  have herror : ∀ err, Except.mapError (α := α) Stop.failed (.error err : Except ε α) =
      .error (.failed err) := fun _ => rfl
  have hok : ∀ a, Except.mapError (Stop.failed (ε := ε)) (.ok a : Except ε α) = .ok a :=
    fun _ => rfl
  rcases run with (_ | err) | a
  · exact absurd rfl h
  · cases r <;> simp [settle, herror, hok]
  · cases r <;> simp [settle, herror, hok]

end Stop

end Stencil
