import Stencil.Calendar.Reader
import Stencil.Calendar.Shift
import Stencil.Calendar.Writer
import Stencil.Filter.Basic
import Stencil.Sha256

/-!
# The filters of every registry

Filters on text work on the text of any value. Filters on numbers take everything that looks
like a number, and filters on dates take timestamps and the notations of dates.
-/

namespace Stencil.Filter

/-- A filter on the text of a value. -/
def onText (f : Text → Text) : Filter := fun v _ => .ok (.str (String.ofList (f v.text)))

/-- The first parameter, which must not be empty. -/
def required (params : List String) (filter what : String) : Except FilterError String :=
  match params.head? with
  | some p => if p = "" then .error (.missingParameter filter what) else .ok p
  | none => .error (.missingParameter filter what)

/-- The first parameter as a limit. -/
def limit (params : List String) (filter : String) : Except FilterError Nat := do
  let raw ← required params filter "limit"
  match Decimal.readUInt64? raw.toList with
  | some n => .ok n
  | none => .error (.invalidLimit filter raw)

/-- Capitalises words, given whether the next character starts one. -/
def capitalizeFrom : (atStart : Bool) → Text → Text
  | _, [] => []
  | atStart, c :: s =>
    (if atStart && !isBlank c then Text.upperChar c else [c]) ++ capitalizeFrom (isBlank c) s

/-- The first letter of every word in upper case. -/
def capitalize (s : Text) : Text := capitalizeFrom true s

/-- The element that breaks a line. -/
def breakElement : Text := "<br />".toList

/-- Puts a break element in front of every line break. -/
def breakLines : Text → Text
  | [] => []
  | '\r' :: '\n' :: s => breakElement ++ '\r' :: '\n' :: breakLines s
  | c :: s =>
    if c = '\n' || c = '\r' then breakElement ++ c :: breakLines s else c :: breakLines s

/-- The number of characters of a text, or of entries of a list or object. -/
def length : Filter := fun v _ =>
  let n :=
    match v with
    | .list items => items.length
    | .object fields => fields.length
    | v => v.text.length
  .ok (.int (Int64.ofNat n))

/-- The items of a list, or the characters of a text, from last to first. -/
def reverse : Filter := fun v _ =>
  match v with
  | .list items => .ok (.list items.reverse)
  | v => .ok (.str (String.ofList v.text.reverse))

/-- The first characters of a text. -/
def limitChars : Filter := fun v params => do
  let n ← limit params "limit_chars"
  return .str (String.ofList (v.text.take n))

/-- The first words of a text, which are separated by single spaces. -/
def limitWords : Filter := fun v params => do
  let n ← limit params "limit_words"
  return .str (String.ofList ([' '].intercalate ((v.text.splitOn ' ').take n)))

/-- Marks every occurrence of a term. -/
def highlight : Filter := fun v params =>
  let term := (params.head?.getD "").toList
  if term.isEmpty then .ok (.str (String.ofList v.text))
  else
    .ok (.str (String.ofList
      (v.text.replace term ("<strong>".toList ++ term ++ "</strong>".toList))))

/-- The SHA-256 digest of a text. -/
def hash : Filter := fun v _ => .ok (.str (Sha256.hexDigest v.display.toUTF8.toList))

/-- A number without its sign. The least integer becomes a double. -/
def absolute : Filter := fun v _ =>
  match v with
  | .int n =>
    if n = Int64.minValue then .ok (.float (Float.ofInt n.toInt).abs)
    else .ok (.int (if n < 0 then -n else n))
  | v =>
    match v.number? with
    | some f => .ok (.float f.abs)
    | none => .error (.notANumber "abs" v.display)

/-- The digits after which a number is rounded at most, before or after the point. -/
def maxPrecision : Int := 308

/-- Rounds a number to a number of digits after the point; a half goes away from zero. A number
too large to be scaled stays as it is. -/
def roundTo (f : Float) (precision : Int) : Float :=
  let factor := Decimal.powerOfTen (max (-maxPrecision) (min precision maxPrecision))
  let scaled := f * factor
  if scaled.isFinite then Decimal.roundHalfAway scaled / factor else f

/-- Rounds to the digits given by the parameter, or to a whole number. -/
def round : Filter := fun v params =>
  match v.number? with
  | none => .error (.notANumber "round" v.display)
  | some f =>
    let raw := Text.trim (params.head?.getD "").toList
    if raw.isEmpty then .ok (.float (roundTo f 0))
    else
      match Decimal.readInt32? raw with
      | none => .error (.invalidPrecision (String.ofList raw))
      | some precision => .ok (.float (roundTo f precision))

/-- The point in time of a timestamp. -/
def dateOfTimestamp (seconds : Int64) : Except FilterError DateTime :=
  match DateTime.ofTimestamp? seconds.toInt 0 with
  | some t => .ok t
  | none => .error (.timestampOutOfRange seconds.toInt)

/-- The point in time of a text: a notation of dates, or the digits of a timestamp. -/
def dateOfText (s : Text) : Except FilterError DateTime :=
  match Calendar.read? s with
  | some t => .ok t
  | none =>
    match Decimal.readInt64? s with
    | some seconds => dateOfTimestamp seconds
    | none => .error (.unreadableDate (String.ofList s))

/-- The point in time of a value. -/
def dateOf (v : Value) : Except FilterError DateTime :=
  match v with
  | .int n => dateOfTimestamp n
  | v => dateOfText v.text.trim

/-- Writes a date by a format. -/
def date : Filter := fun v params => do
  let format ← required params "date" "format"
  let t ← dateOf v
  return .str (String.ofList (Calendar.write t format.toList))

/-- Shifts a date by a modifier. -/
def dateModify : Filter := fun v params => do
  let modifier ← required params "date_modify" "modifier"
  let t ← Calendar.modify (← dateOf v) modifier
  return .str (String.ofList (Calendar.plainText t))

/-- The parameter in place of an empty value. -/
def fallback : Filter := fun v params =>
  if v.isEmpty then .ok (.str (params.head?.getD "")) else .ok v

/-- The registry with every built-in filter. -/
def Registry.builtin : Registry :=
  [("upper", onText Text.upper),
   ("lower", onText Text.lower),
   ("capitalize", onText capitalize),
   ("trim", onText Text.trim),
   ("length", length),
   ("reverse", reverse),
   ("nl2br", onText breakLines),
   ("esc", onText escapeHtml),
   ("limit_chars", limitChars),
   ("limit_words", limitWords),
   ("highlight", highlight),
   ("hash", hash),
   ("md5", hash),
   ("abs", absolute),
   ("absolute", absolute),
   ("round", round),
   ("date", date),
   ("date_modify", dateModify),
   ("default", fallback)]

end Stencil.Filter
