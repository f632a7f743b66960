import Stencil.Error
import Stencil.Tag.Basic

/-!
# The grammars of tags

A tag stands between a left and a right delimiter. The delimiters are any two texts that are not
empty. Blanks next to them do not count.

With braces for delimiters:

* `{path}` and `{path|filters}` stand for a value;
* `{if condition}`, `{elseif condition}`, `{else}` and `{endif}` form conditionals;
* `{name in path}` and `{end path}` enclose a bound loop, `{path}` and `{/path}` a legacy loop;
* `{block name}` and `{endblock}` enclose a block;
* `{extends: name}` and `{include: name}` name another template;
* `{noparse}` and `{/noparse}` protect what is between them.
-/

namespace Stencil

/-- The texts around a tag. -/
structure Delimiters where
  /-- The text in front of a tag. -/
  left : Text
  /-- The text behind a tag. -/
  right : Text
  /-- There is a text in front. -/
  left_ne_nil : left ≠ []
  /-- There is a text behind. -/
  right_ne_nil : right ≠ []

/-- The tag of a value. -/
structure Variable where
  /-- The path to the value. -/
  path : Text
  /-- The filters, if there is a bar. -/
  chain? : Option Text

/-- The tags of conditionals. -/
inductive Conditional where
  /-- Opens a conditional. -/
  | opening (condition : Text)
  /-- Goes on with another branch, which is the default without a condition. -/
  | branch (condition? : Option Text)
  /-- Closes a conditional. -/
  | closing

/-- How a loop hands its rows to its body. -/
inductive LoopForm where
  /-- Under a name. -/
  | bound (name : String)
  /-- At the top level of the context. -/
  | legacy

/-- The opening tag of a loop. -/
structure LoopHead where
  /-- How the rows are handed on. -/
  form : LoopForm
  /-- The path to the rows. -/
  path : Text

namespace Delimiters

open Recognizer

/-- The delimiters made of two texts. -/
def of? (left right : String) : Except Error Delimiters :=
  if h : left.toList ≠ [] ∧ right.toList ≠ [] then .ok ⟨left.toList, right.toList, h.1, h.2⟩
  else .error .emptyDelimiter

/-- A pair of braces. -/
def braces : Delimiters := ⟨['\x7b'], ['\x7d'], by simp, by simp⟩

variable {α : Type} (d : Delimiters)

/-- The front of a tag. -/
def opened (body : Recognizer α) : Recognizer α := literal d.left (blanks body)

/-- The end of a tag. -/
def closed : Recognizer Unit := blanks (literal d.right (done ()))

/-- A character that is not a line feed. -/
def isInline (c : Char) : Bool := c ≠ '\n'

/-- A character of a block name. -/
def isBlockNameChar (c : Char) : Bool := isWordChar c || c = '.' || c = '-'

/-- A character of a template name. -/
def isTemplateNameChar (c : Char) : Bool := isWordChar c || c = '.' || c = '/' || c = '-'

/-- The filters of a variable tag. They stay on one line. -/
def chain : Recognizer Text := (blanks (fewest isInline d.closed)).map (·.1)

/-- The tag of a value. -/
def variableTag : Recognizer Variable :=
  (d.opened (path (blanks
    (orElse ((literal ['|'] d.chain).map some) (d.closed.map fun _ => none))))).map
    fun (path, chain?) => ⟨path, chain?⟩

/-- A keyword, and what stands on its line behind it. -/
def keyword (word : Text) : Recognizer Text :=
  (literal word (wordEnd (blanks (fewest isInline d.closed)))).map (·.1)

/-- The tags of conditionals. -/
def conditionalTag : Recognizer Conditional :=
  d.opened
    (orElse ((d.keyword "elseif".toList).map fun condition => .branch (some condition))
      (orElse ((d.keyword "else".toList).map fun _ => .branch none)
        (orElse ((d.keyword "endif".toList).map fun _ => .closing)
          ((d.keyword "if".toList).map .opening))))

/-- The opening tag of a bound loop. -/
def loopOpening : Recognizer LoopHead :=
  (d.opened (leading isNameStart isWordChar
    (someBlanks (literal "in".toList (someBlanks (path d.closed)))))).map
    fun (name, path, _) => ⟨.bound (String.ofList name), path⟩

/-- The closing tag of a bound loop, which repeats the path. -/
def loopClosing : Recognizer Text :=
  (d.opened (literal "end".toList (someBlanks (path d.closed)))).map (·.1)

/-- The opening tag of a legacy loop. It reads like a variable tag without filters. -/
def legacyOpening : Recognizer LoopHead :=
  (d.opened (path d.closed)).map fun (path, _) => ⟨.legacy, path⟩

/-- The closing tag of a legacy loop, which repeats the path. -/
def legacyClosing : Recognizer Text :=
  (d.opened (literal ['/'] (blanks (path d.closed)))).map (·.1)

/-- The opening tag of a block. -/
def blockOpening : Recognizer String :=
  (d.opened (literal "block".toList (someBlanks (oneOrMore isBlockNameChar d.closed)))).map
    fun (name, _) => String.ofList name

/-- The closing tag of a block. A name in it does not count. -/
def blockClosing : Recognizer Unit :=
  d.opened (literal "endblock".toList
    (orElse (someBlanks ((oneOrMore isBlockNameChar d.closed).map fun _ => ())) d.closed))

/-- A template name behind a colon. -/
def templateName : Recognizer String :=
  (blanks (literal [':'] (blanks (oneOrMore isTemplateNameChar d.closed)))).map
    fun (name, _) => String.ofList name

/-- The tag that names the base of a template. -/
def baseTag : Recognizer String :=
  d.opened (literal "extend".toList (orElse (literal ['s'] d.templateName) d.templateName))

/-- The tag that stands for another template. -/
def includeTag : Recognizer String := d.opened (literal "include".toList d.templateName)

/-- A protected region, with its tags. It ends at the first closing tag. -/
def protectedRegion : Recognizer Text :=
  (d.opened (literal "noparse".toList (blanks (literal d.right
    (fewest (fun _ => true)
      (d.opened (literal ['/'] (blanks (literal "noparse".toList d.closed))))))))).map (·.1)

end Delimiters

end Stencil
