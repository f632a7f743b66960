import Stencil.Engine.Composition
import Stencil.Proofs.Outline.Choices
import Stencil.Proofs.Outline.Loops
import Stencil.Proofs.Tag.Spelled

/-!
# Documents

A document is a tree of text, protected regions, values, loops and conditionals. It is printed in
the usual way, and it has a meaning that follows the tree: a value is looked up in the context at
hand, a loop gives its body one context for each row, and of the branches of a conditional one
survives.

Documents have their regions by content. While a document is rendered, they are known by numbers;
so what a region is is a parameter.
-/

namespace Stencil

mutual

/-- A document, from left to right. -/
inductive Doc (ρ : Type) where
  /-- The end. -/
  | nil
  /-- Text. -/
  | text (s : Text) (rest : Doc ρ)
  /-- A protected region. -/
  | region (content : ρ) (rest : Doc ρ)
  /-- The value at a path, perhaps filtered. -/
  | value (path : Text) (chain? : Option Text) (rest : Doc ρ)
  /-- A loop. -/
  | loop (head : LoopHead) (body rest : Doc ρ)
  /-- A conditional, with its first branch and the others. -/
  | choice (condition : Text) (body : Doc ρ) (others : Branches ρ) (rest : Doc ρ)

/-- The branches of a conditional behind its first. -/
inductive Branches (ρ : Type) where
  /-- There is none. -/
  | nil
  /-- One without a condition, which is the last. -/
  | otherwise (body : Doc ρ)
  /-- One with a condition. -/
  | elseif (condition : Text) (body : Doc ρ) (others : Branches ρ)

end

/-! ## Printing -/

/-- The tag of a value. -/
def valueTag (path : Text) : Option Text → Text
  | none => path
  | some chain => path ++ '|' :: chain

/-- The opening tag of a conditional. -/
def ifTag (condition : Text) : Text := "if".toList ++ ' ' :: condition

/-- The tag of a branch with a condition. -/
def elseifTag (condition : Text) : Text := "elseif".toList ++ ' ' :: condition

namespace LoopHead

/-- The opening tag of a loop. -/
def openingTag (head : LoopHead) : Text :=
  match head.form with
  | .bound name => name.toList ++ (" in ".toList ++ head.path)
  | .legacy => head.path

/-- The closing tag of a loop. -/
def closingTag (head : LoopHead) : Text :=
  match head.form with
  | .bound _ => "end ".toList ++ head.path
  | .legacy => '/' :: head.path

end LoopHead

variable {ρ F : Type}

mutual

/-- The parts of a document, from left to right. -/
def Doc.parts (piece : Piece Text → F) (region : ρ → F) : Doc ρ → List F
  | .nil => []
  | .text s rest => piece (.plain s) :: rest.parts piece region
  | .region content rest => region content :: rest.parts piece region
  | .value path chain? rest => piece (.tag (valueTag path chain?)) :: rest.parts piece region
  | .loop head body rest =>
    piece (.tag head.openingTag) ::
      (body.parts piece region ++ piece (.tag head.closingTag) :: rest.parts piece region)
  | .choice condition body others rest =>
    piece (.tag (ifTag condition)) ::
      (body.parts piece region ++ (others.parts piece region ++
        piece (.tag "endif".toList) :: rest.parts piece region))

/-- The parts of the branches behind the first. -/
def Branches.parts (piece : Piece Text → F) (region : ρ → F) : Branches ρ → List F
  | .nil => []
  | .otherwise body => piece (.tag "else".toList) :: body.parts piece region
  | .elseif condition body others =>
    piece (.tag (elseifTag condition)) ::
      (body.parts piece region ++ others.parts piece region)

end

/-- A document as a source. -/
def Doc.fragments (doc : Doc Text) : List Fragment :=
  doc.parts .piece fun content => .region "noparse".toList content "/noparse".toList

/-- The text of a document. -/
def Doc.print (d : Delimiters) (doc : Doc Text) : Text := Fragment.source d doc.fragments

/-! ## Meaning -/

mutual

/-- The meaning of a document in a context, given what regions stand for. -/
def Doc.meaning (e : Engine) (region : ρ → Text) : Doc ρ → Context → Text
  | .nil, _ => []
  | .text s rest, ctx => s ++ rest.meaning e region ctx
  | .region content rest, ctx => region content ++ rest.meaning e region ctx
  | .value path chain? rest, ctx =>
    (e.substitution.text? ctx ⟨path, chain?.map Text.trim⟩).getD [] ++ rest.meaning e region ctx
  | .loop head body rest, ctx =>
    ((Loop.rows ctx head).zipIdx.flatMap fun x =>
      body.meaning e region (Loop.rowContext head.form ctx x.2 x.1)) ++ rest.meaning e region ctx
  | .choice condition body others rest, ctx =>
    (Outline.survivor ctx ((some condition.trim, body.meaning e region ctx) ::
      others.meanings e region ctx)).getD [] ++ rest.meaning e region ctx

/-- The conditions of branches, and what the branches mean. -/
def Branches.meanings (e : Engine) (region : ρ → Text) :
    Branches ρ → Context → List (Option Text × Text)
  | .nil, _ => []
  | .otherwise body, ctx => [(none, body.meaning e region ctx)]
  | .elseif condition body others, ctx =>
    (some condition.trim, body.meaning e region ctx) :: others.meanings e region ctx

end

mutual

/-- Every value of a document is a text that hides no tag and no placeholder, in every scope that
it has. -/
def Doc.Yields (e : Engine) : Doc ρ → Context → Prop
  | .nil, _ => True
  | .text _ rest, ctx => rest.Yields e ctx
  | .region _ rest, ctx => rest.Yields e ctx
  | .value path chain? rest, ctx =>
    (∃ t, e.substitution.text? ctx ⟨path, chain?.map Text.trim⟩ = some t ∧ e.delimiters.Plain t ∧
      ProtectedRegions.opener ∉ t) ∧ rest.Yields e ctx
  | .loop head body rest, ctx =>
    (∀ x ∈ (Loop.rows ctx head).zipIdx, body.Yields e (Loop.rowContext head.form ctx x.2 x.1)) ∧
      rest.Yields e ctx
  | .choice _ body others rest, ctx => body.Yields e ctx ∧ others.Yields e ctx ∧ rest.Yields e ctx

/-- Every value of the branches is such a text. -/
def Branches.Yields (e : Engine) : Branches ρ → Context → Prop
  | .nil, _ => True
  | .otherwise body, ctx => body.Yields e ctx
  | .elseif _ body others, ctx => body.Yields e ctx ∧ others.Yields e ctx

end

/-! ## Well-formed documents -/

/-- A path that does not start with a word that tags are made of. -/
def Unreserved (path : Text) : Prop :=
  IsPath path ∧ Delimiters.leadingWord path ∉ reservedWords

/-- A condition that looks like the end of the opening tag of a loop. -/
def InPath (condition : Text) : Prop :=
  ∃ g gap path g', Blank g ∧ Blank gap ∧ gap ≠ [] ∧ IsPath path ∧ Blank g' ∧
    condition = g ++ ("in".toList ++ (gap ++ (path ++ g')))

/-- A condition: one line without delimiters, which does not make a loop of its tag. -/
def IsCondition (d : Delimiters) (condition : Text) : Prop :=
  d.Line condition ∧ ¬ InPath condition

/-- What a value tag may be like, given the paths of legacy loops: a plain one must not look like
the opening tag of one. -/
def IsValue (d : Delimiters) (legacy : List Text) (path : Text) (chain? : Option Text) : Prop :=
  Unreserved path ∧
    match chain? with
    | none => path ∉ legacy
    | some chain => d.Line chain

/-- What a loop may be like, given the paths of legacy loops. -/
def IsLoop (legacy : List Text) (head : LoopHead) : Prop :=
  Unreserved head.path ∧
    match head.form with
    | .bound name => Delimiters.IsName name.toList ∧ name.toList ∉ reservedWords
    | .legacy => head.path ∈ legacy

mutual

/-- The paths of the legacy loops of a document. -/
def Doc.legacyPaths : Doc ρ → List Text
  | .nil => []
  | .text _ rest => rest.legacyPaths
  | .region _ rest => rest.legacyPaths
  | .value _ _ rest => rest.legacyPaths
  | .loop head body rest =>
    (match head.form with
    | .bound _ => []
    | .legacy => [head.path]) ++ (body.legacyPaths ++ rest.legacyPaths)
  | .choice _ body others rest => body.legacyPaths ++ (others.legacyPaths ++ rest.legacyPaths)

/-- The paths of the legacy loops of branches. -/
def Branches.legacyPaths : Branches ρ → List Text
  | .nil => []
  | .otherwise body => body.legacyPaths
  | .elseif _ body others => body.legacyPaths ++ others.legacyPaths

end

/-- What the parts of a document may be like. -/
structure Rules (ρ : Type) where
  /-- What text may be like. -/
  text : Text → Prop
  /-- What a region may be like. -/
  region : ρ → Prop
  /-- What a value may be like. -/
  value : Text → Option Text → Prop
  /-- What a loop may be like. -/
  loop : LoopHead → Prop
  /-- What a condition may be like. -/
  condition : Text → Prop

mutual

/-- Every part of a document is what it may be like. -/
def Doc.Obeys (r : Rules ρ) : Doc ρ → Prop
  | .nil => True
  | .text s rest => r.text s ∧ rest.Obeys r
  | .region content rest => r.region content ∧ rest.Obeys r
  | .value path chain? rest => r.value path chain? ∧ rest.Obeys r
  | .loop head body rest => r.loop head ∧ body.Obeys r ∧ rest.Obeys r
  | .choice condition body others rest =>
    r.condition condition ∧ body.Obeys r ∧ others.Obeys r ∧ rest.Obeys r

/-- Every part of branches is what it may be like. -/
def Branches.Obeys (r : Rules ρ) : Branches ρ → Prop
  | .nil => True
  | .otherwise body => body.Obeys r
  | .elseif condition body others => r.condition condition ∧ body.Obeys r ∧ others.Obeys r

end

/-- What the parts of a document must be like to be printed with the tags that they are meant to
have: text hides no tag and no placeholder, regions are closed by their own closing tags only, and
tags have the wording of their kind. -/
def printable (d : Delimiters) (legacy : List Text) : Rules Text where
  text s := d.Plain s ∧ ProtectedRegions.opener ∉ s
  region content := d.Unclosed content ∧ ProtectedRegions.opener ∉ content
  value := IsValue d legacy
  loop := IsLoop legacy
  condition := IsCondition d

/-- A document that is printed with the tags that it is meant to have. -/
def Doc.WellFormed (d : Delimiters) (doc : Doc Text) : Prop :=
  doc.Obeys (printable d doc.legacyPaths)

end Stencil
