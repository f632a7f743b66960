import Stencil.Proofs.Composition.Sources
import Stencil.Proofs.Document.Tags

/-!
# The outlines of documents

When the regions of a document have been put aside, its outline is read off the tree: every leaf is
a piece, and the tags of loops and conditionals stand around the pieces of what is inside them. So
the tags balance, whichever kind of pair one looks for, and the branches of a conditional are split
where the tree has them.
-/

namespace Stencil

open Recognizer Outline

variable {d : Delimiters} {legacy : List Text}

/-! ## Pieces -/

/-- The outline of a document whose regions have been put aside. -/
def Doc.pieces (doc : Doc Nat) : List (Piece Text) :=
  doc.parts id fun index => .plain (ProtectedRegions.placeholder index)

/-- The outline of branches behind the first. -/
def Branches.pieces (others : Branches Nat) : List (Piece Text) :=
  others.parts id fun index => .plain (ProtectedRegions.placeholder index)

section

variable (s condition path : Text) (index : Nat) (chain? : Option Text) (head : LoopHead)
  (body rest : Doc Nat) (others : Branches Nat)

@[simp]
theorem Doc.pieces_nil : Doc.nil.pieces = [] := rfl

@[simp]
theorem Doc.pieces_text : (Doc.text s rest).pieces = .plain s :: rest.pieces := rfl

@[simp]
theorem Doc.pieces_region : (Doc.region index rest).pieces =
    .plain (ProtectedRegions.placeholder index) :: rest.pieces := rfl

@[simp]
theorem Doc.pieces_value : (Doc.value path chain? rest).pieces =
    .tag (valueTag path chain?) :: rest.pieces := rfl

@[simp]
theorem Doc.pieces_loop : (Doc.loop head body rest).pieces =
    .tag head.openingTag :: (body.pieces ++ .tag head.closingTag :: rest.pieces) := rfl

@[simp]
theorem Doc.pieces_choice : (Doc.choice condition body others rest).pieces =
    .tag (ifTag condition) ::
      (body.pieces ++ (others.pieces ++ .tag "endif".toList :: rest.pieces)) := rfl

@[simp]
theorem Branches.pieces_nil : Branches.nil.pieces = [] := rfl

@[simp]
theorem Branches.pieces_otherwise : (Branches.otherwise body).pieces =
    .tag "else".toList :: body.pieces := rfl

@[simp]
theorem Branches.pieces_elseif : (Branches.elseif condition body others).pieces =
    .tag (elseifTag condition) :: (body.pieces ++ others.pieces) := rfl

end

/-- What outlines of documents are made of. -/
inductive Drawn (d : Delimiters) (legacy : List Text) : Piece Text → Prop where
  /-- Text, or a placeholder. -/
  | plain {s : Text} (isPlain : d.Plain s) : Drawn d legacy (.plain s)
  /-- A value. -/
  | value {path : Text} {chain? : Option Text} (isValue : IsValue d legacy path chain?) :
    Drawn d legacy (.tag (valueTag path chain?))
  /-- The opening tag of a loop. -/
  | opening {head : LoopHead} (isLoop : IsLoop legacy head) :
    Drawn d legacy (.tag head.openingTag)
  /-- The closing tag of a loop. -/
  | closing {head : LoopHead} (isLoop : IsLoop legacy head) :
    Drawn d legacy (.tag head.closingTag)
  /-- A tag of a conditional. -/
  | choice {body : Text} {c : Conditional} (isChoice : ChoiceTag d body c) :
    Drawn d legacy (.tag body)

namespace Drawn

theorem tidy (hd : d.Apart) {q : Piece Text} (h : Drawn d legacy q) : q.Tidy d id := by
  cases h with
  | plain hs => exact hs
  | value hv => exact free_valueTag hd hv
  | opening hl => exact (hl.free hd).1
  | closing hl => exact (hl.free hd).2
  | choice hc => exact hc.free hd

theorem silent (hd : d.Apart) {body : Text} (h : Drawn d legacy (.tag body)) : d.Silent body := by
  generalize hq : Piece.tag body = q at h
  cases h with
  | plain hs => exact absurd hq (by simp)
  | value hv => exact Piece.tag.inj hq ▸ silent_valueTag hd hv
  | opening hl => exact Piece.tag.inj hq ▸ (hl.silent hd).1
  | closing hl => exact Piece.tag.inj hq ▸ (hl.silent hd).2
  | choice hc => exact Piece.tag.inj hq ▸ hc.silent hd

/-- Only legacy loops are closed by their path. -/
theorem mem_of_legacyClosing (hd : d.Apart) (hlegacy : ∀ p ∈ legacy, Unreserved p)
    {body path : Text} (h : Drawn d legacy (.tag body))
    (hr : reading d d.legacyClosing body = some path) :
    path ∈ legacy := by
  have hidle : ∀ {b : Text}, Idle d legacy b → b = body → path ∈ legacy := by
    rintro _ hb rfl
    rw [hb.legacyClosing] at hr
    exact absurd hr (by simp)
  generalize hq : Piece.tag body = q at h
  cases h with
  | plain hs => exact absurd hq (by simp)
  | value hv => exact hidle (idle_valueTag hd hv) (Piece.tag.inj hq).symm
  | @opening head hl =>
    obtain rfl := Piece.tag.inj hq
    rw [(hl.loopTags hd).closed.1] at hr
    exact absurd hr (by simp)
  | @closing head hl =>
    obtain rfl := Piece.tag.inj hq
    obtain ⟨hform, rfl⟩ := (hl.loopTags hd).closed.2 _ hr
    have hmem := hl.2
    rwa [hform] at hmem
  | choice hc => exact hidle (hc.idle hd hlegacy) (Piece.tag.inj hq).symm

end Drawn

/-! ## Documents that obey rules -/

/-- Rules that ask for no less than that the tags of a document have the wording of their kind. -/
structure Rules.Strict {ρ : Type} (r : Rules ρ) (d : Delimiters) (legacy : List Text) : Prop where
  /-- No tag starts in text. -/
  text : ∀ {s}, r.text s → d.Plain s
  /-- Values look like values. -/
  value : ∀ {path chain?}, r.value path chain? → IsValue d legacy path chain?
  /-- Loops look like loops. -/
  loop : ∀ {head}, r.loop head → IsLoop legacy head
  /-- Conditions look like conditions. -/
  condition : ∀ {condition}, r.condition condition → IsCondition d condition

section

variable {ρ F : Type} {r : Rules ρ} {piece : Piece Text → F} {region : ρ → F}

mutual

/-- The parts of a document are its regions, and the pieces that documents are made of. -/
theorem Doc.mem_parts (hr : r.Strict d legacy) : ∀ doc : Doc ρ, doc.Obeys r →
    ∀ f ∈ doc.parts piece region, (∃ q, Drawn d legacy q ∧ f = piece q) ∨
      ∃ content, r.region content ∧ f = region content
  | .nil, _ => fun f hf => absurd hf (by simp [Doc.parts])
  | .text s rest, h => by
    obtain ⟨hs, hrest⟩ := h
    simp only [Doc.parts, List.forall_mem_cons]
    exact ⟨.inl ⟨_, .plain (hr.text hs), rfl⟩, rest.mem_parts hr hrest⟩
  | .region content rest, h => by
    obtain ⟨hcontent, hrest⟩ := h
    simp only [Doc.parts, List.forall_mem_cons]
    exact ⟨.inr ⟨_, hcontent, rfl⟩, rest.mem_parts hr hrest⟩
  | .value path chain? rest, h => by
    obtain ⟨hvalue, hrest⟩ := h
    simp only [Doc.parts, List.forall_mem_cons]
    exact ⟨.inl ⟨_, .value (hr.value hvalue), rfl⟩, rest.mem_parts hr hrest⟩
  | .loop head body rest, h => by
    obtain ⟨hhead, hbody, hrest⟩ := h
    simp only [Doc.parts, List.forall_mem_cons, List.forall_mem_append]
    exact ⟨.inl ⟨_, .opening (hr.loop hhead), rfl⟩, body.mem_parts hr hbody,
      .inl ⟨_, .closing (hr.loop hhead), rfl⟩, rest.mem_parts hr hrest⟩
  | .choice condition body others rest, h => by
    obtain ⟨hcondition, hbody, hothers, hrest⟩ := h
    simp only [Doc.parts, List.forall_mem_cons, List.forall_mem_append]
    exact ⟨.inl ⟨_, .choice (.opening (hr.condition hcondition)), rfl⟩, body.mem_parts hr hbody,
      others.mem_parts hr hothers, .inl ⟨_, .choice .closing, rfl⟩, rest.mem_parts hr hrest⟩

/-- The same for branches. -/
theorem Branches.mem_parts (hr : r.Strict d legacy) : ∀ others : Branches ρ, others.Obeys r →
    ∀ f ∈ others.parts piece region, (∃ q, Drawn d legacy q ∧ f = piece q) ∨
      ∃ content, r.region content ∧ f = region content
  | .nil, _ => fun f hf => absurd hf (by simp [Branches.parts])
  | .otherwise body, h => by
    simp only [Branches.parts, List.forall_mem_cons]
    exact ⟨.inl ⟨_, .choice .otherwise, rfl⟩, body.mem_parts hr h⟩
  | .elseif condition body others, h => by
    obtain ⟨hcondition, hbody, hothers⟩ := h
    simp only [Branches.parts, List.forall_mem_cons, List.forall_mem_append]
    exact ⟨.inl ⟨_, .choice (.elseif (hr.condition hcondition)), rfl⟩, body.mem_parts hr hbody,
      others.mem_parts hr hothers⟩

end

end

section

variable {r : Rules Nat}

theorem Doc.drawn (hd : d.Apart) (hr : r.Strict d legacy) {doc : Doc Nat} (h : doc.Obeys r) :
    ∀ q ∈ doc.pieces, Drawn d legacy q := by
  intro q hq
  rcases doc.mem_parts hr h q hq with ⟨_, hdrawn, rfl⟩ | ⟨index, -, rfl⟩
  · exact hdrawn
  · exact .plain (hd.plain_placeholder index)

theorem Branches.drawn (hd : d.Apart) (hr : r.Strict d legacy) {others : Branches Nat}
    (h : others.Obeys r) : ∀ q ∈ others.pieces, Drawn d legacy q := by
  intro q hq
  rcases others.mem_parts hr h q hq with ⟨_, hdrawn, rfl⟩ | ⟨index, -, rfl⟩
  · exact hdrawn
  · exact .plain (hd.plain_placeholder index)

theorem Doc.tidy (hd : d.Apart) (hr : r.Strict d legacy) {doc : Doc Nat} (h : doc.Obeys r) :
    Tidy d id doc.pieces :=
  fun q hq => (doc.drawn hd hr h q hq).tidy hd

/-! ## Tags that balance -/

/-- A way to see tags as openings and closings that suits documents. -/
structure Suits (opens closes : Text → Bool) (r : Rules Nat) : Prop where
  /-- Values are neither. -/
  value : ∀ {path chain?}, r.value path chain? →
    opens (valueTag path chain?) = false ∧ closes (valueTag path chain?) = false
  /-- The tags of a loop balance each other, or neither matters. -/
  loop : ∀ {head}, r.loop head → closes head.openingTag = false ∧ opens head.closingTag = false ∧
    closes head.closingTag = opens head.openingTag
  /-- So do the outer tags of a conditional. -/
  choice : ∀ {condition}, r.condition condition → closes (ifTag condition) = false ∧
    opens "endif".toList = false ∧ closes "endif".toList = opens (ifTag condition)
  /-- The tags between branches are neither. -/
  elseif : ∀ {condition}, r.condition condition →
    opens (elseifTag condition) = false ∧ closes (elseifTag condition) = false
  /-- The tag of the last branch is neither. -/
  otherwise : opens "else".toList = false ∧ closes "else".toList = false

mutual

/-- A split passes over a document. -/
theorem Doc.passes {opens closes : Text → Bool} (hs : Suits opens closes r) :
    ∀ doc : Doc Nat, doc.Obeys r → Passes opens closes doc.pieces
  | .nil, _ => .nil
  | .text _ rest, h => .plain _ (rest.passes hs h.2)
  | .region _ rest, h => .plain _ (rest.passes hs h.2)
  | .value path chain? rest, h => .other (hs.value h.1).1 (hs.value h.1).2 (rest.passes hs h.2)
  | .loop head body rest, h => by
    obtain ⟨hfront, hback, hbalance⟩ := hs.loop h.1
    exact .enclosed hfront hback hbalance (body.passes hs h.2.1) (rest.passes hs h.2.2)
  | .choice condition body others rest, h => by
    obtain ⟨hcondition, hbody, hothers, hrest⟩ := h
    obtain ⟨hfront, hback, hbalance⟩ := hs.choice hcondition
    rw [Doc.pieces_choice, ← List.append_assoc]
    exact .enclosed hfront hback hbalance ((body.passes hs hbody).append (others.passes hs hothers))
      (rest.passes hs hrest)

/-- A split passes over branches. -/
theorem Branches.passes {opens closes : Text → Bool} (hs : Suits opens closes r) :
    ∀ others : Branches Nat, others.Obeys r → Passes opens closes others.pieces
  | .nil, _ => .nil
  | .otherwise body, h => .other hs.otherwise.1 hs.otherwise.2 (body.passes hs h)
  | .elseif _ body others, h =>
    .other (hs.elseif h.1).1 (hs.elseif h.1).2
      ((body.passes hs h.2.1).append (others.passes hs h.2.2))

end

/-- Loops of one kind suit documents. -/
theorem suits_loops (hd : d.Apart) (hlegacy : ∀ p ∈ legacy, Unreserved p) (hr : r.Strict d legacy)
    {a : LoopHead} (ha : a.form = .legacy → a.path ∈ legacy) :
    Suits ((loopPairing d).opens a) ((loopPairing d).closes a) r := by
  have hidle : ∀ {body : Text}, Idle d legacy body →
      (loopPairing d).opens a body = false ∧ (loopPairing d).closes a body = false :=
    fun hb => ⟨opens_eq_false hb ha, closes_eq_false hb a⟩
  refine ⟨fun hv => hidle (idle_valueTag hd (hr.value hv)), fun hl => ?_, fun hc => ?_,
    fun hc => hidle ((ChoiceTag.elseif (hr.condition hc)).idle hd hlegacy),
    hidle (ChoiceTag.otherwise.idle hd hlegacy)⟩
  · obtain ⟨hopens, hcloses, hopens', hcloses'⟩ := ((hr.loop hl).loopTags hd).pairing a
    exact ⟨hcloses, hopens', hcloses'.trans hopens.symm⟩
  · have hfront := hidle ((ChoiceTag.opening (hr.condition hc)).idle hd hlegacy)
    have hback := hidle (ChoiceTag.closing.idle (d := d) hd hlegacy)
    exact ⟨hfront.2, hback.1, hback.2.trans hfront.1.symm⟩

/-- Conditionals suit documents. -/
theorem suits_choices (hd : d.Apart) (hr : r.Strict d legacy) :
    Suits (opensChoice d) (closesChoice d) r := by
  have hnone : ∀ {body : Text}, reading d d.conditionalTag body = none →
      opensChoice d body = false ∧ closesChoice d body = false := by
    intro body hb
    simp [opensChoice, closesChoice, hb]
  refine ⟨fun hv => hnone (conditionalTag_valueTag hd (hr.value hv)), fun hl => ?_, fun hc => ?_,
    fun hc => ?_, ?_⟩
  · obtain ⟨hfront, hback⟩ := (hr.loop hl).conditionalTag hd
    exact ⟨(hnone hfront).2, (hnone hback).1, (hnone hback).2.trans (hnone hfront).1.symm⟩
  · have hfront := (ChoiceTag.opening (hr.condition hc)).reading_eq hd
    have hback := ChoiceTag.closing.reading_eq hd
    rw [opensChoice, closesChoice, opensChoice, closesChoice, hfront, hback]
    exact ⟨rfl, rfl, rfl⟩
  · rw [opensChoice, closesChoice, (ChoiceTag.elseif (hr.condition hc)).reading_eq hd]
    exact ⟨rfl, rfl⟩
  · rw [opensChoice, closesChoice, ChoiceTag.otherwise.reading_eq hd]
    exact ⟨rfl, rfl⟩

/-! ## Branches -/

mutual

/-- A document stays in one branch. -/
theorem Doc.kept (hd : d.Apart) (hr : r.Strict d legacy) (low : Nat) :
    ∀ doc : Doc Nat, doc.Obeys r → Kept d low doc.pieces
  | .nil, _ => .nil
  | .text _ rest, h => .plain _ (rest.kept hd hr low h.2)
  | .region _ rest, h => .plain _ (rest.kept hd hr low h.2)
  | .value path chain? rest, h =>
    .other (conditionalTag_valueTag hd (hr.value h.1)) (rest.kept hd hr low h.2)
  | .loop head body rest, h => by
    obtain ⟨hfront, hback⟩ := (hr.loop h.1).conditionalTag hd
    exact .other hfront ((body.kept hd hr low h.2.1).append
      (.other hback (rest.kept hd hr low h.2.2)))
  | .choice condition body others rest, h => by
    obtain ⟨hcondition, hbody, hothers, hrest⟩ := h
    rw [Doc.pieces_choice, ← List.append_assoc]
    exact .choice ((ChoiceTag.opening (hr.condition hcondition)).reading_eq hd)
      (ChoiceTag.closing.reading_eq hd)
      ((body.kept hd hr (low + 1) hbody).append (others.kept hd hr low hothers))
      (rest.kept hd hr low hrest)

/-- Inside another conditional, branches stay in its branch. -/
theorem Branches.kept (hd : d.Apart) (hr : r.Strict d legacy) (low : Nat) :
    ∀ others : Branches Nat, others.Obeys r → Kept d (low + 1) others.pieces
  | .nil, _ => .nil
  | .otherwise body, h =>
    .branch (ChoiceTag.otherwise.reading_eq hd) (Nat.succ_pos low) (body.kept hd hr (low + 1) h)
  | .elseif _ body others, h =>
    .branch ((ChoiceTag.elseif (hr.condition h.1)).reading_eq hd) (Nat.succ_pos low)
      ((body.kept hd hr (low + 1) h.2.1).append (others.kept hd hr low h.2.2))

end

/-- The branches behind the first, by their conditions. -/
def Branches.bodies {ρ : Type} : Branches ρ → List (Option Text × Doc ρ)
  | .nil => []
  | .otherwise body => [(none, body)]
  | .elseif condition body others => (some condition.trim, body) :: others.bodies

/-- The branches of a conditional are split where the document has them. -/
theorem branches_pieces (hd : d.Apart) (hr : r.Strict d legacy) {body : Doc Nat}
    (hbody : body.Obeys r) (condition? : Option Text) : ∀ {others : Branches Nat}, others.Obeys r →
      branches d 0 condition? [] (body.pieces ++ others.pieces) =
        ((condition?, body) :: others.bodies).map fun x => (x.1, x.2.pieces)
  | .nil, _ => by
    rw [(body.kept hd hr 0 hbody) 0 condition? [] _ (Nat.le_refl 0)]
    rfl
  | .otherwise last, h => by
    have hread := (ChoiceTag.otherwise (d := d)).reading_eq hd
    have hlast := last.kept hd hr 0 h 0 none [] [] (Nat.le_refl 0)
    rw [List.append_nil] at hlast
    rw [(body.kept hd hr 0 hbody) 0 condition? [] _ (Nat.le_refl 0), Branches.pieces_otherwise,
      branches_branch hread, hlast]
    rfl
  | .elseif condition next others, h => by
    obtain ⟨hcondition, hnext, hothers⟩ := h
    have hread := (ChoiceTag.elseif (hr.condition hcondition)).reading_eq hd
    rw [(body.kept hd hr 0 hbody) 0 condition? [] _ (Nat.le_refl 0), Branches.pieces_elseif,
      branches_branch hread, branches_pieces hd hr hnext (some condition.trim) hothers]
    rfl

end

end Stencil
