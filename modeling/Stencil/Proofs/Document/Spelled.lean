import Stencil.Proofs.Document.Readings

/-!
# Documents as they are spelled

A document has a skeleton: its texts and its regions, and the marks of its values, loops and
conditionals, from left to right. It is spelled by any outline that has its texts, and tags that
are read as its marks. All spellings of a document are alike, and the one in which it is printed is
among them; so rendering any of them gives what the document means.
-/

namespace Stencil

open Recognizer Outline Delimiters
open List (Forall₂)

/-! ## Marks -/

/-- What a tag of a document stands for. -/
inductive Mark where
  /-- A value. -/
  | value (v : Variable)
  /-- The start of a loop. -/
  | opening (head : LoopHead)
  /-- The end of a loop. -/
  | closing (head : LoopHead)
  /-- The start of a conditional or of one of its branches, or its end. -/
  | choice (c : Conditional)

namespace Mark

variable {d : Delimiters} {legacy : List Text} {m : Mark} {body : Text}

/-- A tag that is read as a mark. That of a conditional must not be the opening tag of a loop, nor a
value. -/
def SpelledBy (d : Delimiters) (body : Text) : Mark → Prop
  | .value v => reading d d.variableTag body = some v
  | .opening head =>
    match head.form with
    | .bound _ => reading d d.loopOpening body = some head
    | .legacy => reading d d.variableTag body = some ⟨head.path, none⟩
  | .closing head => reading d (loopClose d head.form) body = some head.path
  | .choice c => reading d d.conditionalTag body = some c ∧ reading d d.loopOpening body = none ∧
    ∀ v, reading d d.variableTag body = some v → v.path ∈ reservedWords

/-- A mark that is clear of reserved words. -/
def Clear (legacy : List Text) : Mark → Prop
  | .value v => Unreserved v.path
  | .opening head | .closing head => IsLoop legacy head
  | .choice _ => True

/-- What the grammars make of the tags of a mark. -/
def profile : Mark → Profile
  | .value v =>
    { value? := some v
      legacyOpening? := if v.chain?.isNone then some ⟨.legacy, v.path⟩ else none }
  | .opening head =>
    match head.form with
    | .bound _ => { opening? := some head }
    | .legacy =>
      { value? := some ⟨head.path, none⟩
        legacyOpening? := some ⟨.legacy, head.path⟩ }
  | .closing head =>
    match head.form with
    | .bound _ => { closing? := some head.path }
    | .legacy => { legacyClosing? := some head.path }
  | .choice c => { conditional? := some c }

/-- A mark decides what every grammar makes of its tags. -/
theorem reads (hd : d.Apart) (hlegacy : ∀ p ∈ legacy, Unreserved p) (hm : m.Clear legacy)
    (hb : d.Free body) (h : m.SpelledBy d body) : d.Reads legacy body m.profile := by
  cases m with
  | value v => exact reads_value hd hb h hm.2
  | opening head =>
    obtain ⟨form, path⟩ := head
    cases form with
    | bound name => exact reads_loopOpening hd hlegacy hb h hm.2.2
    | legacy => exact reads_value hd hb (v := ⟨path, none⟩) h hm.1.2
  | closing head =>
    obtain ⟨form, path⟩ := head
    cases form with
    | bound name => exact reads_loopClosing hd hlegacy hb h
    | legacy => exact reads_legacyClosing hd hlegacy hb h
  | choice c => exact reads_conditionalTag hd hlegacy hb h.1 h.2.1 h.2.2

/-- Legacy loops are closed by their own tags only. -/
theorem mem_of_legacyClosing (hm : m.Clear legacy) {path : Text}
    (h : m.profile.legacyClosing? = some path) : path ∈ legacy := by
  cases m with
  | value v => exact absurd h (by simp [profile])
  | opening head =>
    obtain ⟨form, path'⟩ := head
    cases form <;> exact absurd h (by simp [profile])
  | closing head =>
    obtain ⟨form, path'⟩ := head
    cases form with
    | bound name => exact absurd h (by simp [profile])
    | legacy =>
      obtain rfl : path' = path := by simpa [profile] using h
      exact hm.2
  | choice c => exact absurd h (by simp [profile])

/-- Two tags of one mark are alike. -/
theorem alike {σ : Substitution} (hd : σ.delimiters.Apart) (hlegacy : ∀ p ∈ legacy, Unreserved p)
    (hm : m.Clear legacy) {body' : Text} (hb : σ.delimiters.Free body)
    (hb' : σ.delimiters.Free body') (h : m.SpelledBy σ.delimiters body)
    (h' : m.SpelledBy σ.delimiters body') : Alike σ legacy body body' :=
  (m.reads hd hlegacy hm hb h).alike (m.reads hd hlegacy hm hb' h') (m.mem_of_legacyClosing hm)

/-- The tags of a document that is printed are read as its marks. -/
theorem spelledBy_valueTag (hd : d.Apart) {path : Text} {chain? : Option Text}
    (h : IsValue d legacy path chain?) :
    (value ⟨path, chain?.map Text.trim⟩).SpelledBy d (valueTag path chain?) :=
  reading_valueTag hd h

theorem spelledBy_loopTags (hd : d.Apart) {head : LoopHead} (h : IsLoop legacy head) :
    (opening head).SpelledBy d head.openingTag ∧ (closing head).SpelledBy d head.closingTag := by
  have hreadings := h.loopTags hd
  obtain ⟨form, path⟩ := head
  cases form with
  | bound name => exact ⟨hreadings.1.opening, hreadings.2.closing⟩
  | legacy => exact ⟨reading_value hd h.1.1, hreadings.2.legacyClosing⟩

theorem spelledBy_choiceTag (hd : d.Apart) {c : Conditional} (h : ChoiceTag d body c) :
    (choice c).SpelledBy d body := by
  refine ⟨h.reading_eq hd, Option.eq_none_iff_forall_ne_some.mpr fun head hr => ?_,
    fun v hr => h.reserved_value hd hr⟩
  have hidle : Idle d [] body := h.idle hd (by simp)
  exact bound_of_reading hr (hidle.heads head (List.mem_append_left _ (Option.mem_toList.mpr hr))).1

end Mark

/-! ## Skeletons -/

/-- A part of a document. -/
inductive Part (ρ : Type) where
  /-- Text. -/
  | text (s : Text)
  /-- A region. -/
  | region (content : ρ)
  /-- A mark. -/
  | mark (m : Mark)

section

variable {ρ : Type}

mutual

/-- The texts, regions and marks of a document, from left to right. -/
def Doc.skeleton : Doc ρ → List (Part ρ)
  | .nil => []
  | .text s rest => .text s :: rest.skeleton
  | .region content rest => .region content :: rest.skeleton
  | .value path chain? rest => .mark (.value ⟨path, chain?.map Text.trim⟩) :: rest.skeleton
  | .loop head body rest =>
    .mark (.opening head) :: (body.skeleton ++ .mark (.closing head) :: rest.skeleton)
  | .choice condition body others rest =>
    .mark (.choice (.opening condition.trim)) ::
      (body.skeleton ++ (others.skeleton ++ .mark (.choice .closing) :: rest.skeleton))

/-- Those of branches. -/
def Branches.skeleton : Branches ρ → List (Part ρ)
  | .nil => []
  | .otherwise body => .mark (.choice (.branch none)) :: body.skeleton
  | .elseif condition body others =>
    .mark (.choice (.branch (some condition.trim))) :: (body.skeleton ++ others.skeleton)

end

/-- What rules for documents ask of a part. -/
def Part.Obeys (r : Rules ρ) : Part ρ → Prop
  | .text s => r.text s
  | .region content => r.region content
  | .mark (.value v) => ∃ chain?, r.value v.path chain? ∧ v.chain? = chain?.map Text.trim
  | .mark (.opening head) | .mark (.closing head) => r.loop head
  | .mark (.choice _) => True

mutual

/-- The parts of a document obey the rules that the document obeys. -/
theorem Doc.obeys_skeleton {r : Rules ρ} : ∀ {doc : Doc ρ}, doc.Obeys r →
    ∀ x ∈ doc.skeleton, x.Obeys r
  | .nil, _ => List.forall_mem_nil _
  | .text _ _, h => List.forall_mem_cons.mpr ⟨h.1, Doc.obeys_skeleton h.2⟩
  | .region _ _, h => List.forall_mem_cons.mpr ⟨h.1, Doc.obeys_skeleton h.2⟩
  | .value _ chain? _, h =>
    List.forall_mem_cons.mpr ⟨⟨chain?, h.1, rfl⟩, Doc.obeys_skeleton h.2⟩
  | .loop _ _ _, h =>
    List.forall_mem_cons.mpr ⟨h.1, List.forall_mem_append.mpr
      ⟨Doc.obeys_skeleton h.2.1, List.forall_mem_cons.mpr ⟨h.1, Doc.obeys_skeleton h.2.2⟩⟩⟩
  | .choice _ _ _ _, h =>
    List.forall_mem_cons.mpr ⟨trivial, List.forall_mem_append.mpr
      ⟨Doc.obeys_skeleton h.2.1, List.forall_mem_append.mpr
        ⟨Branches.obeys_skeleton h.2.2.1,
          List.forall_mem_cons.mpr ⟨trivial, Doc.obeys_skeleton h.2.2.2⟩⟩⟩⟩

/-- So do those of branches. -/
theorem Branches.obeys_skeleton {r : Rules ρ} : ∀ {others : Branches ρ}, others.Obeys r →
    ∀ x ∈ others.skeleton, x.Obeys r
  | .nil, _ => List.forall_mem_nil _
  | .otherwise _, h => List.forall_mem_cons.mpr ⟨trivial, Doc.obeys_skeleton h⟩
  | .elseif _ _ _, h =>
    List.forall_mem_cons.mpr ⟨trivial, List.forall_mem_append.mpr
      ⟨Doc.obeys_skeleton h.2.1, Branches.obeys_skeleton h.2.2⟩⟩

end

theorem Mark.clear_of_obeys {d : Delimiters} {legacy : List Text} {r : Rules ρ}
    (hr : r.Strict d legacy) {m : Mark} (h : (Part.mark m).Obeys r) : m.Clear legacy := by
  cases m with
  | value v =>
    obtain ⟨chain?, hv, -⟩ := h
    exact (hr.value hv).1
  | opening head => exact hr.loop h
  | closing head => exact hr.loop h
  | choice c => trivial

/-! ## Spellings -/

/-- A piece that spells a part, given what spells a region. -/
inductive Part.SpelledBy (d : Delimiters) (region : ρ → Piece Text → Prop) :
    Part ρ → Piece Text → Prop where
  /-- A text is spelled as it is. -/
  | text (s : Text) : SpelledBy d region (.text s) (.plain s)
  /-- A region is spelled by what spells it. -/
  | region {content : ρ} {q : Piece Text} (spells : region content q) :
    SpelledBy d region (.region content) q
  /-- A mark is spelled by a tag that is read as it. -/
  | mark {m : Mark} {body : Text} (isFree : d.Free body) (spells : m.SpelledBy d body) :
    SpelledBy d region (.mark m) (.tag body)

/-- An outline that spells a document. -/
def Doc.SpelledBy (d : Delimiters) (region : ρ → Piece Text → Prop) (doc : Doc ρ)
    (ps : List (Piece Text)) : Prop :=
  Forall₂ (Part.SpelledBy d region) doc.skeleton ps

end

namespace Doc.SpelledBy

variable {ρ : Type} {d : Delimiters} {region : ρ → Piece Text → Prop} {doc : Doc ρ}
  {ps : List (Piece Text)}

/-- What holds of all that spells a part of a document holds of all pieces of a spelling. -/
theorem forall_mem (h : doc.SpelledBy d region ps) {A : Piece Text → Prop}
    (hA : ∀ x ∈ doc.skeleton, ∀ q, x.SpelledBy d region q → A q) : ∀ q ∈ ps, A q := by
  rw [Doc.SpelledBy] at h
  generalize doc.skeleton = xs at h hA
  induction h with
  | nil => exact List.forall_mem_nil _
  | cons hq _ ih =>
    obtain ⟨hx, hxs⟩ := List.forall_mem_cons.mp hA
    exact List.forall_mem_cons.mpr ⟨hx _ hq, ih hxs⟩

/-- What holds of the tags that spell regions, and of those of marks, holds of all tags. -/
theorem forall_tag (h : doc.SpelledBy d region ps) {A : Text → Prop}
    (hregion : ∀ content body, .region content ∈ doc.skeleton → region content (.tag body) → A body)
    (hmark : ∀ m body, .mark m ∈ doc.skeleton → d.Free body → m.SpelledBy d body → A body) :
    ∀ body, .tag body ∈ ps → A body := by
  intro body hbody
  refine h.forall_mem (A := fun q => ∀ body, q = .tag body → A body) (fun x hx q hq => ?_) _ hbody
    body rfl
  rintro body rfl
  cases hq with
  | region hq => exact hregion _ body hx hq
  | mark hb hspells => exact hmark _ body hx hb hspells

/-- Every part of a document is spelled by some piece. -/
theorem exists_mem (h : doc.SpelledBy d region ps) {x : Part ρ} (hx : x ∈ doc.skeleton) :
    ∃ q ∈ ps, x.SpelledBy d region q := by
  rw [Doc.SpelledBy] at h
  generalize doc.skeleton = xs at h hx
  induction h with
  | nil => exact absurd hx (by simp)
  | cons hq _ ih =>
    rcases List.mem_cons.mp hx with rfl | hx
    · exact ⟨_, by simp, hq⟩
    · obtain ⟨q, hq, hspells⟩ := ih hx
      exact ⟨q, by simp [hq], hspells⟩

/-- Spellings are tidy, if those of regions are. -/
theorem tidy {legacy : List Text} {r : Rules ρ} (hr : r.Strict d legacy) (hdoc : doc.Obeys r)
    (hregion : ∀ content q, region content q → q.Tidy d id) (h : doc.SpelledBy d region ps) :
    Tidy d id ps := by
  refine h.forall_mem fun x hx q hq => ?_
  have hpart := Doc.obeys_skeleton hdoc x hx
  cases hq with
  | text s => exact hr.text hpart
  | region hq => exact hregion _ q hq
  | mark hb _ => exact hb

/-- The tags of a spelling have no part in composition, if those of regions have none. -/
theorem silent (hd : d.Apart) {legacy : List Text} (hlegacy : ∀ p ∈ legacy, Unreserved p)
    {r : Rules ρ} (hr : r.Strict d legacy) (hdoc : doc.Obeys r)
    (hregion : ∀ content body, region content (.tag body) → d.Silent body)
    (h : doc.SpelledBy d region ps) : ∀ body, .tag body ∈ ps → d.Silent body :=
  h.forall_tag (fun content body _ => hregion content body) fun _ _ hm hb hspells =>
    (Mark.reads hd hlegacy (Mark.clear_of_obeys hr (Doc.obeys_skeleton hdoc _ hm))
      hb hspells).silent

end Doc.SpelledBy

/-- A placeholder spells the region that it stands for. -/
def IsPlaceholder (index : Nat) (q : Piece Text) : Prop :=
  q = .plain (ProtectedRegions.placeholder index)

section

variable {d : Delimiters} {legacy : List Text} {r : Rules Nat}

mutual

/-- A document is spelled as it is printed. -/
theorem Doc.spelledBy_pieces (hd : d.Apart) (hr : r.Strict d legacy) : ∀ {doc : Doc Nat},
    doc.Obeys r → Forall₂ (Part.SpelledBy d IsPlaceholder) doc.skeleton doc.pieces
  | .nil, _ => .nil
  | .text s _, h => .cons (.text s) (Doc.spelledBy_pieces hd hr h.2)
  | .region _ _, h => .cons (.region rfl) (Doc.spelledBy_pieces hd hr h.2)
  | .value _ _ _, h =>
    have hvalue := hr.value h.1
    .cons (.mark (free_valueTag hd hvalue) (Mark.spelledBy_valueTag hd hvalue))
      (Doc.spelledBy_pieces hd hr h.2)
  | .loop _ _ _, h =>
    have hloop := hr.loop h.1
    have hspells := Mark.spelledBy_loopTags hd hloop
    .cons (.mark (hloop.free hd).1 hspells.1)
      (List.rel_append (Doc.spelledBy_pieces hd hr h.2.1)
        (.cons (.mark (hloop.free hd).2 hspells.2) (Doc.spelledBy_pieces hd hr h.2.2)))
  | .choice _ _ _ _, h =>
    have hopening : ChoiceTag d _ _ := .opening (hr.condition h.1)
    have hclosing : ChoiceTag d _ _ := .closing
    .cons (.mark (hopening.free hd) (Mark.spelledBy_choiceTag hd hopening))
      (List.rel_append (Doc.spelledBy_pieces hd hr h.2.1)
        (List.rel_append (Branches.spelledBy_pieces hd hr h.2.2.1)
          (.cons (.mark (hclosing.free hd) (Mark.spelledBy_choiceTag hd hclosing))
            (Doc.spelledBy_pieces hd hr h.2.2.2))))

/-- So are branches. -/
theorem Branches.spelledBy_pieces (hd : d.Apart) (hr : r.Strict d legacy) :
    ∀ {others : Branches Nat}, others.Obeys r →
      Forall₂ (Part.SpelledBy d IsPlaceholder) others.skeleton others.pieces
  | .nil, _ => .nil
  | .otherwise _, h =>
    have htag : ChoiceTag d _ _ := .otherwise
    .cons (.mark (htag.free hd) (Mark.spelledBy_choiceTag hd htag)) (Doc.spelledBy_pieces hd hr h)
  | .elseif _ _ _, h =>
    have htag : ChoiceTag d _ _ := .elseif (hr.condition h.1)
    .cons (.mark (htag.free hd) (Mark.spelledBy_choiceTag hd htag))
      (List.rel_append (Doc.spelledBy_pieces hd hr h.2.1) (Branches.spelledBy_pieces hd hr h.2.2))

end

/-- Two spellings of a document are alike. -/
theorem Doc.SpelledBy.respelled {σ : Substitution} (hd : σ.delimiters.Apart)
    (hlegacy : ∀ p ∈ legacy, Unreserved p) (hr : r.Strict σ.delimiters legacy) {doc : Doc Nat}
    (h : doc.Obeys r) {ps qs : List (Piece Text)}
    (hps : doc.SpelledBy σ.delimiters IsPlaceholder ps)
    (hqs : doc.SpelledBy σ.delimiters IsPlaceholder qs) : Respelled σ legacy ps qs := by
  have hparts := Doc.obeys_skeleton h
  rw [Doc.SpelledBy] at hps hqs
  generalize doc.skeleton = xs at hps hqs hparts
  induction hps generalizing qs with
  | nil =>
    cases hqs
    exact .nil
  | cons hp hps ih =>
    cases hqs with
    | cons hq hqs =>
      obtain ⟨hpart, hparts⟩ := List.forall_mem_cons.mp hparts
      refine .cons ?_ (ih hqs hparts)
      cases hp with
      | text s => cases hq; exact .plain s
      | region hp =>
        cases hq with
        | region hq =>
          obtain rfl := hp
          obtain rfl := hq
          exact .plain _
      | mark hb hspells =>
        cases hq with
        | mark hb' hspells' =>
          exact .tag (Mark.alike hd hlegacy (Mark.clear_of_obeys hr hpart) hb hb' hspells hspells')

end

section

variable {e : Engine} {legacy : List Text} {r : Rules Nat} {ctx : Context}

/-- The values of a document whose loops have been expanded are texts in which no tag starts. -/
theorem Doc.fills_unrolled (hd : e.delimiters.Apart) (hr : r.Strict e.delimiters legacy)
    {doc : Doc Nat} (h : doc.Obeys r) (hy : doc.Resolves e ctx) :
    Fills e.substitution ctx (doc.unrolled e ProtectedRegions.placeholder ctx).pieces := by
  have hobeys := doc.obeys_unrolled hd hr.text ctx h hy
  have hpieces : Doc.SpelledBy _ _ _ _ := Doc.spelledBy_pieces hd (hr.unrolled ctx) hobeys
  refine hpieces.forall_tag (fun _ _ _ hq => absurd hq (by simp [IsPlaceholder])) ?_
  intro m body hm _ hspells t ht
  have hpart := Doc.obeys_skeleton hobeys _ hm
  cases m with
  | value v =>
    obtain ⟨chain?, ⟨-, t', ht', hplain⟩, hchain⟩ := hpart
    obtain ⟨path, chain'?⟩ := v
    obtain rfl : chain'? = chain?.map Text.trim := hchain
    change (reading e.delimiters e.delimiters.variableTag body).bind _ = _ at ht
    rw [show reading _ _ body = _ from hspells, Option.bind_some] at ht
    exact Option.some.inj (ht'.symm.trans ht) ▸ hplain
  | opening head => exact hpart.elim
  | closing head => exact hpart.elim
  | choice c =>
    obtain ⟨v, hv, htext⟩ := Option.bind_eq_some_iff.mp ht
    rw [Substitution.text?, if_pos (by simpa using hspells.2.2 v hv)] at htext
    exact absurd htext (by simp)

/-- Rendering any spelling of a document gives what the document means. -/
theorem Doc.SpelledBy.process (hd : e.delimiters.Apart) (hplugins : e.plugins = [])
    (hlegacy : ∀ p ∈ legacy, Unreserved p) (hr : r.Strict e.delimiters legacy) {doc : Doc Nat}
    (h : doc.Obeys r) (hy : doc.Resolves e ctx) {ps : List (Piece Text)}
    (hps : doc.SpelledBy e.delimiters IsPlaceholder ps) (isDocument : Bool) :
    e.process ctx isDocument (write e.delimiters id ps) =
      doc.meaning e ProtectedRegions.placeholder ctx := by
  -- what the printed document is rendered as is known, and every spelling respells it
  have hprocess := Doc.process_eq_meaning hd hplugins hlegacy hr h hy isDocument
  have hcanonical : doc.SpelledBy e.delimiters IsPlaceholder doc.pieces :=
    Doc.spelledBy_pieces hd hr h
  have hrespelled : Respelled e.substitution legacy doc.pieces ps :=
    hcanonical.respelled (σ := e.substitution) hd hlegacy hr h hps
  rw [← hprocess]
  refine hrespelled.process hd hplugins (doc.tidy hd hr h) (Doc.settles hd hlegacy hr h hy) ?_ ?_
  · rw [Doc.expanded_pieces hd hlegacy hr h hy]
    exact Doc.fills_unrolled hd hr h hy
  · rw [hprocess]
    exact doc.plain_meaning hr.text hd.plain_placeholder ctx h hy

end

end Stencil
