import Stencil.Proofs.Composition.Nested
import Stencil.Proofs.Document.Syntax

/-!
# The tags of documents

What every grammar makes of the tags of a document. A tag is read by the grammar that it is meant
for; another grammar reads it only where that does no harm: a plain value looks like the opening
tag of a legacy loop without a closing tag, and so does a keyword, which also looks like a value
under a reserved path.
-/

namespace Stencil

open Recognizer Outline

namespace Delimiters

variable {d : Delimiters} {body : Text}

/-! ## Words of tags -/

/-- A body that starts with a path starts with the word of the path, and a blank does not follow
that word unless it follows the path. -/
theorem words_path {p tail : Text} (hp : IsPath p) (htail : tail.head?.any isWordChar = false) :
    leadingWord (p ++ tail) = leadingWord p ∧ leadingWord p ≠ [] ∧
      ((leadingWord p = p ∧ afterWord (p ++ tail) = tail) ∨
        (afterWord (p ++ tail)).head? = some '.' ∨ (afterWord (p ++ tail)).head? = some '-') := by
  obtain ⟨w, rest, hsplit, hne, -, hrest, hwords⟩ := IsPath.words hp
  have hself := (@hwords [] [] blank_nil rfl).1
  obtain ⟨hleading, hafter⟩ := @hwords [] tail blank_nil htail
  rw [List.nil_append] at hself hleading hafter
  rw [List.append_nil] at hself
  rw [hleading, hafter, hself]
  refine ⟨rfl, hne, ?_⟩
  rcases hrest with rfl | hpoint | ⟨t, rfl⟩
  · exact .inl ⟨by rw [hsplit, List.append_nil], rfl⟩
  · exact .inr (.inl (by rw [List.head?_append, hpoint, Option.some_or]))
  · exact .inr (.inr rfl)

theorem words_loopOpening (hd : d.Apart) (hb : d.Free body) {head : LoopHead}
    (h : reading d d.loopOpening body = some head) :
    leadingWord body ≠ [] ∧ ∃ gap rest, Blank gap ∧ gap ≠ [] ∧
      afterWord body = gap ++ ("in".toList ++ rest) ∧
      ∃ gap' path g', Blank gap' ∧ gap' ≠ [] ∧ IsPath path ∧ Blank g' ∧
      rest = gap' ++ (path ++ g') := by
  obtain ⟨g, c, name, gap, gap', g', hg, hc, hname, hgap, hne, hgap', hne', hg', hp, rfl, -⟩ :=
    shape_loopOpening hd hb h
  have hc' := isNameChar_of_isNameStart hc
  have hword := not_word_of_blank (t := "in".toList ++ (gap' ++ (head.path ++ g'))) hgap hne
  refine ⟨by rw [leadingWord_eq hg hc' hname hword]; simp, gap,
    gap' ++ (head.path ++ g'), hgap, hne,
    afterWord_eq hg hc' hname hword, gap', head.path, g', hgap', hne', hp, hg', rfl⟩

theorem words_legacyOpening (hd : d.Apart) (hb : d.Free body) {head : LoopHead}
    (h : reading d d.legacyOpening body = some head) :
    leadingWord body ≠ [] ∧ ((leadingWord body = head.path ∧ Blank (afterWord body)) ∨
      (afterWord body).head? = some '.' ∨ (afterWord body).head? = some '-') := by
  obtain ⟨g, g', hg, hg', hp, rfl⟩ := shape_legacyOpening hd hb h
  have htail : g'.head?.any isWordChar = false := by
    cases g' with
    | nil => rfl
    | cons x g' => simpa using isWordChar_eq_false_of_isBlank (hg' x (by simp))
  have hdrop : ∀ s : Text, s.head?.any isBlank = false →
      leadingWord (g ++ s) = leadingWord s := by
    intro s hs
    rw [leadingWord, leadingWord, dropWhile_blank hg hs]
    rw [show s.dropWhile isBlank = s from dropWhile_blank blank_nil hs]
  have hwords := words_path hp htail
  refine ⟨?_, ?_⟩
  · rw [hdrop _ (head_of_isPath hp g'), hwords.1]
    exact hwords.2.1
  · rcases words_of_path hg hp htail with ⟨hword, hafter⟩ | hsep
    · refine .inl ⟨hword, ?_⟩
      rw [hafter]
      exact hg'
    · exact .inr hsep

theorem leadingWord_legacyClosing (hd : d.Apart) (hb : d.Free body) {path : Text}
    (h : reading d d.legacyClosing body = some path) : leadingWord body = [] := by
  obtain ⟨g, rest, hg, rfl⟩ := shape_legacyClosing hd hb h
  rw [leadingWord, dropWhile_blank hg (by rw [List.head?_cons, Option.any_some]; decide)]
  rw [List.takeWhile_cons_of_neg (by decide)]

theorem not_loopClosing (hd : d.Apart) (hb : d.Free body) (h : leadingWord body ≠ "end".toList) :
    reading d d.loopClosing body = none :=
  eq_none_of_leadingWord ["end".toList]
    (fun _ hr => List.mem_singleton.mpr (leadingWord_loopClosing hd hb hr))
    fun hmem => h (List.mem_singleton.mp hmem)

theorem not_legacyClosing (hd : d.Apart) (hb : d.Free body) (h : leadingWord body ≠ []) :
    reading d d.legacyClosing body = none :=
  eq_none_of_leadingWord [[]]
    (fun _ hr => List.mem_singleton.mpr (leadingWord_legacyClosing hd hb hr))
    fun hmem => h (List.mem_singleton.mp hmem)

/-- A tag of a conditional starts with one of its words. -/
theorem not_conditionalTag (hd : d.Apart) (hb : d.Free body)
    (h : leadingWord body ∉ ["elseif", "else", "endif", "if"].map String.toList) :
    reading d d.conditionalTag body = none :=
  eq_none_of_leadingWord _ (fun _ hr => leadingWord_conditionalTag hd hb hr) h

/-- These words are reserved. -/
theorem not_conditionalTag_of_unreserved (hd : d.Apart) (hb : d.Free body)
    (h : leadingWord body ∉ reservedWords) : reading d d.conditionalTag body = none := by
  have hsub : ∀ w ∈ ["elseif", "else", "endif", "if"].map String.toList, w ∈ reservedWords := by
    decide
  exact not_conditionalTag hd hb fun hmem => h (hsub _ hmem)

/-! ## Tags without a part in composition -/

/-- A tag that has no part in composition and protects nothing. -/
structure Silent (d : Delimiters) (body : Text) : Prop where
  /-- It includes nothing. -/
  include_ : reading d d.includeTag body = none
  /-- It names no base. -/
  base : reading d d.baseTag body = none
  /-- It opens no block. -/
  block : reading d d.blockOpening body = none
  /-- It opens no region. -/
  region : reading d d.regionOpening body = none

/-- Words decide whether a tag is silent. -/
theorem silent_of_words (hd : d.Apart) (hb : d.Free body)
    (hword : leadingWord body ∉ ["block", "noparse"].map String.toList)
    (hcolon : leadingWord body ∉ ["include", "extend", "extends"].map String.toList ∨
      (behindWord body).head? ≠ some ':') : d.Silent body := by
  have hnames : ∀ {word : Text}, word ∈ ["include", "extend", "extends"].map String.toList →
      ¬ Names body word := by
    rintro word hmem ⟨rfl, hbehind⟩
    rcases hcolon with h | h
    · exact h hmem
    · exact h hbehind
  refine ⟨?_, ?_, ?_, ?_⟩
  · cases hr : reading d d.includeTag body with
    | none => rfl
    | some name => exact absurd (names_includeTag hd hb hr) (hnames (by decide))
  · cases hr : reading d d.baseTag body with
    | none => rfl
    | some name =>
      rcases names_baseTag hd hb hr with h | h
      · exact absurd h (hnames (by decide))
      · exact absurd h (hnames (by decide))
  · exact eq_none_of_not_block hd hb fun h => hword (by rw [h]; decide)
  · exact eq_none_of_leadingWord ["noparse".toList]
      (fun _ ha => by simp [leadingWord_regionOpening hd hb ha])
      fun h => hword (by rw [List.mem_singleton.mp h]; decide)

end Delimiters

open Delimiters

variable {d : Delimiters} {legacy : List Text} {path : Text} {chain? : Option Text}

/-! ## The tags of values -/

/-- A tag that neither opens nor closes a loop, given the paths of legacy loops. -/
structure Idle (d : Delimiters) (legacy : List Text) (body : Text) : Prop where
  /-- It opens a legacy loop at most, which is not among them. -/
  heads : ∀ a ∈ (loopPairing d).heads body, a.form = .legacy ∧ a.path ∉ legacy
  /-- It closes no bound loop. -/
  closing : reading d d.loopClosing body = none
  /-- It closes no legacy loop. -/
  legacyClosing : reading d d.legacyClosing body = none

/-- A value tag starts with a word of its path, and what follows is no blank. -/
theorem words_valueTag (h : IsValue d legacy path chain?) :
    leadingWord (valueTag path chain?) ∉ reservedWords ∧ leadingWord (valueTag path chain?) ≠ [] ∧
      (afterWord (valueTag path chain?) = [] ∨
        ∃ c ∈ ['|', '.', '-'], (afterWord (valueTag path chain?)).head? = some c) := by
  obtain ⟨⟨hp, hreserved⟩, -⟩ := h
  have hwords : ∀ tail : Text, tail = [] ∨ tail.head? = some '|' →
      leadingWord (path ++ tail) ∉ reservedWords ∧ leadingWord (path ++ tail) ≠ [] ∧
        (afterWord (path ++ tail) = [] ∨
          ∃ c ∈ ['|', '.', '-'], (afterWord (path ++ tail)).head? = some c) := by
    intro tail htail
    have hhead : tail.head?.any isWordChar = false := by
      rcases htail with rfl | hbar
      · rfl
      · rw [hbar, Option.any_some]
        decide
    obtain ⟨hlead, hne, hafter⟩ := words_path hp hhead
    refine ⟨by rwa [hlead], by rwa [hlead], ?_⟩
    rcases hafter with ⟨-, hafter⟩ | hdot | hdash
    · rw [hafter]
      exact htail.imp id fun h => ⟨'|', by simp, h⟩
    · exact .inr ⟨'.', by simp, hdot⟩
    · exact .inr ⟨'-', by simp, hdash⟩
  cases chain? with
  | none => simpa [valueTag] using hwords [] (.inl rfl)
  | some chain => exact hwords ('|' :: chain) (.inr rfl)

theorem free_valueTag (hd : d.Apart) (h : IsValue d legacy path chain?) :
    d.Free (valueTag path chain?) := by
  obtain ⟨⟨hp, -⟩, hchain⟩ := h
  cases chain? with
  | none => exact free_of_isPath hd hp
  | some chain =>
    have hbar : d.Free ['|'] := hd.free_of_tagChar (by simp; decide)
    exact free_append.mpr ⟨free_of_isPath hd hp, free_append (s := ['|']).mpr ⟨hbar, hchain.1⟩⟩

theorem reading_valueTag (hd : d.Apart) (h : IsValue d legacy path chain?) :
    reading d d.variableTag (valueTag path chain?) = some ⟨path, chain?.map Text.trim⟩ := by
  obtain ⟨⟨hp, -⟩, hchain⟩ := h
  cases chain? with
  | none => exact reading_value hd hp
  | some chain => exact reading_filtered hd hp hchain

/-- A value tag is no tag of a conditional. -/
theorem conditionalTag_valueTag (hd : d.Apart) (h : IsValue d legacy path chain?) :
    reading d d.conditionalTag (valueTag path chain?) = none :=
  not_conditionalTag_of_unreserved hd (free_valueTag hd h) (words_valueTag h).1

/-- What may follow the first word of a value tag. -/
theorem solid_of_mem {c : Char} (h : c ∈ ['|', '.', '-']) : isBlank c = false ∧ c ≠ ':' := by
  simp only [List.mem_cons, List.not_mem_nil, or_false] at h
  rcases h with rfl | rfl | rfl <;> decide

theorem silent_valueTag (hd : d.Apart) (h : IsValue d legacy path chain?) :
    d.Silent (valueTag path chain?) := by
  obtain ⟨hreserved, -, hafter⟩ := words_valueTag h
  have hsub : ∀ w ∈ ["block", "noparse"].map String.toList, w ∈ reservedWords := by decide
  refine silent_of_words hd (free_valueTag hd h) (fun hmem => hreserved (hsub _ hmem)) (.inr ?_)
  rw [behindWord]
  rcases hafter with hnil | ⟨c, hc, hhead⟩
  · rw [hnil]
    simp
  · obtain ⟨x, t, hx⟩ := List.exists_cons_of_ne_nil
      (show afterWord (valueTag path chain?) ≠ [] by intro hnil; simp [hnil] at hhead)
    obtain rfl : x = c := by simpa [hx] using hhead
    rw [hx, List.dropWhile_cons_of_neg (by simp [(solid_of_mem hc).1])]
    simpa using (solid_of_mem hc).2

theorem idle_valueTag (hd : d.Apart) (h : IsValue d legacy path chain?) :
    Idle d legacy (valueTag path chain?) := by
  have hb := free_valueTag hd h
  obtain ⟨hreserved, hne, hafter⟩ := words_valueTag h
  refine ⟨fun a ha => ?_, ?_, ?_⟩
  · rcases List.mem_append.mp ha with ha | ha
    · -- behind the word of a loop there is a blank
      obtain ⟨-, gap, rest, hgap, hgapne, heq, -⟩ :=
        words_loopOpening hd hb (Option.mem_toList.mp ha)
      obtain ⟨x, gap, rfl⟩ := List.exists_cons_of_ne_nil hgapne
      rcases hafter with hnil | ⟨c, hc, hhead⟩
      · rw [hnil] at heq
        exact absurd heq (by simp)
      · rw [heq] at hhead
        obtain rfl : x = c := by simpa using hhead
        exact absurd (hgap x (by simp)) (by simp [(solid_of_mem hc).1])
    · have hread := Option.mem_toList.mp ha
      obtain ⟨⟨hp, -⟩, hkind⟩ := h
      cases chain? with
      | none =>
        obtain rfl := Option.some.inj ((reading_legacyOpening hd hp).symm.trans hread)
        exact ⟨rfl, hkind⟩
      | some chain =>
        -- there is no bar in a path and blanks
        obtain ⟨g, g', hg, hg', hp', heq⟩ := shape_legacyOpening hd hb hread
        have hbar : '|' ∈ g ++ (a.path ++ g') := by
          rw [← heq]
          simp [valueTag]
        have hblank : isBlank '|' = false := by decide
        rcases List.mem_append.mp hbar with hm | hm
        · exact absurd (hg _ hm) (by simp [hblank])
        · rcases List.mem_append.mp hm with hm | hm
          · rcases char_of_isPath hp' hm with hc | hc | hc | hc
            · exact absurd hc (by decide)
            · exact absurd hc (by decide)
            · exact absurd hc (by decide)
            · exact absurd hc (by decide)
          · exact absurd (hg' _ hm) (by simp [hblank])
  · exact not_loopClosing hd hb fun hlead => hreserved (by rw [hlead]; decide)
  · exact not_legacyClosing hd hb hne

/-! ## The tags of conditionals -/

/-- The tags of conditionals, and what they are. -/
inductive ChoiceTag (d : Delimiters) : Text → Conditional → Prop where
  /-- The tag that opens one. -/
  | opening {condition : Text} (isCondition : IsCondition d condition) :
    ChoiceTag d (ifTag condition) (.opening condition.trim)
  /-- The tag of a branch with a condition. -/
  | elseif {condition : Text} (isCondition : IsCondition d condition) :
    ChoiceTag d (elseifTag condition) (.branch (some condition.trim))
  /-- The tag of a branch without one. -/
  | otherwise : ChoiceTag d "else".toList (.branch none)
  /-- The tag that closes one. -/
  | closing : ChoiceTag d "endif".toList .closing

namespace ChoiceTag

variable {body : Text} {c : Conditional}

theorem free (hd : d.Apart) (h : ChoiceTag d body c) : d.Free body := by
  have hword : ∀ {w : Text}, w.all isTagChar = true → d.Free w :=
    fun hw => hd.free_of_tagChar (List.all_eq_true.mp hw)
  have hline : ∀ {w condition : Text}, w.all isTagChar = true → IsCondition d condition →
      d.Free (w ++ ' ' :: condition) := by
    intro w condition hw hc
    have hspace : d.Free [' '] := hword (by decide)
    exact free_append.mpr ⟨hword hw, free_append (s := [' ']).mpr ⟨hspace, hc.1.1⟩⟩
  cases h with
  | opening hc => exact hline (by decide) hc
  | elseif hc => exact hline (by decide) hc
  | otherwise => exact hword (by decide)
  | closing => exact hword (by decide)

theorem reading_eq (hd : d.Apart) (h : ChoiceTag d body c) :
    reading d d.conditionalTag body = some c := by
  cases h with
  | opening hc => exact reading_if hd hc.1
  | elseif hc => exact reading_elseif hd hc.1
  | otherwise => exact reading_else hd
  | closing => exact reading_endif hd

/-- The tag of a conditional is a keyword, perhaps with a condition behind it. -/
theorem words (h : ChoiceTag d body c) :
    leadingWord body ∈ ["if", "elseif", "else", "endif"].map String.toList ∧
      (afterWord body = [] ∨ ∃ condition, afterWord body = ' ' :: condition ∧
        ¬ InPath condition) := by
  have hspace : isWordChar ' ' = false := by decide
  have hline : ∀ w condition : Text, w.all isNameChar = true → w ≠ [] →
      leadingWord (w ++ ' ' :: condition) = w ∧ afterWord (w ++ ' ' :: condition) =
      ' ' :: condition := by
    intro w condition hw hne
    exact ⟨leadingWord_fixed blank_nil hw hne (by simpa using hspace),
      afterWord_fixed blank_nil hw hne (by simpa using hspace)⟩
  cases h with
  | @opening condition hc =>
    obtain ⟨hlead, hafter⟩ := hline "if".toList condition (by decide) (by decide)
    have hmem : "if".toList ∈ ["if", "elseif", "else", "endif"].map String.toList := by decide
    exact ⟨hlead.symm ▸ hmem, .inr ⟨condition, hafter, hc.2⟩⟩
  | @elseif condition hc =>
    obtain ⟨hlead, hafter⟩ := hline "elseif".toList condition (by decide) (by decide)
    have hmem : "elseif".toList ∈ ["if", "elseif", "else", "endif"].map String.toList := by decide
    exact ⟨hlead.symm ▸ hmem, .inr ⟨condition, hafter, hc.2⟩⟩
  | otherwise => exact ⟨by decide, .inl (by decide)⟩
  | closing => exact ⟨by decide, .inl (by decide)⟩

/-- What follows the keyword is nothing or a blank. -/
theorem afterWord_head (h : ChoiceTag d body c) {x : Char} (hx : isBlank x = false) :
    (afterWord body).head? ≠ some x := by
  rcases h.words.2 with hnil | ⟨condition, heq, -⟩
  · rw [hnil]
    simp
  · rw [heq]
    intro h
    obtain rfl : ' ' = x := by simpa using h
    exact absurd hx (by decide)

theorem reserved (h : ChoiceTag d body c) : leadingWord body ∈ reservedWords := by
  have hsub : ∀ w ∈ ["if", "elseif", "else", "endif"].map String.toList, w ∈ reservedWords := by
    decide
  exact hsub _ h.words.1

/-- A tag of a conditional is a value under a reserved path at most. -/
theorem reserved_value (hd : d.Apart) (h : ChoiceTag d body c) {v : Variable}
    (hr : reading d d.variableTag body = some v) : v.path ∈ reservedWords := by
  rcases words_variableTag hd (h.free hd) hr with ⟨hlead, -⟩ | hdot | hdash
  · rw [← hlead]
    exact h.reserved
  · exact absurd hdot (h.afterWord_head (by decide))
  · exact absurd hdash (h.afterWord_head (by decide))

/-- Such a value is replaced by nothing. -/
theorem text?_eq_none (hd : d.Apart) (h : ChoiceTag d body c) {v : Variable}
    (hr : reading d d.variableTag body = some v) (σ : Substitution) (ctx : Context) :
    σ.text? ctx v = none := by
  rw [Substitution.text?, if_pos (by simpa using h.reserved_value hd hr)]

theorem silent (hd : d.Apart) (h : ChoiceTag d body c) : d.Silent body := by
  have hother : ∀ w ∈ ["if", "elseif", "else", "endif"].map String.toList,
      w ∉ ["block", "noparse"].map String.toList ∧
        w ∉ ["include", "extend", "extends"].map String.toList := by
    decide
  have hwords := hother _ h.words.1
  exact silent_of_words hd (h.free hd) hwords.1 (.inl hwords.2)

theorem idle (hd : d.Apart) (hlegacy : ∀ p ∈ legacy, Unreserved p) (h : ChoiceTag d body c) :
    Idle d legacy body := by
  have hb := h.free hd
  have hother : ∀ w ∈ ["if", "elseif", "else", "endif"].map String.toList,
      w ≠ "end".toList ∧ w ≠ [] := by
    decide
  refine ⟨fun a ha => ?_, ?_, ?_⟩
  · rcases List.mem_append.mp ha with ha | ha
    · obtain ⟨-, gap, rest, hgap, hgapne, heq, gap', path, g', hgap', hne', hp, hg', rfl⟩ :=
        words_loopOpening hd hb (Option.mem_toList.mp ha)
      obtain ⟨x, gap, rfl⟩ := List.exists_cons_of_ne_nil hgapne
      rcases h.words.2 with hnil | ⟨condition, hcondition, hnot⟩
      · rw [hnil] at heq
        exact absurd heq (by simp)
      · rw [hcondition, List.cons_append] at heq
        exact absurd ⟨gap, gap', path, g', fun y hy => hgap y (by simp [hy]), hgap', hne', hp, hg',
          (List.cons.inj heq).2⟩ hnot
    · have hread := Option.mem_toList.mp ha
      refine ⟨legacy_of_reading hread, fun hmem => ?_⟩
      rcases (words_legacyOpening hd hb hread).2 with ⟨hlead, -⟩ | hdot | hdash
      · -- the path is the keyword, which is reserved
        have hself : ∀ w ∈ ["if", "elseif", "else", "endif"].map String.toList,
            leadingWord w = w := by
          decide
        have hreserved := (hlegacy _ hmem).2
        rw [← hlead, hself _ h.words.1] at hreserved
        exact hreserved h.reserved
      · exact absurd hdot (h.afterWord_head (by decide))
      · exact absurd hdash (h.afterWord_head (by decide))
  · exact not_loopClosing hd hb (hother _ h.words.1).1
  · exact not_legacyClosing hd hb (hother _ h.words.1).2

end ChoiceTag

/-! ## The tags of loops -/

theorem opens_eq_false {body : Text} (h : Idle d legacy body) {a : LoopHead}
    (ha : a.form = .legacy → a.path ∈ legacy) : (loopPairing d).opens a body = false := by
  cases hopens : (loopPairing d).opens a body with
  | false => rfl
  | true =>
    simp only [loopPairing, readsAs, decide_eq_true_eq] at hopens
    cases hf : a.form with
    | bound name =>
      rw [hf, loopOpen, reading_map] at hopens
      obtain ⟨b, hb, -⟩ := Option.map_eq_some_iff.mp hopens
      have hmem : b ∈ (loopPairing d).heads body :=
        List.mem_append_left _ (Option.mem_toList.mpr hb)
      exact absurd (h.heads b hmem).1 (bound_of_reading hb)
    | legacy =>
      rw [hf, loopOpen, reading_map] at hopens
      obtain ⟨b, hb, hpath⟩ := Option.map_eq_some_iff.mp hopens
      have hmem : b ∈ (loopPairing d).heads body :=
        List.mem_append_right _ (Option.mem_toList.mpr hb)
      exact absurd (hpath ▸ ha hf) (h.heads b hmem).2

theorem closes_eq_false {body : Text} (h : Idle d legacy body) (a : LoopHead) :
    (loopPairing d).closes a body = false := by
  cases hf : a.form with
  | bound name => simp [loopPairing, readsAs, loopClose, hf, h.closing]
  | legacy => simp [loopPairing, readsAs, loopClose, hf, h.legacyClosing]

/-- What the grammars of loops make of a tag. -/
structure LoopReadings (d : Delimiters) (body : Text) (opening? legacyOpening? : Option LoopHead)
    (closing? legacyClosing? : Option Text) : Prop where
  /-- As the opening tag of a bound loop. -/
  opening : reading d d.loopOpening body = opening?
  /-- As the opening tag of a legacy loop. -/
  legacyOpening : reading d d.legacyOpening body = legacyOpening?
  /-- As the closing tag of a bound loop. -/
  closing : reading d d.loopClosing body = closing?
  /-- As the closing tag of a legacy loop. -/
  legacyClosing : reading d d.legacyClosing body = legacyClosing?

/-- The two tags of a loop, by what the grammars of loops make of them. -/
def LoopTags (d : Delimiters) (head : LoopHead) (front back : Text) : Prop :=
  match head.form with
  | .bound _ => LoopReadings d front (some head) none none none ∧
      LoopReadings d back none none (some head.path) none
  | .legacy => LoopReadings d front none (some head) none none ∧
      LoopReadings d back none none none (some head.path)

/-- Whether two loops are of one kind. -/
def LoopHead.matches (a head : LoopHead) : Bool :=
  match a.form, head.form with
  | .bound _, .bound _ => a.path = head.path
  | .legacy, .legacy => a.path = head.path
  | _, _ => false

theorem LoopHead.matches_self (head : LoopHead) : head.matches head = true := by
  unfold LoopHead.matches
  cases head.form <;> simp

namespace LoopTags

variable {head : LoopHead} {front back : Text}

/-- A loop is all that its opening tag opens. -/
theorem heads (h : LoopTags d head front back) : (loopPairing d).heads front = [head] := by
  unfold LoopTags at h
  cases hf : head.form with
  | bound name =>
    rw [hf] at h
    simp [loopPairing, h.1.opening, h.1.legacyOpening]
  | legacy =>
    rw [hf] at h
    simp [loopPairing, h.1.opening, h.1.legacyOpening]

/-- The tags of a loop open and close loops of its kind, and no others. -/
theorem pairing (h : LoopTags d head front back) (a : LoopHead) :
    (loopPairing d).opens a front = a.matches head ∧ (loopPairing d).closes a front = false ∧
      (loopPairing d).opens a back = false ∧ (loopPairing d).closes a back = a.matches head := by
  unfold LoopTags at h
  cases hf : head.form with
  | bound name =>
    rw [hf] at h
    obtain ⟨hopening, hclosing⟩ := h
    cases ha : a.form with
    | bound name' =>
      simp [loopPairing, readsAs, loopOpen, loopClose, LoopHead.matches, hf, ha, reading_map,
        hopening.opening, hopening.closing, hclosing.opening, hclosing.closing, eq_comm]
    | legacy =>
      simp [loopPairing, readsAs, loopOpen, loopClose, LoopHead.matches, hf, ha, reading_map,
        hopening.legacyOpening, hopening.legacyClosing, hclosing.legacyOpening,
        hclosing.legacyClosing]
  | legacy =>
    rw [hf] at h
    obtain ⟨hopening, hclosing⟩ := h
    cases ha : a.form with
    | bound name' =>
      simp [loopPairing, readsAs, loopOpen, loopClose, LoopHead.matches, hf, ha, reading_map,
        hopening.opening, hopening.closing, hclosing.opening, hclosing.closing]
    | legacy =>
      simp [loopPairing, readsAs, loopOpen, loopClose, LoopHead.matches, hf, ha, reading_map,
        hopening.legacyOpening, hopening.legacyClosing, hclosing.legacyOpening,
        hclosing.legacyClosing, eq_comm]

/-- Only the closing tag of a legacy loop closes one. -/
theorem closed (h : LoopTags d head front back) :
    reading d d.legacyClosing front = none ∧
      ∀ path, reading d d.legacyClosing back = some path → head.form = .legacy ∧
      path = head.path := by
  unfold LoopTags at h
  cases hf : head.form with
  | bound name =>
    rw [hf] at h
    refine ⟨h.1.legacyClosing, fun path hr => ?_⟩
    rw [h.2.legacyClosing] at hr
    exact absurd hr (by simp)
  | legacy =>
    rw [hf] at h
    refine ⟨h.1.legacyClosing, fun path hr => ⟨rfl, ?_⟩⟩
    rw [h.2.legacyClosing] at hr
    exact (Option.some.inj hr).symm

end LoopTags

/-- A path alone opens a legacy loop. -/
theorem readings_legacyOpening (hd : d.Apart) (hp : Unreserved path) :
    LoopReadings d path none (some ⟨.legacy, path⟩) none none := by
  have hvalue : IsValue d [] path none := ⟨hp, by simp⟩
  have hidle : Idle d [] path := idle_valueTag hd hvalue
  refine ⟨?_, reading_legacyOpening hd hp.1, hidle.closing, hidle.legacyClosing⟩
  cases hr : reading d d.loopOpening path with
  | none => rfl
  | some a =>
    have hmem : a ∈ (loopPairing d).heads path :=
      List.mem_append_left _ (Option.mem_toList.mpr hr)
    exact absurd (hidle.heads a hmem).1 (bound_of_reading hr)

/-- The words of the opening tag of a bound loop. -/
theorem words_boundOpening (path : Text) {name : Text} (hname : IsName name) :
    leadingWord (name ++ (" in ".toList ++ path)) = name ∧
      afterWord (name ++ (" in ".toList ++ path)) = " in ".toList ++ path := by
  obtain ⟨c, t, rfl, hc, ht⟩ := hname
  have hspace : (" in ".toList ++ path).head?.any isWordChar = false := by
    have : isWordChar ' ' = false := by decide
    simpa using this
  exact ⟨leadingWord_eq blank_nil (isNameChar_of_isNameStart hc) ht hspace,
    afterWord_eq blank_nil (isNameChar_of_isNameStart hc) ht hspace⟩

theorem free_boundOpening (hd : d.Apart) {name : Text} (hname : IsName name) (hp : IsPath path) :
    d.Free (name ++ (" in ".toList ++ path)) := by
  have hword : d.Free name := by
    refine hd.free_of_tagChar fun x hx => ?_
    obtain ⟨c, t, rfl, hc, ht⟩ := hname
    rcases List.mem_cons.mp hx with rfl | hx
    · simp [isTagChar, isWordChar_of_isNameChar (isNameChar_of_isNameStart hc)]
    · simp [isTagChar, ht x hx]
  have hin : d.Free " in ".toList := hd.free_of_tagChar (List.all_eq_true.mp (by decide))
  exact free_append.mpr ⟨hword, free_append.mpr ⟨hin, free_of_isPath hd hp⟩⟩

theorem readings_boundOpening (hd : d.Apart) {name : Text} (hname : IsName name)
    (hreserved : name ∉ reservedWords) (hp : IsPath path) :
    LoopReadings d (name ++ (" in ".toList ++ path)) (some ⟨.bound (String.ofList name), path⟩) none
      none none := by
  have hb := free_boundOpening hd hname hp
  obtain ⟨hlead, hafter⟩ := words_boundOpening path hname
  refine ⟨reading_loopOpening hd hname hp, ?_, ?_, ?_⟩
  · cases hr : reading d d.legacyOpening (name ++ (" in ".toList ++ path)) with
    | none => rfl
    | some a =>
      rcases (words_legacyOpening hd hb hr).2 with ⟨-, hblank⟩ | hdot | hdash
      · rw [hafter] at hblank
        exact absurd (hblank 'i' (by simp)) (by decide)
      · rw [hafter] at hdot
        exact absurd hdot (by simp)
      · rw [hafter] at hdash
        exact absurd hdash (by simp)
  · refine not_loopClosing hd hb fun hend => hreserved ?_
    rw [← hlead, hend]
    decide
  · refine not_legacyClosing hd hb ?_
    rw [hlead]
    obtain ⟨c, t, rfl, -, -⟩ := hname
    simp

/-- The words of the closing tag of a bound loop. -/
theorem words_boundClosing (path : Text) :
    leadingWord ("end ".toList ++ path) = "end".toList ∧
      afterWord ("end ".toList ++ path) = ' ' :: path := by
  have hspace : (' ' :: path).head?.any isWordChar = false := by
    have : isWordChar ' ' = false := by decide
    simpa using this
  exact ⟨leadingWord_fixed (w := "end".toList) blank_nil (by decide) (by decide)
      hspace,
    afterWord_fixed (w := "end".toList) blank_nil (by decide) (by decide) hspace⟩

theorem free_boundClosing (hd : d.Apart) (hp : IsPath path) : d.Free ("end ".toList ++ path) := by
  have hend : d.Free "end ".toList := hd.free_of_tagChar (List.all_eq_true.mp (by decide))
  exact free_append.mpr ⟨hend, free_of_isPath hd hp⟩

theorem readings_boundClosing (hd : d.Apart) (hp : IsPath path) :
    LoopReadings d ("end ".toList ++ path) none none (some path) none := by
  have hb := free_boundClosing hd hp
  obtain ⟨hlead, hafter⟩ := words_boundClosing path
  have hne := ne_nil_of_isPath hp
  refine ⟨?_, ?_, reading_loopClosing hd hp, ?_⟩
  · cases hr : reading d d.loopOpening ("end ".toList ++ path) with
    | none => rfl
    | some a =>
      -- there would be a blank in the path
      obtain ⟨-, gap, rest, -, hgapne, heq, gap', path', g', hgap', hne', -, -, rfl⟩ :=
        words_loopOpening hd hb hr
      obtain ⟨x, gap', rfl⟩ := List.exists_cons_of_ne_nil hne'
      obtain ⟨y, gap, rfl⟩ := List.exists_cons_of_ne_nil hgapne
      rw [hafter, List.cons_append] at heq
      have hx : x ∈ path := by
        rw [(List.cons.inj heq).2]
        simp
      exact absurd (hgap' x (by simp)) (by simp [not_blank_of_isPath hp hx])
  · cases hr : reading d d.legacyOpening ("end ".toList ++ path) with
    | none => rfl
    | some a =>
      rcases (words_legacyOpening hd hb hr).2 with ⟨-, hblank⟩ | hdot | hdash
      · rw [hafter] at hblank
        obtain ⟨c, t, rfl⟩ := List.exists_cons_of_ne_nil hne
        exact absurd (hblank c (by simp)) (by simp [not_blank_of_isPath hp])
      · rw [hafter] at hdot
        exact absurd hdot (by simp)
      · rw [hafter] at hdash
        exact absurd hdash (by simp)
  · refine not_legacyClosing hd hb ?_
    rw [hlead]
    simp

/-- The closing tag of a legacy loop starts with no word. -/
theorem words_legacyClosing (path : Text) :
    leadingWord ('/' :: path) = [] ∧ afterWord ('/' :: path) = '/' :: path := by
  have hdrop : List.dropWhile isBlank ('/' :: path) = '/' :: path :=
    List.dropWhile_cons_of_neg (by decide)
  constructor
  · rw [leadingWord, hdrop, List.takeWhile_cons_of_neg (by decide)]
  · rw [afterWord, hdrop, List.dropWhile_cons_of_neg (by decide)]

theorem free_legacyClosing (hd : d.Apart) (hp : IsPath path) : d.Free ('/' :: path) := by
  have hslash : d.Free ['/'] := hd.free_of_tagChar (List.all_eq_true.mp (by decide))
  exact free_append (s := ['/']).mpr ⟨hslash, free_of_isPath hd hp⟩

theorem readings_legacyClosing (hd : d.Apart) (hp : IsPath path) :
    LoopReadings d ('/' :: path) none none none (some path) := by
  have hb := free_legacyClosing hd hp
  obtain ⟨hlead, hafter⟩ := words_legacyClosing path
  refine ⟨?_, ?_, ?_, reading_legacyClosing hd hp⟩
  · cases hr : reading d d.loopOpening ('/' :: path) with
    | none => rfl
    | some a => exact absurd hlead (words_loopOpening hd hb hr).1
  · cases hr : reading d d.legacyOpening ('/' :: path) with
    | none => rfl
    | some a => exact absurd hlead (words_legacyOpening hd hb hr).1
  · exact not_loopClosing hd hb (by rw [hlead]; decide)

/-! ## Loops by their heads -/

namespace IsLoop

variable {head : LoopHead}

theorem free (hd : d.Apart) (h : IsLoop legacy head) :
    d.Free head.openingTag ∧ d.Free head.closingTag := by
  obtain ⟨⟨hp, -⟩, hform⟩ := h
  unfold LoopHead.openingTag LoopHead.closingTag
  cases hf : head.form with
  | bound name =>
    rw [hf] at hform
    exact ⟨free_boundOpening hd hform.1 hp, free_boundClosing hd hp⟩
  | legacy => exact ⟨free_of_isPath hd hp, free_legacyClosing hd hp⟩

theorem silent (hd : d.Apart) (h : IsLoop legacy head) :
    d.Silent head.openingTag ∧ d.Silent head.closingTag := by
  have hfree := h.free hd
  obtain ⟨⟨hp, hreserved⟩, hform⟩ := h
  unfold LoopHead.openingTag LoopHead.closingTag at hfree ⊢
  have hsub : ∀ w ∈ ["block", "noparse"].map String.toList, w ∈ reservedWords := by decide
  cases hf : head.form with
  | bound name =>
    rw [hf] at hform hfree
    obtain ⟨hlead, hafter⟩ := words_boundOpening head.path hform.1
    obtain ⟨hlead', -⟩ := words_boundClosing head.path
    refine ⟨silent_of_words hd hfree.1 (by rw [hlead]; exact fun hm => hform.2 (hsub _ hm))
      (.inr ?_),
      silent_of_words hd hfree.2 (by rw [hlead']; decide) (.inl (by rw [hlead']; decide))⟩
    have hbehind : (" in ".toList ++ head.path).dropWhile isBlank = "in ".toList ++ head.path :=
      dropWhile_blank (s := "in ".toList ++ head.path) blank_space (by
        have : isBlank 'i' = false := by decide
        simpa using this)
    rw [behindWord, hafter, hbehind]
    simp
  | legacy =>
    rw [hf] at hfree
    obtain ⟨hlead, -⟩ := words_legacyClosing head.path
    have hvalue : IsValue d [] head.path none := ⟨⟨hp, hreserved⟩, by simp⟩
    exact ⟨silent_valueTag hd hvalue,
      silent_of_words hd hfree.2 (by rw [hlead]; decide) (.inl (by rw [hlead]; decide))⟩

/-- The tags of a loop are no tags of a conditional. -/
theorem conditionalTag (hd : d.Apart) (h : IsLoop legacy head) :
    reading d d.conditionalTag head.openingTag = none ∧
      reading d d.conditionalTag head.closingTag = none := by
  have hfree := h.free hd
  obtain ⟨⟨hp, hreserved⟩, hform⟩ := h
  unfold LoopHead.openingTag LoopHead.closingTag at hfree ⊢
  cases hf : head.form with
  | bound name =>
    rw [hf] at hform hfree
    refine ⟨not_conditionalTag_of_unreserved hd hfree.1 ?_, not_conditionalTag hd hfree.2 ?_⟩
    · rw [(words_boundOpening head.path hform.1).1]
      exact hform.2
    · rw [(words_boundClosing head.path).1]
      decide
  | legacy =>
    rw [hf] at hfree
    refine ⟨not_conditionalTag_of_unreserved hd hfree.1 hreserved, not_conditionalTag hd hfree.2 ?_⟩
    rw [(words_legacyClosing head.path).1]
    decide

/-- They are the tags of the loop to the grammars of loops. -/
theorem loopTags (hd : d.Apart) (h : IsLoop legacy head) :
    LoopTags d head head.openingTag head.closingTag := by
  obtain ⟨form, path⟩ := head
  obtain ⟨hp, hform⟩ := h
  cases form with
  | bound name =>
    have hopening := readings_boundOpening hd hform.1 hform.2 hp.1
    rw [String.ofList_toList] at hopening
    exact ⟨hopening, readings_boundClosing hd hp.1⟩
  | legacy => exact ⟨readings_legacyOpening hd hp, readings_legacyClosing hd hp.1⟩

end IsLoop

end Stencil
