import Stencil.Proofs.Scoping.Source
import Stencil.Proofs.Separators.Condition

/-!
# Tags and the separators of their paths

The path of a tag may be spelled with other separators. The tag stays what it is: a value with the
same filters, an opening or a closing tag of a loop, a branch of a conditional. The tags of a loop
are respelled together, since a closing tag closes what has its path letter by letter.
-/

namespace Stencil

open Recognizer Outline

namespace Delimiters

variable {d : Delimiters} {legacy legacy' : List Text} {body body' g p p' rest : Text}

/-! ## Values -/

/-- Where a path stands in a tag, another spelling of it may stand. -/
theorem free_respelled (hd : d.Apart) {front : Text} (hp : IsPath p')
    (hb : d.Free (front ++ (p ++ rest))) : d.Free (front ++ (p' ++ rest)) := by
  obtain ⟨hfront, htail⟩ := free_append.mp hb
  exact free_append.mpr ⟨hfront, free_append.mpr ⟨free_of_isPath hd hp, (free_append.mp htail).2⟩⟩

/-- The tag of a value is one with any spelling of its path. -/
theorem reading_value_respelled (hd : d.Apart) (hb : d.Free (g ++ (p ++ rest))) (hg : Blank g)
    (hp : Path.Respelled p p') {chain? : Option Text}
    (h : reading d d.variableTag (g ++ (p ++ rest)) = some ⟨p, chain?⟩) :
    reading d d.variableTag (g ++ (p' ++ rest)) = some ⟨p', chain?⟩ := by
  obtain ⟨⟨q, chain?⟩, hw, heq⟩ := whole_map.mp (whole_of_reading (delimited_variableTag hd) hb h)
  obtain ⟨rfl, rfl⟩ := Variable.mk.inj heq
  obtain ⟨g₁, t, hg₁, ht, hpath⟩ := whole_opened hw
  obtain ⟨t, rfl, -, hblanks⟩ := whole_path hpath
  -- the blanks in front of the path are the same, and so is what follows it
  obtain rfl : rest ++ d.right = t := by
    have hdrop := congrArg (List.dropWhile isBlank) ht
    rw [List.append_assoc, List.append_assoc, dropWhile_blank hg (head_of_isPath hp.isPath _),
      dropWhile_blank hg₁ (head_of_isPath hp.isPath _)] at hdrop
    exact List.append_cancel_left hdrop
  have hstep : pathStep (rest ++ d.right) = none := by
    obtain ⟨g₂, u, hg₂, hu, hor⟩ := whole_blanks hblanks
    rw [hu]
    rcases whole_orElse hor with hchain | hclosed
    · obtain ⟨c, hc, -⟩ := whole_map.mp hchain
      obtain ⟨u, rfl, -⟩ := whole_literal.mp hc
      cases g₂ with
      | nil => rfl
      | cons x g₂ =>
        have hx := hg₂ x (by simp)
        have hname : isNameChar x = false := by
          cases hname : isNameChar x with
          | false => rfl
          | true => rw [isBlank_eq_false_of_isNameChar hname] at hx; exact absurd hx (by simp)
        have hne : x ≠ '.' ∧ x ≠ '-' := by
          constructor <;> rintro rfl <;> exact absurd hx (by decide)
        rw [List.cons_append, pathStep_cons hne.1 hne.2, if_neg (by simp [hname])]
    · obtain ⟨v, hc, -⟩ := whole_map.mp hclosed
      obtain ⟨g₃, hg₃, rfl⟩ := whole_closed hc
      rw [← List.append_assoc]
      exact pathStep_blanks hd (hg₂.append hg₃)
  have hpath' := hblanks.path hp.isPath_right hstep
  rw [← List.append_assoc] at hpath'
  have hne : p' ++ rest ≠ [] := by simp [ne_nil_of_isPath hp.isPath_right]
  exact reading_of_whole (whole_map.mpr
    ⟨(p', chain?), whole_opened_blanks hg (head_of_isPath hp.isPath_right _) hne hpath', rfl⟩)

/-! ## The words of conditionals -/

/-- The words that the tags of conditionals start with. -/
def choiceWords : List Text := ["elseif", "else", "endif", "if"].map String.toList

/-- The tag of a conditional, by its word and what follows on the line. -/
def conditionalOf (word condition : Text) : Conditional :=
  if word = "elseif".toList then .branch (some condition)
  else if word = "else".toList then .branch none
  else if word = "endif".toList then .closing
  else .opening condition

theorem choiceWords_spec : ∀ w ∈ choiceWords, w.all isNameChar = true ∧
    w.all isTagChar = true ∧ w ≠ [] ∧ w ∈ reservedWords ∧ '.' ∉ w ∧ '-' ∉ w ∧ w ≠ "end".toList ∧
      w ∉ ["block", "noparse", "include", "extend", "extends"].map String.toList := by decide

/-- What is read behind a keyword, if no blank is at its ends. -/
theorem whole_keyword_trimmed (hd : d.Apart) (word : Text) {gap m g' : Text} (hgap : Blank gap)
    (hg' : Blank g') (hm : d.Line m) (hfirst : m.head?.any isBlank = false)
    (hlast : m.getLast?.any isBlank = false)
    (hend : (gap ++ (m ++ g')).head?.any isWordChar = false) :
    Whole (d.keyword word) (word ++ (gap ++ (m ++ g')) ++ d.right) m := by
  have hline := whole_trimmed hd hgap hg' hm hfirst hlast
  have hright : (gap ++ (m ++ g') ++ d.right).head?.any isWordChar = false := by
    cases htail : gap ++ (m ++ g') with
    | nil =>
      obtain ⟨r, rs, hr, -⟩ := hd.right_eq
      simpa [hr] using hd.within_word r (by simp [hr])
    | cons x t =>
      rw [htail] at hend
      simpa using hend
  have hword : Whole (wordEnd (blanks (fewest isInline d.closed))) (gap ++ (m ++ g') ++ d.right)
      (m, ()) := by
    unfold Whole wordEnd
    rw [hright, List.append_assoc, List.append_assoc]
    exact hline
  rw [List.append_assoc]
  exact whole_map.mpr ⟨(m, ()), whole_literal.mpr ⟨_, rfl, hword⟩, rfl⟩

/-- The tag of a conditional: one of its words, and what follows on the line. -/
theorem reading_conditional (hd : d.Apart) {word gap m g' : Text} (hword : word ∈ choiceWords)
    (hg : Blank g) (hgap : Blank gap) (hg' : Blank g') (hm : d.Line m)
    (hfirst : m.head?.any isBlank = false) (hlast : m.getLast?.any isBlank = false)
    (hend : (gap ++ (m ++ g')).head?.any isWordChar = false) :
    reading d d.conditionalTag (g ++ (word ++ (gap ++ (m ++ g')))) =
      some (conditionalOf word m) := by
  have hkeyword := whole_keyword_trimmed hd word hgap hg' hm hfirst hlast hend
  have hother : ∀ {w : Text} {f : Text → Conditional}, w ∈ choiceWords →
      ¬ w <+: word ++ (gap ++ (m ++ g')) →
        ((d.keyword w).map f) (word ++ (gap ++ (m ++ g')) ++ d.right) = none := fun hw h =>
    keyword_eq_none hd (choiceWords_spec _ hw).2.1 h
  have hwords : word = "elseif".toList ∨ word = "else".toList ∨ word = "endif".toList ∨
      word = "if".toList := by simpa [choiceWords] using hword
  rcases hwords with rfl | rfl | rfl | rfl
  · refine reading_of_whole (whole_opened_blanks hg (by rfl) (by simp) ?_)
    exact Whole.orElse_left (whole_map.mpr ⟨m, hkeyword, rfl⟩)
  · refine reading_of_whole (whole_opened_blanks hg (by rfl) (by simp) ?_)
    refine Whole.orElse_right (hother (by simp [choiceWords]) ?_)
      (Whole.orElse_left (whole_map.mpr ⟨m, hkeyword, rfl⟩))
    -- the word ends here
    rintro ⟨t, ht⟩
    replace ht : "else".toList ++ ("if".toList ++ t) = "else".toList ++ (gap ++ (m ++ g')) := ht
    rw [← List.append_cancel_left ht] at hend
    exact absurd hend (by simp [isWordChar, isNameChar, isLetter])
  · refine reading_of_whole (whole_opened_blanks hg (by rfl) (by simp) ?_)
    refine Whole.orElse_right (hother (by simp [choiceWords]) (by simp)) ?_
    refine Whole.orElse_right (hother (by simp [choiceWords]) (by simp)) ?_
    exact Whole.orElse_left (whole_map.mpr ⟨m, hkeyword, rfl⟩)
  · refine reading_of_whole (whole_opened_blanks hg (by rfl) (by simp) ?_)
    refine Whole.orElse_right (hother (by simp [choiceWords]) (by simp)) ?_
    refine Whole.orElse_right (hother (by simp [choiceWords]) (by simp)) ?_
    refine Whole.orElse_right (hother (by simp [choiceWords]) (by simp)) ?_
    exact whole_map.mpr ⟨m, hkeyword, rfl⟩

/-- A word of a conditional makes a tag of a conditional with whatever stands on its line. -/
theorem exists_reading_conditional (hd : d.Apart) {word m g' : Text} (hword : word ∈ choiceWords)
    (hg : Blank g) (hg' : Blank g') (hm : d.Line m)
    (hend : (m ++ g').head?.any isWordChar = false) :
    ∃ c, reading d d.conditionalTag (g ++ (word ++ (m ++ g'))) = some c := by
  obtain ⟨g₁, g₂, hg₁, hg₂, hsplit, hfirst, hlast⟩ := m.trim_spec
  have htail : m ++ g' = g₁ ++ (m.trim ++ (g₂ ++ g')) :=
    (congrArg (· ++ g') hsplit).trans (by simp)
  have hline : d.Line m.trim := by
    rw [hsplit] at hm
    exact ⟨fun c hc => hm.1 c (by simp [hc]), fun hc => hm.2 (by simp [hc])⟩
  rw [htail] at hend ⊢
  exact ⟨_, reading_conditional hd hword hg hg₁ (hg₂.append hg') hline hfirst hlast hend⟩

/-! ## Values again -/

/-- Behind the path of a value stands no word character. -/
theorem not_word_behind_path (hd : d.Apart) (hb : d.Free (g ++ (p ++ rest)))
    (hg : Blank g) (hp : IsPath p) {chain? : Option Text}
    (h : reading d d.variableTag (g ++ (p ++ rest)) = some ⟨p, chain?⟩) :
    rest.head?.any isWordChar = false := by
  obtain ⟨g₁, g₂, t, hg₁, hg₂, -, hbody, ht⟩ := shape_variableTag hd hb h
  obtain rfl : rest = g₂ ++ t := by
    have hdrop := congrArg (List.dropWhile isBlank) hbody
    rw [dropWhile_blank hg (head_of_isPath hp _), dropWhile_blank hg₁ (head_of_isPath hp _)]
      at hdrop
    exact List.append_cancel_left hdrop
  exact not_word_of_rest hg₂ ht

/-- What goes on with a separator starts with no word character, however it is spelled. -/
theorem not_word_of_dotted {r u : Text} (hr : r.head? = some '.' ∨ ∃ t, r = '-' :: '>' :: t)
    (h : Path.dotted u = Path.dotted r) (t : Text) : (u ++ t).head?.any isWordChar = false := by
  obtain ⟨v, hv⟩ : ∃ v, Path.dotted r = '.' :: v := by
    rcases hr with hpoint | ⟨v, rfl⟩
    · obtain ⟨v, rfl⟩ := List.head?_eq_some_iff.mp hpoint
      exact ⟨_, Path.dotted_cons (by decide) v⟩
    · exact ⟨_, Path.dotted_arrow v⟩
  rcases Path.dotted_eq_cons (h.trans hv) with ⟨w, rfl, -⟩ | ⟨-, w, rfl, -⟩
  · rw [List.cons_append, List.head?_cons, Option.any_some]
    decide
  · rw [List.cons_append, List.head?_cons, Option.any_some]
    decide

/-- The tag of a value that is none of a conditional is none with any spelling of its path. -/
theorem not_conditional_respelled (hd : d.Apart) (hb : d.Free (g ++ (p ++ rest))) (hg : Blank g)
    (hp : Path.Respelled p p') {chain? : Option Text}
    (h : reading d d.variableTag (g ++ (p ++ rest)) = some ⟨p, chain?⟩)
    (hnone : reading d d.conditionalTag (g ++ (p ++ rest)) = none) :
    reading d d.conditionalTag (g ++ (p' ++ rest)) = none := by
  refine Option.eq_none_iff_forall_ne_some.mpr fun c hc => ?_
  obtain ⟨g₁, word, gap, m, g', hword, hg₁, hgap, hg', hm, hend, hbody⟩ :=
    shape_conditionalTag hd (free_respelled hd hp.isPath_right hb) hc
  obtain ⟨hname, -, hne, -, hpoint, hdash, -, -⟩ := choiceWords_spec word hword
  -- the word is the one that the path starts with
  obtain ⟨w, r, hsplit, -, -, hr, hwords⟩ := IsPath.words hp.isPath_right
  obtain ⟨hleading, hafter⟩ := hwords hg (not_word_behind_path hd hb hg hp.isPath h)
  rw [hbody, leadingWord_fixed hg₁ hname hne hend] at hleading
  rw [hbody, afterWord_fixed hg₁ hname hne hend] at hafter
  subst hleading
  rcases hr with rfl | hr
  · -- a path without separators is spelled in one way only
    rw [List.append_nil] at hsplit
    rw [hsplit] at hp hc
    rw [hp.symm.eq_of_word hname, hc] at hnone
    exact absurd hnone (by simp)
  · have hdotted : Path.dotted p = word ++ Path.dotted r := by
      rw [hp.dotted, hsplit, Path.dotted_append_of_notMem hdash]
    obtain ⟨u, rfl, hu⟩ := Path.dotted_eq_append hpoint hdotted
    have hpath : ∀ c ∈ r, isBlank c = false := fun c hc =>
      not_blank_of_isPath hp.isPath_right (by simp [hsplit, hc])
    obtain ⟨a, ha, rfl⟩ : ∃ a, '\n' ∉ a ∧ rest = a ++ g' := by
      obtain rfl : gap = [] := by
        cases gap with
        | nil => rfl
        | cons x gap =>
          obtain ⟨y, r, rfl⟩ := List.exists_cons_of_ne_nil
            (show r ≠ [] by rintro rfl; simp at hr)
          obtain rfl : x = y := (List.cons.inj hafter).1
          have hblank := hgap x (by simp)
          rw [hpath x (by simp)] at hblank
          exact absurd hblank (by simp)
      rw [List.nil_append] at hafter
      rcases List.append_eq_append_iff.mp hafter with ⟨a, rfl, rfl⟩ | ⟨a, rfl, rfl⟩
      · -- the blanks at the end are behind the path
        cases a with
        | nil => exact ⟨[], by simp, rfl⟩
        | cons x a =>
          have hblank := hg' x (by simp)
          rw [hpath x (by simp)] at hblank
          exact absurd hblank (by simp)
      · exact ⟨a, fun hmem => hm (by simp [hmem]), rfl⟩
    have hline : d.Line (u ++ a) := by
      refine ⟨fun c hc => hb c ?_, fun hmem => ?_⟩
      · rcases List.mem_append.mp hc with hc | hc <;> simp [hc]
      · rcases List.mem_append.mp hmem with hmem | hmem
        · have hblank := not_blank_of_isPath hp.isPath (c := '\n') (by simp [hmem])
          exact absurd hblank (by decide)
        · exact ha hmem
    have hnext := not_word_of_dotted hr hu (a ++ g')
    rw [← List.append_assoc] at hnext
    obtain ⟨c, hc⟩ := exists_reading_conditional hd hword hg hg' hline hnext
    rw [List.append_assoc, ← List.append_assoc u, hc] at hnone
    exact absurd hnone (by simp)

/-- The tag of a value is one with any spelling of its path that opens no loop. -/
theorem isValue_respelled (hd : d.Apart) (hb : d.Free (g ++ (p ++ rest))) (hg : Blank g)
    (hp : Path.Respelled p p') {chain? : Option Text}
    (h : reading d d.variableTag (g ++ (p ++ rest)) = some ⟨p, chain?⟩)
    (hvalue : d.IsValue legacy (g ++ (p ++ rest))) (hclosed : chain? = none → p' ∉ legacy) :
    d.IsValue legacy (g ++ (p' ++ rest)) := by
  obtain ⟨hconditional, v, hv, hreserved, -⟩ := hvalue
  obtain rfl := Option.some.inj (h.symm.trans hv)
  have hwords : ∀ w ∈ reservedWords, w.all isNameChar = true := by decide
  refine ⟨not_conditional_respelled hd hb hg hp h hconditional, ⟨p', chain?⟩,
    reading_value_respelled hd hb hg hp h, fun hmem => hreserved ?_, hclosed⟩
  rwa [← hp.symm.eq_of_word (hwords p' hmem)] at hmem

/-! ## Conditionals -/

/-- The opening tag of a bound loop is one with other separators. -/
theorem not_loopOpening_of_dotted (hd : d.Apart) {s s' : Text} (hs' : d.Free s')
    (h : Path.dotted s = Path.dotted s') (hnone : reading d d.loopOpening s = none) :
    reading d d.loopOpening s' = none := by
  refine Option.eq_none_iff_forall_ne_some.mpr fun head hr => ?_
  obtain ⟨g, c, name, gap, gap', g', hg, hc, hname, hgap, hne, hgap', hne', hg', hp, rfl, -⟩ :=
    shape_loopOpening hd hs' hr
  have hblank : ∀ {t : Text}, Blank t → '.' ∉ t ∧ '-' ∉ t := fun ht =>
    ⟨ht.notMem (by decide), ht.notMem (by decide)⟩
  have hword : '.' ∉ c :: name ∧ '-' ∉ c :: name := by
    have hall : ∀ x ∈ c :: name, isWordChar x = true := List.forall_mem_cons.mpr
      ⟨isWordChar_of_isNameChar (isNameChar_of_isNameStart hc), hname⟩
    exact ⟨fun hmem => absurd (hall _ hmem) (by decide),
      fun hmem => absurd (hall _ hmem) (by decide)⟩
  -- there are no separators in front of the path, and none behind it
  have hfront : '.' ∉ g ++ (c :: name ++ (gap ++ ("in".toList ++ gap'))) ∧
      '-' ∉ g ++ (c :: name ++ (gap ++ ("in".toList ++ gap'))) := by
    simp only [List.mem_append, hblank hg, hblank hgap, hblank hgap', hword, or_false, false_or]
    decide
  have hdotted : Path.dotted s = g ++ (c :: name ++ (gap ++ ("in".toList ++ gap'))) ++
      (Path.dotted head.path ++ g') := by
    have hsplit : g ++ (c :: name ++ (gap ++ ("in".toList ++ (gap' ++ (head.path ++ g'))))) =
        g ++ (c :: name ++ (gap ++ ("in".toList ++ gap'))) ++ (head.path ++ g') := by
      simp only [List.append_assoc]
    rw [h, hsplit, Path.dotted_append_of_notMem hfront.2,
      Path.dotted_append (absurd · (Path.getLast?_ne_of_isPath hp).1),
      Path.dotted_of_notMem (hblank hg').2]
  obtain ⟨t, rfl, ht⟩ := Path.dotted_eq_append hfront.1 hdotted
  obtain ⟨p, t, rfl, hpath, ht⟩ := Path.exists_append_of_dotted ht
  obtain rfl := Path.eq_of_dotted_eq (hblank hg').1 ht
  have hpath := Path.isPath_dotted.mp (hpath ▸ Path.isPath_dotted.mpr hp)
  have hread :=
    reading_loopOpening_blanks hd hg ⟨c, name, rfl, hc, hname⟩ hgap hne hgap' hne' hpath hg'
  simp only [List.append_assoc] at hnone
  rw [hnone] at hread
  exact absurd hread (by simp)

/-- Two spellings of the tag of a conditional: its condition is respelled. The tag has no part in
anything else, given the paths at which legacy loops are closed. -/
inductive ChoiceRespelled (d : Delimiters) (legacy : List Text) : Text → Text → Prop where
  /-- A word, and a condition on the line behind it, with blanks around both. -/
  | of_condition {g word gap c c' g' : Text} (word_mem : word ∈ choiceWords) (blank : Blank g)
    (gap_blank : Blank gap) (end_blank : Blank g') (inline : '\n' ∉ c)
    (first : c.head?.any isBlank = false) (last : c.getLast?.any isBlank = false)
    (ends : (gap ++ (c ++ g')).head?.any isWordChar = false)
    (reads : d.Reads legacy (g ++ (word ++ (gap ++ (c ++ g'))))
      { conditional? := some (conditionalOf word c) })
    (respelled : Condition.Respelled c c') :
    ChoiceRespelled d legacy (g ++ (word ++ (gap ++ (c ++ g'))))
      (g ++ (word ++ (gap ++ (c' ++ g'))))

/-- The tag of a conditional is a value under its word at most, or its condition starts with a
separator. -/
theorem value_of_choice (hd : d.Apart) {word gap c g' : Text} (hword : word ∈ choiceWords)
    (hg : Blank g) (hgap : Blank gap) (hg' : Blank g') (hfirst : c.head?.any isBlank = false)
    (hend : (gap ++ (c ++ g')).head?.any isWordChar = false)
    (hb : d.Free (g ++ (word ++ (gap ++ (c ++ g'))))) {v : Variable}
    (h : reading d d.variableTag (g ++ (word ++ (gap ++ (c ++ g')))) = some v) :
    (v.path = word ∧ (v.chain? = none → c = [])) ∨ c.head? = some '.' ∨
    ∃ t, c = '-' :: '>' :: t := by
  obtain ⟨hname, -, hne, -⟩ := choiceWords_spec word hword
  obtain ⟨g₁, g₂, t, hg₁, hg₂, hp, hbody, ht⟩ := shape_variableTag hd hb h
  obtain ⟨w, r, hsplit, -, -, hr, hwords⟩ := IsPath.words hp
  obtain ⟨hleading, hafter⟩ := hwords hg₁ (not_word_of_rest hg₂ ht)
  rw [← hbody, leadingWord_fixed hg hname hne hend] at hleading
  rw [← hbody, afterWord_fixed hg hname hne hend] at hafter
  subst hleading
  rcases hr with rfl | hr
  · rw [List.append_nil] at hsplit
    refine .inl ⟨hsplit, fun hchain => ?_⟩
    -- without filters there is nothing but blanks behind the word
    obtain ⟨path, chain?⟩ := v
    obtain rfl : chain? = none := hchain
    obtain ⟨g₃, g₄, hg₃, -, hg₄, hbody'⟩ := shape_value hd hb h
    obtain ⟨-, hafter'⟩ := @hwords g₃ g₄ hg₃ (by simpa using not_word_of_rest hg₄ (.inl rfl))
    rw [← hbody', afterWord_fixed hg hname hne hend, List.nil_append] at hafter'
    cases c with
    | nil => rfl
    | cons x c =>
      have hblank := hg₄ x (by rw [← hafter']; simp)
      rw [List.head?_cons, Option.any_some, hblank] at hfirst
      exact absurd hfirst (by simp)
  · have hstart : ∀ {x s}, isBlank x = false → gap ++ (c ++ g') = x :: s →
        ∃ u, c = x :: u ∧ u ++ g' = s := by
      intro x s hx heq
      have hnot : ∀ {y t}, Blank (y :: t) → y ≠ x := by
        rintro y t ht rfl
        exact absurd (ht y (by simp)) (by simp [hx])
      cases gap with
      | cons y gap => exact absurd (List.cons.inj heq).1 (hnot hgap)
      | nil =>
        cases c with
        | nil =>
          obtain rfl : g' = x :: s := heq
          exact absurd rfl (hnot hg')
        | cons y c =>
          obtain ⟨rfl, hs⟩ := List.cons.inj heq
          exact ⟨c, rfl, hs⟩
    right
    rcases hr with hpoint | ⟨u, rfl⟩
    · obtain ⟨u, rfl⟩ := List.head?_eq_some_iff.mp hpoint
      obtain ⟨s, rfl, -⟩ := hstart (by decide) hafter
      exact .inl rfl
    · obtain ⟨s, rfl, hs⟩ := hstart (by decide) hafter
      cases s with
      | nil =>
        rw [List.nil_append] at hs
        exact absurd (by simp [hs]) (hg'.notMem (by decide : isBlank '>' = false))
      | cons x s => exact .inr ⟨s, by rw [(List.cons.inj hs).1]⟩

namespace ChoiceRespelled

/-- Both spellings are tags of conditionals that hold in the same contexts. -/
theorem reads (hd : d.Apart) (h : ChoiceRespelled d legacy body body') :
    ∃ word c c', word ∈ choiceWords ∧ SameTruth c c' ∧
      d.Reads legacy body { conditional? := some (conditionalOf word c) } ∧
        d.Reads legacy body' { conditional? := some (conditionalOf word c') } := by
  obtain ⟨hword, hg, hgap, hg', hinline, hfirst, hlast, hends, hreads, hrespelled⟩ := h
  rename_i g word gap c c' g'
  refine ⟨word, c, c', hword, hrespelled.sameTruth, hreads, ?_⟩
  by_cases hseparator : c'.head? = some '.' ∨ ∃ t, c' = '-' :: '>' :: t
  · -- what starts with a separator is spelled in one way only
    rwa [← hrespelled.eq_of_separator hseparator]
  obtain ⟨hname, -, hne, hreserved, -, -, hend, hother⟩ := choiceWords_spec word hword
  have hhead : c.head? = c'.head? := hrespelled.head?
  have hends' : (gap ++ (c' ++ g')).head?.any isWordChar = false := by
    rwa [List.head?_append, List.head?_append, ← hhead, ← List.head?_append, ← List.head?_append]
  have hb := hreads.free
  have hb' : d.Free (g ++ (word ++ (gap ++ (c' ++ g')))) := by
    simp only [free_append] at hb ⊢
    exact ⟨hb.1, hb.2.1, hb.2.2.1,
      hrespelled.forall_mem (fun p hp => free_of_isPath hd hp) hb.2.2.2.1, hb.2.2.2.2⟩
  have hline : d.Line c' := by
    simp only [free_append] at hb'
    refine ⟨hb'.2.2.2.1, fun hmem => ?_⟩
    refine hrespelled.forall_mem (A := (· ≠ '\n')) (fun p hp x hx => ?_) (fun x hx => ?_) _ hmem rfl
    · rintro rfl
      exact absurd (not_blank_of_isPath hp hx) (by decide)
    · rintro rfl
      exact hinline hx
  have hconditional := reading_conditional hd hword hg hgap hg' hline (hhead ▸ hfirst)
    (hrespelled.getLast? ▸ hlast) hends'
  have hleading := leadingWord_fixed hg hname hne hends'
  have hvalue := fun v => value_of_choice (v := v) hd hword hg hgap hg' (hhead ▸ hfirst) hends' hb'
  have hdotted : Path.dotted (g ++ (word ++ (gap ++ (c ++ g')))) =
      Path.dotted (g ++ (word ++ (gap ++ (c' ++ g')))) := by
    have hblank : g'.head? ≠ some '>' := fun hx => hg'.notMem (by decide) (List.mem_of_head? hx)
    have htail : Path.dotted (c ++ g') = Path.dotted (c' ++ g') := by
      rw [Path.dotted_append fun _ => hblank, Path.dotted_append fun _ => hblank, hrespelled.dotted]
    have hfront := Path.dotted_append_congr (g ++ (word ++ gap))
      (by rw [List.head?_append, List.head?_append, hhead]) htail
    simpa only [List.append_assoc] using hfront
  refine ⟨hb', ?_, hconditional, ?_, ?_,
    fun {head} hmem => ⟨fun hr => ?_, fun hr => absurd hr (by simp)⟩, ?_, ?_⟩
  · refine silent_of_words hd hb' ?_ (.inl ?_) <;> rw [hleading]
    · exact fun hmem => hother (by simp at hmem ⊢; tauto)
    · exact fun hmem => hother (by simp at hmem ⊢; tauto)
  · cases hr : reading d d.variableTag (g ++ (word ++ (gap ++ (c' ++ g')))) with
    | none => rfl
    | some v =>
      obtain ⟨hpath, -⟩ := (hvalue v hr).resolve_right hseparator
      exact Option.filter_some_neg (by simpa [hpath] using hreserved)
  · exact not_loopOpening_of_dotted hd hb' hdotted hreads.opening
  · -- without a condition, both spellings are one
    obtain ⟨hform, hr⟩ := (reading_legacyOpening_iff hd hb').mp hr
    obtain ⟨-, hnil⟩ := (hvalue _ hr).resolve_right hseparator
    obtain rfl : c = c' := by
      rw [hnil rfl] at hhead ⊢
      simpa using hhead
    have hopens :=
      (hreads.legacyOpening hmem).mp ((reading_legacyOpening_iff hd hb).mpr ⟨hform, hr⟩)
    exact absurd hopens (by simp)
  · exact not_loopClosing hd hb' (by rwa [hleading])
  · exact not_legacyClosing hd hb' (by rwa [hleading])

end ChoiceRespelled

end Delimiters

/-- The text of a value does not depend on the separators of its path. -/
theorem Substitution.text?_respelled (σ : Substitution) {p p' : Text} (hp : Path.Respelled p p')
    (chain? : Option Text) (ctx : Context) :
    σ.text? ctx ⟨p, chain?⟩ = σ.text? ctx ⟨p', chain?⟩ := by
  have hwords : ∀ w ∈ reservedWords, w.all isNameChar = true := by decide
  have hreserved : p ∈ reservedWords ↔ p' ∈ reservedWords := by
    constructor
    · intro hmem
      rwa [hp.eq_of_word (hwords p hmem)]
    · intro hmem
      rwa [hp.symm.eq_of_word (hwords p' hmem)]
  have hany : reservedWords.any (· = p) = reservedWords.any (· = p') := by
    rw [Bool.eq_iff_iff]
    simpa using hreserved
  rw [Substitution.text?, Substitution.text?, hany, hp.resolve? ctx]

end Stencil
