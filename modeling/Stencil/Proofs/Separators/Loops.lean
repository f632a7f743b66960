import Stencil.Proofs.Separators.Path
import Stencil.Proofs.Scoping.Source

/-!
# The tags of loops and the separators of their paths

The opening tag of a loop and its closing tag share a path, letter by letter. Where both have it
with other separators, they are the tags of a loop over the same rows. What is spelled around the
path does not matter, nor does the name of the rows: even a word of another construct is a name
here.
-/

namespace Stencil

open Recognizer Outline

namespace Delimiters

variable {d : Delimiters} {body : Text}

/-! ## Tags that open and close loops -/

/-- There are no blanks in the name of a block. -/
theorem not_blank_of_blockName {c : Char} (h : isBlockNameChar c = true) : isBlank c = false := by
  refine Bool.eq_false_iff.mpr fun hblank => ?_
  simp only [isBlockNameChar, isWordChar_eq_false_of_isBlank hblank, Bool.false_or, Bool.or_eq_true,
    decide_eq_true_eq] at h
  rcases h with rfl | rfl
  · exact absurd hblank (by decide)
  · exact absurd hblank (by decide)

/-- The opening tag of a bound loop has no part in composition, whatever its name. -/
theorem silent_of_loopOpening (hd : d.Apart) (hb : d.Free body) {head : LoopHead}
    (h : reading d d.loopOpening body = some head) : d.Silent body := by
  obtain ⟨-, gap, rest, hgap, hne, hafter, gap', path, g', hgap', hne', hp, hg', hrest⟩ :=
    words_loopOpening hd hb h
  have hi : isBlank 'i' = false := by decide
  have hbehind : behindWord body = "in".toList ++ rest := by
    rw [behindWord, hafter, dropWhile_blank hgap (by simpa using hi)]
  have hnames : ∀ {word}, ¬ Names body word := by
    rintro word ⟨-, hcolon⟩
    rw [hbehind] at hcolon
    exact absurd hcolon (by simp)
  refine ⟨?_, ?_, ?_, ?_⟩
  · exact Option.eq_none_iff_forall_ne_some.mpr fun name hr => hnames (names_includeTag hd hb hr)
  · exact Option.eq_none_iff_forall_ne_some.mpr fun name hr =>
      (names_baseTag hd hb hr).elim hnames hnames
  · refine Option.eq_none_iff_forall_ne_some.mpr fun name hr => ?_
    -- behind the second word there is a path, and so there is more than the name of a block
    obtain ⟨g₁, gap₁, c, w, g₂, hg₁, hgap₁, hne₁, hg₂, hname, rfl⟩ := shape_blockOpening hd hb hr
    rw [afterWord_fixed hg₁ (by decide) (by decide) (not_word_of_blank hgap₁ hne₁)] at hafter
    have hsolid : ∀ x ∈ c :: w, isBlank x = false := fun x hx => not_blank_of_blockName (hname x hx)
    have htail : c :: w ++ g₂ = "in".toList ++ rest := by
      have hdrop := congrArg (List.dropWhile isBlank) hafter
      rwa [dropWhile_blank hgap₁ (by simpa using hsolid c (by simp)),
        dropWhile_blank hgap (by simpa using hi)] at hdrop
    obtain rfl : g₂ = rest := by
      refine blanks_of_eq hsolid hg₂ (by decide) (fun x hx => ?_) htail
      obtain ⟨y, gap', rfl⟩ := List.exists_cons_of_ne_nil hne'
      exact hgap' x (by simp_all)
    obtain ⟨x, path, rfl⟩ := List.exists_cons_of_ne_nil (ne_nil_of_isPath hp)
    have hblank := hg₂ x (by simp [hrest])
    rw [not_blank_of_isPath hp (by simp)] at hblank
    exact absurd hblank (by simp)
  · refine Option.eq_none_iff_forall_ne_some.mpr fun u hr => ?_
    obtain ⟨g₁, g₂, hg₁, hg₂, rfl⟩ := shape_regionOpening hd hb hr
    have hword : g₂.head?.any isWordChar = false := by simpa using not_word_of_gap hg₂ (.inr rfl)
    rw [afterWord_fixed hg₁ (by decide) (by decide) hword] at hafter
    exact absurd (hg₂ 'i' (by simp [hafter])) (by decide)

/-- Where a gap follows the word that a value without filters starts with, nothing but blanks do. -/
theorem blank_of_gap (hd : d.Apart) (hb : d.Free body) {p : Text}
    (h : reading d d.variableTag body = some ⟨p, none⟩) {g word gap t : Text} (hg : Blank g)
    (hw : word.all isNameChar = true) (hne : word ≠ []) (hgap : Blank gap)
    (hend : gap ≠ [] ∨ t = [])
    (hbody : body = g ++ (word ++ (gap ++ t))) : p = word ∧ Blank (gap ++ t) := by
  have hpath : p = word := path_eq_of_gap hd hb h hg hw hne hgap hend hbody
  obtain ⟨g₁, g₂, hg₁, -, hg₂, hvalue⟩ := shape_value hd hb h
  have hafter := afterWord_fixed hg hw hne (not_word_of_gap hgap hend)
  have hafter' :=
    @afterWord_fixed g₁ word g₂ hg₁ hw hne (by simpa using not_word_of_gap hg₂ (.inr rfl))
  rw [← hpath, ← hvalue, hbody, hafter] at hafter'
  exact ⟨hpath, hafter' ▸ hg₂⟩

/-- The closing tag of a bound loop opens no legacy loop. -/
theorem not_legacyOpening_of_loopClosing (hd : d.Apart) (hb : d.Free body) {path : Text}
    (h : reading d d.loopClosing body = some path) : reading d d.legacyOpening body = none := by
  refine Option.eq_none_iff_forall_ne_some.mpr fun head hr => ?_
  obtain ⟨-, hvalue⟩ := (reading_legacyOpening_iff hd hb).mp hr
  obtain ⟨g, gap, g', hg, hgap, hne, -, hp, hbody⟩ := shape_loopClosing hd hb h
  obtain ⟨-, hblank⟩ := blank_of_gap hd hb hvalue hg (by decide) (by decide) hgap (.inl hne) hbody
  obtain ⟨x, path, rfl⟩ := List.exists_cons_of_ne_nil (ne_nil_of_isPath hp)
  have hx := hblank x (by simp)
  rw [not_blank_of_isPath hp (by simp)] at hx
  exact absurd hx (by simp)

/-- A value without filters has no part in composition, and protects nothing if it is not the word
for that. -/
theorem silent_of_value (hd : d.Apart) (hb : d.Free body) {p : Text}
    (h : reading d d.variableTag body = some ⟨p, none⟩) (hp : p ≠ "noparse".toList) :
    d.Silent body := by
  have hnames := not_names_of_value hd hb h
  refine ⟨?_, ?_, ?_, ?_⟩
  · exact Option.eq_none_iff_forall_ne_some.mpr fun name hr => hnames _ (names_includeTag hd hb hr)
  · exact Option.eq_none_iff_forall_ne_some.mpr fun name hr =>
      (names_baseTag hd hb hr).elim (hnames _) (hnames _)
  · refine Option.eq_none_iff_forall_ne_some.mpr fun name hr => ?_
    obtain ⟨g, gap, c, w, g', hg, hgap, hne, -, hname, hbody⟩ := shape_blockOpening hd hb hr
    obtain ⟨-, hblank⟩ := blank_of_gap hd hb h hg (by decide) (by decide) hgap (.inl hne) hbody
    exact absurd (hblank c (by simp)) (by simp [not_blank_of_blockName (hname c (by simp))])
  · refine Option.eq_none_iff_forall_ne_some.mpr fun u hr => hp ?_
    obtain ⟨g, gap, hg, hgap, hbody⟩ := shape_regionOpening hd hb hr
    rw [← List.append_nil gap] at hbody
    exact (blank_of_gap hd hb h hg (by decide) (by decide) hgap (.inr rfl) hbody).1

/-! ## What the grammars of loops make of a tag -/

theorem loopReadings_of_loopOpening (hd : d.Apart) (hb : d.Free body) {head : LoopHead}
    (h : reading d d.loopOpening body = some head) :
    LoopReadings d body (some head) none none none := by
  have hvalue := not_value_of_loopOpening hd hb h
  refine ⟨h, ?_, ?_, not_legacyClosing hd hb (words_loopOpening hd hb h).1⟩
  · refine Option.eq_none_iff_forall_ne_some.mpr fun a hr => ?_
    rw [((reading_legacyOpening_iff hd hb).mp hr).2] at hvalue
    exact absurd hvalue (by simp)
  · refine Option.eq_none_iff_forall_ne_some.mpr fun path hr => ?_
    rw [not_loopOpening_of_loopClosing hd hb hr] at h
    exact absurd h (by simp)

theorem loopReadings_of_loopClosing (hd : d.Apart) (hb : d.Free body) {path : Text}
    (h : reading d d.loopClosing body = some path) :
    LoopReadings d body none none (some path) none := by
  refine ⟨not_loopOpening_of_loopClosing hd hb h, not_legacyOpening_of_loopClosing hd hb h, h, ?_⟩
  exact not_legacyClosing hd hb (by rw [leadingWord_loopClosing hd hb h]; decide)

theorem loopReadings_of_value (hd : d.Apart) (hb : d.Free body) {path : Text}
    (h : reading d d.variableTag body = some ⟨path, none⟩) :
    LoopReadings d body none (some ⟨.legacy, path⟩) none none := by
  have hlegacy : reading d d.legacyOpening body = some ⟨.legacy, path⟩ :=
    (reading_legacyOpening_iff hd hb).mpr ⟨rfl, h⟩
  refine ⟨?_, hlegacy, ?_, not_legacyClosing hd hb (words_legacyOpening hd hb hlegacy).1⟩
  · refine Option.eq_none_iff_forall_ne_some.mpr fun a hr => ?_
    rw [not_value_of_loopOpening hd hb hr] at h
    exact absurd h (by simp)
  · refine Option.eq_none_iff_forall_ne_some.mpr fun path hr => ?_
    rw [not_legacyOpening_of_loopClosing hd hb hr] at hlegacy
    exact absurd hlegacy (by simp)

theorem loopReadings_of_legacyClosing (hd : d.Apart) (hb : d.Free body) {path : Text}
    (h : reading d d.legacyClosing body = some path) :
    LoopReadings d body none none none (some path) := by
  have hlead := leadingWord_legacyClosing hd hb h
  refine ⟨?_, ?_, not_loopClosing hd hb (by rw [hlead]; decide), h⟩
  · exact Option.eq_none_iff_forall_ne_some.mpr fun a hr => (words_loopOpening hd hb hr).1 hlead
  · exact Option.eq_none_iff_forall_ne_some.mpr fun a hr => (words_legacyOpening hd hb hr).1 hlead

/-! ## Loops by their paths -/

/-- How the two tags of a loop are spelled around the path that they share. -/
inductive LoopFrame : LoopForm → (Text → Text) → (Text → Text) → Prop where
  /-- A bound loop. -/
  | bound {g name gap gap' g₁ g₂ gap₂ g₃ : Text} (named : IsName name)
    (gaps : ∀ t ∈ [gap, gap', gap₂], Blank t ∧ t ≠ []) (blanks : ∀ t ∈ [g, g₁, g₂, g₃], Blank t) :
    LoopFrame (.bound (String.ofList name))
      (fun p => g ++ (name ++ (gap ++ ("in".toList ++ (gap' ++ (p ++ g₁))))))
      (fun p => g₂ ++ ("end".toList ++ (gap₂ ++ (p ++ g₃))))
  /-- A legacy loop. -/
  | legacy {g g₁ g₂ gap g₃ : Text} (blanks : ∀ t ∈ [g, g₁, g₂, gap, g₃], Blank t) :
    LoopFrame .legacy (fun p => g ++ (p ++ g₁)) (fun p => g₂ ++ '/' :: (gap ++ (p ++ g₃)))

/-- What is made of the two tags of a loop: they are tags of this loop, and have no part in anything
else, except that the opening tag of a legacy loop is a value, and the closing tag of a bound loop
may be one under a reserved word. -/
structure LoopUse (d : Delimiters) (head : LoopHead) (front back : Text) : Prop where
  /-- There are no delimiters in them. -/
  free : d.Free front ∧ d.Free back
  /-- They have no part in composition. -/
  silent : d.Silent front ∧ d.Silent back
  /-- They are the tags of the loop. -/
  tags : LoopTags d head front back
  /-- The opening tag is a value of a legacy loop only. -/
  front_value : ∀ v, reading d d.variableTag front = some v → head.form = .legacy ∧
    v = ⟨head.path, none⟩
  /-- The closing tag is no value that is replaced. -/
  back_value : ∀ v, reading d d.variableTag back = some v → v.path ∈ reservedWords

theorem free_of_isName (hd : d.Apart) {name : Text} (h : IsName name) : d.Free name := by
  obtain ⟨c, t, rfl, hc, ht⟩ := h
  refine hd.free_of_tagChar fun x hx => ?_
  rcases List.mem_cons.mp hx with rfl | hx
  · simp [isTagChar, isWordChar_of_isNameChar (isNameChar_of_isNameStart hc)]
  · simp [isTagChar, ht x hx]

/-- With any path, the two tags are those of a loop over it. -/
theorem LoopFrame.use (hd : d.Apart) {form : LoopForm} {front back : Text → Text}
    (h : LoopFrame form front back) {p : Text} (hp : IsPath p)
    (hregion : form = .legacy → p ≠ "noparse".toList) : LoopUse d ⟨form, p⟩ (front p) (back p) := by
  have hpath := free_of_isPath hd hp
  have hblank : ∀ {t : Text}, Blank t → d.Free t := fun ht => hd.free_of_blank ht
  cases h with
  | @bound g name gap gap' g₁ g₂ gap₂ g₃ hname hgaps hblanks =>
    simp only [List.forall_mem_cons] at hgaps hblanks
    obtain ⟨⟨hgap, hne⟩, ⟨hgap', hne'⟩, ⟨hgap₂, hne₂⟩, -⟩ := hgaps
    obtain ⟨hg, hg₁, hg₂, hg₃, -⟩ := hblanks
    have hin : d.Free "in".toList := hd.free_of_tagChar (List.all_eq_true.mp (by decide))
    have hend : d.Free "end".toList := hd.free_of_tagChar (List.all_eq_true.mp (by decide))
    have hfront := reading_loopOpening_blanks hd hg hname hgap hne hgap' hne' hp hg₁
    have hback := reading_loopClosing_blanks hd hg₂ hgap₂ hne₂ hp hg₃
    have hfree : d.Free (g ++ (name ++ (gap ++ ("in".toList ++ (gap' ++ (p ++ g₁)))))) := by
      simp only [free_append]
      exact ⟨hblank hg, free_of_isName hd hname, hblank hgap, hin, hblank hgap', hpath, hblank hg₁⟩
    have hfree' : d.Free (g₂ ++ ("end".toList ++ (gap₂ ++ (p ++ g₃)))) := by
      simp only [free_append]
      exact ⟨hblank hg₂, hend, hblank hgap₂, hpath, hblank hg₃⟩
    have hlead := leadingWord_loopClosing hd hfree' hback
    refine ⟨⟨hfree, hfree'⟩, ⟨silent_of_loopOpening hd hfree hfront, ?_⟩,
      ⟨loopReadings_of_loopOpening hd hfree hfront, loopReadings_of_loopClosing hd hfree' hback⟩,
      fun v hv => ?_, fun v hv => reserved_of_loopClosing hd hfree' hback hv⟩
    · exact silent_of_words hd hfree' (by rw [hlead]; decide) (.inl (by rw [hlead]; decide))
    · rw [not_value_of_loopOpening hd hfree hfront] at hv
      exact absurd hv (by simp)
  | @legacy g g₁ g₂ gap g₃ hblanks =>
    simp only [List.forall_mem_cons] at hblanks
    obtain ⟨hg, hg₁, hg₂, hgap, hg₃, -⟩ := hblanks
    have hfront := (readings_path hd hg hp hg₁).1
    have hback := reading_legacyClosing_blanks hd hg₂ hgap hp hg₃
    have hfree : d.Free (g ++ (p ++ g₁)) := by
      simp only [free_append]
      exact ⟨hblank hg, hpath, hblank hg₁⟩
    have hfree' : d.Free (g₂ ++ '/' :: (gap ++ (p ++ g₃))) := by
      have hslash : d.Free ['/'] := hd.free_of_tagChar (List.all_eq_true.mp (by decide))
      have hrest : d.Free (gap ++ (p ++ g₃)) := by
        simp only [free_append]
        exact ⟨hblank hgap, hpath, hblank hg₃⟩
      exact free_append.mpr ⟨hblank hg₂, free_append (s := ['/']).mpr ⟨hslash, hrest⟩⟩
    have hlead := leadingWord_legacyClosing hd hfree' hback
    refine ⟨⟨hfree, hfree'⟩, ⟨silent_of_value hd hfree hfront (hregion rfl), ?_⟩,
      ⟨loopReadings_of_value hd hfree hfront, loopReadings_of_legacyClosing hd hfree' hback⟩,
      fun v hv => ⟨rfl, Option.some.inj (hv.symm.trans hfront)⟩, fun v hv => ?_⟩
    · exact silent_of_words hd hfree' (by rw [hlead]; decide) (.inl (by rw [hlead]; decide))
    · obtain ⟨-, -, -, -, -, hv', -⟩ := shape_variableTag hd hfree' hv
      rw [leadingWord_variableTag hd hfree' hv] at hlead
      exact absurd hlead (leadingWord_path_ne_nil hv')

/-- Two spellings of the tags of a loop: its path is respelled in both. -/
inductive LoopRespelled : Text → Text → Text → Text → Prop where
  /-- A loop that is no protected region. -/
  | of_frame {form : LoopForm} {front back : Text → Text} {p p' : Text}
      (frame : LoopFrame form front back)
    (respelled : Path.Respelled p p') (unprotected : form = .legacy → p ≠ "noparse".toList) :
    LoopRespelled (front p) (back p) (front p') (back p')

/-- Both spellings are the tags of loops over the same rows. -/
theorem LoopRespelled.use (hd : d.Apart) {front back front' back' : Text}
    (h : LoopRespelled front back front' back') : ∃ form p p', Path.Respelled p p' ∧
      LoopUse d ⟨form, p⟩ front back ∧ LoopUse d ⟨form, p'⟩ front' back' := by
  obtain ⟨hframe, hrespelled, hregion⟩ := h
  rename_i form front back p p'
  refine ⟨form, p, p', hrespelled, hframe.use hd hrespelled.isPath hregion,
    hframe.use hd hrespelled.isPath_right fun hform hp' => hregion hform ?_⟩
  rw [← hp']
  exact hrespelled.symm.eq_of_word (by rw [hp']; decide)

end Delimiters

end Stencil
