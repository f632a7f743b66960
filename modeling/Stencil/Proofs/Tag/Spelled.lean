import Stencil.Proofs.Protection.Extract

/-!
# How tags are written

The other way round: tags that are written in the usual way are read as what they are meant to be.
A recognizer reads a text from end to end if its parts read the parts of the text, each as much as
it can get. Blanks around a condition or around filters do not count.
-/

namespace Stencil

namespace Text

/-- A text is its trimmed self with blanks around it. -/
theorem trim_spec (s : Text) :
    ∃ g g', Blank g ∧ Blank g' ∧ s = g ++ (s.trim ++ g') ∧ s.trim.head?.any isBlank = false ∧
      s.trim.getLast?.any isBlank = false := by
  have hstart : s = s.takeWhile isBlank ++ s.trimStart := (List.takeWhile_append_dropWhile ..).symm
  have hend : ∀ t : Text, t = t.trimEnd ++ (t.reverse.takeWhile isBlank).reverse := by
    intro t
    rw [trimEnd, ← List.reverse_append, List.takeWhile_append_dropWhile, List.reverse_reverse]
  have hblank : ∀ t : Text, Blank (t.takeWhile isBlank) := by
    intro t c hc
    exact List.all_eq_true.mp (List.all_takeWhile ..) c hc
  have hdrop : ∀ t : Text, (t.dropWhile isBlank).head?.any isBlank = false := by
    intro t
    have := List.head?_dropWhile_not isBlank t
    cases hh : (t.dropWhile isBlank).head? with
    | none => rfl
    | some c => simpa [hh] using this
  refine ⟨s.takeWhile isBlank, (s.trimStart.reverse.takeWhile isBlank).reverse,
    hblank s, ?_, ?_, ?_, ?_⟩
  · intro c hc
    exact hblank _ c (by simpa using hc)
  · rw [trim, ← hend, ← hstart]
  · have hfirst := hdrop s
    cases ht : s.trim with
    | nil => rfl
    | cons c t =>
      have := hend s.trimStart
      rw [show s.trimStart.trimEnd = c :: t from ht] at this
      rw [show s.dropWhile isBlank = s.trimStart from rfl, this] at hfirst
      simpa using hfirst
  · rw [trim, trimEnd, List.getLast?_reverse]
    exact hdrop _

end Text

namespace Recognizer

variable {α : Type} {next r q : Recognizer α} {t : Text} {a : α}

theorem Whole.one {p : Char → Bool} {c : Char} (hc : p c = true) (h : Whole next t a) :
    Whole (one p next) (c :: t) (c, a) := by
  rw [Whole, Recognizer.one, if_pos hc, h]

/-- A stretch of a class is taken up to the first character of another. -/
theorem Whole.most {p : Char → Bool} {w : Text} (hw : ∀ c ∈ w, p c = true)
    (ht : t.head?.any p = false) (h : Whole next t a) : Whole (most p next) (w ++ t) (w, a) := by
  induction w with
  | nil =>
    rw [List.nil_append, Whole]
    cases t with
    | nil => rw [Recognizer.most, Recognizer.map, h]
    | cons c t =>
      rw [Recognizer.most, if_neg (by simpa using ht)]
      dsimp only
      rw [Recognizer.map, h]
  | cons c w ih =>
    have ih := ih fun x hx => hw x (by simp [hx])
    rw [List.cons_append, Whole, Recognizer.most, if_pos (hw c (by simp)), ih]

theorem Whole.leading {p q : Char → Bool} {c : Char} {w : Text} (hc : p c = true)
    (hw : ∀ x ∈ w, q x = true) (ht : t.head?.any q = false) (h : Whole next t a) :
    Whole (leading p q next) (c :: w ++ t) (c :: w, a) :=
  whole_map.mpr ⟨(c, w, a), (h.most hw ht).one hc, rfl⟩

theorem Whole.blanks {g : Text} (hg : Blank g) (ht : t.head?.any isBlank = false)
    (h : Whole next t a) : Whole (blanks next) (g ++ t) a :=
  whole_map.mpr ⟨(g, a), h.most hg ht, rfl⟩

theorem Whole.someBlanks {g : Text} (hg : Blank g) (hne : g ≠ [])
    (ht : t.head?.any isBlank = false) (h : Whole next t a) :
    Whole (someBlanks next) (g ++ t) a := by
  obtain ⟨c, g, rfl⟩ := List.exists_cons_of_ne_nil hne
  exact whole_map.mpr
    ⟨(c :: g, a), h.leading (hg c (by simp)) (fun x hx => hg x (by simp [hx])) ht, rfl⟩

/-- A path is taken up to where no path goes on. -/
theorem Whole.path {p : Text} (hp : IsPath p) (ht : pathStep t = none) (h : Whole next t a) :
    Whole (path next) (p ++ t) (p, a) := by
  obtain ⟨c, p, rfl, hc, hp⟩ := hp
  suffices hrest : Whole (pathRest next) (p ++ t) (p, a) from
    whole_map.mpr ⟨(c, p, a), hrest.one hc, rfl⟩
  clear hc
  induction hp with
  | nil =>
    rw [List.nil_append, Whole, pathRest_eq, ht]
    dsimp only
    rw [Recognizer.map, h]
  | step hw hp ih =>
    rw [List.append_assoc, Whole, pathRest_eq, pathStep_of_isStep hw]
    dsimp only
    rw [ih]

theorem Whole.orElse_left (h : Whole r t a) : Whole (r.orElse q) t a := by
  rw [Whole, Recognizer.orElse, h]

theorem Whole.orElse_right (hr : r t = none) (h : Whole q t a) : Whole (r.orElse q) t a := by
  rw [Whole, Recognizer.orElse, hr, h]

end Recognizer

namespace Delimiters

open Recognizer

variable {α : Type} {next : Recognizer α} {d : Delimiters} {body : Text}

theorem reading_of_whole {r : Recognizer α} {a : α} (h : Whole r (d.enclose body) a) :
    reading d r body = some a := by
  rw [reading, h]
  rfl

theorem whole_closed_right (hd : d.Apart) : Whole d.closed d.right () := by
  have := closed_right hd []
  rwa [List.append_nil] at this

theorem whole_opened_blanks {a : α} {g s : Text} (hg : Blank g) (hs : s.head?.any isBlank = false)
    (hne : s ≠ []) (h : Whole next (s ++ d.right) a) :
    Whole (d.opened next) (d.enclose (g ++ s)) a := by
  refine whole_literal.mpr ⟨_, rfl, ?_⟩
  rw [List.append_assoc]
  refine h.blanks hg ?_
  obtain ⟨c, t, rfl⟩ := List.exists_cons_of_ne_nil hne
  simpa using hs

/-- A tag whose body starts with no blank. -/
theorem whole_opened_body {a : α} (hbody : body.head?.any isBlank = false) (hne : body ≠ [])
    (h : Whole next (body ++ d.right) a) : Whole (d.opened next) (d.enclose body) a :=
  whole_opened_blanks blank_nil hbody hne h

/-- No path goes on at the end of a tag. -/
theorem pathStep_right (hd : d.Apart) : pathStep d.right = none := by
  have := pathStep_append hd [] []
  rwa [List.nil_append, List.append_nil] at this

/-- What stands on one line, without delimiters. -/
def Line (d : Delimiters) (s : Text) : Prop := d.Free s ∧ '\n' ∉ s

instance (s : Text) : Decidable (d.Line s) := inferInstanceAs (Decidable (d.Free s ∧ '\n' ∉ s))

/-- What stands on one line between blanks is read up to the end of the tag, if no blank is at its
ends. -/
theorem whole_trimmed (hd : d.Apart) {g m g' : Text} (hg : Blank g) (hg' : Blank g')
    (hm : d.Line m) (hfirst : m.head?.any isBlank = false)
    (hlast : m.getLast?.any isBlank = false) :
    Whole (blanks (fewest isInline d.closed)) (g ++ (m ++ (g' ++ d.right))) (m, ()) := by
  have hright : d.right.head?.any isBlank = false := by simpa using hd.right_head []
  have hend : Whole d.closed (g' ++ d.right) () :=
    Whole.blanks hg' hright (whole_literal.mpr ⟨[], by simp, rfl⟩)
  cases m with
  | nil =>
    rw [List.nil_append, ← List.append_assoc]
    exact Whole.blanks (hg.append hg') hright
      (fewest_some (s := []) (by simp) (by simp) (whole_closed_right hd))
  | cons c m =>
    have hinline : ∀ x ∈ c :: m, isInline x = true := by
      intro x hx
      rw [isInline, decide_eq_true_eq]
      rintro rfl
      exact hm.2 hx
    have hnone : ∀ i < (c :: m).length, d.closed ((c :: m).drop i ++ (g' ++ d.right)) = none := by
      intro i hi
      have hblanks : d.Free g' := hd.free_of_blank hg'
      have hrest : d.Free ((c :: m).drop i ++ g') :=
        free_append.mpr ⟨fun x hx => hm.1 x (List.mem_of_mem_drop hx), hblanks⟩
      rcases bounded_closed hd _ hrest with hn | ⟨u, hsome⟩
      · simpa using hn []
      · -- what is left would be blank, but its last character is not
        have hwhole : Whole d.closed (((c :: m).drop i ++ g') ++ d.right) u := by
          have := hsome []
          rwa [List.append_nil] at this
        obtain ⟨g'', hblank, heq⟩ := whole_closed hwhole
        have hsame := List.append_cancel_right heq
        have hmem : (c :: m).getLast (by simp) ∈ g'' := by
          have hne : (c :: m).drop i ≠ [] := by simpa using hi
          rw [← hsame, ← List.getLast_drop hne]
          exact List.mem_append_left _ (List.getLast_mem _)
        rw [List.getLast?_eq_some_getLast (by simp), Option.any_some] at hlast
        exact absurd (hblank _ hmem) (by simp [hlast])
    exact Whole.blanks hg (by simpa using hfirst) (fewest_some hinline hnone hend)

/-- A line is read up to the end of the tag, without the blanks around it. -/
theorem whole_line (hd : d.Apart) {s : Text} (hs : d.Line s) :
    Whole (blanks (fewest isInline d.closed)) (s ++ d.right) (s.trim, ()) := by
  obtain ⟨g, g', hg, hg', hsplit, hfirst, hlast⟩ := s.trim_spec
  have hmem : ∀ c ∈ s.trim, c ∈ s := by
    intro c hc
    rw [hsplit]
    simp [hc]
  have hline : d.Line s.trim := ⟨fun c hc => hs.1 c (hmem c hc), fun hc => hs.2 (hmem _ hc)⟩
  have hwhole := whole_trimmed hd hg hg' hline hfirst hlast
  rwa [← List.append_assoc s.trim, ← List.append_assoc g, ← hsplit] at hwhole

/-! ## The tags of values and loops -/

theorem head_of_isPath {p : Text} (hp : IsPath p) (t : Text) :
    (p ++ t).head?.any isBlank = false := by
  obtain ⟨c, p, rfl, hc, -⟩ := hp
  simpa using isBlank_eq_false_of_isNameChar (isNameChar_of_isNameStart hc)

theorem ne_nil_of_isPath {p : Text} (hp : IsPath p) : p ≠ [] := by
  obtain ⟨c, p, rfl, -, -⟩ := hp
  simp

theorem right_not_blank (hd : d.Apart) : d.right.head?.any isBlank = false := by
  simpa using hd.right_head []

/-- A keyword does not stand at the end of a tag. -/
theorem literal_right (hd : d.Apart) {w : Text} (hw : w.all isTagChar = true) (hne : w ≠ []) :
    literal w next d.right = none := by
  refine literal_eq_none fun hp => ?_
  obtain ⟨c, w, rfl⟩ := List.exists_cons_of_ne_nil hne
  exact hd.not_mem_right hw c (by simp) (hp.subset (by simp))

theorem whole_closed_blanks (hd : d.Apart) {g : Text} (hg : Blank g) :
    Whole d.closed (g ++ d.right) () :=
  Whole.blanks hg (right_not_blank hd) (whole_literal.mpr ⟨[], by simp, rfl⟩)

theorem pathStep_blanks (hd : d.Apart) {g : Text} (hg : Blank g) :
    pathStep (g ++ d.right) = none := by
  cases g with
  | nil => exact pathStep_right hd
  | cons c g =>
    have hc := hg c (by simp)
    have hne : c ≠ '.' ∧ c ≠ '-' := by
      constructor <;> rintro rfl <;> exact absurd hc (by decide)
    rw [List.cons_append, pathStep_cons hne.1 hne.2, if_neg]
    intro hname
    rw [isBlank_eq_false_of_isNameChar hname] at hc
    exact absurd hc (by simp)

theorem whole_path_closed (hd : d.Apart) {p g : Text} (hp : IsPath p) (hg : Blank g) :
    Whole (path d.closed) (p ++ (g ++ d.right)) (p, ()) :=
  (whole_closed_blanks hd hg).path hp (pathStep_blanks hd hg)

/-- A path with blanks around it is a value without filters, and opens a legacy loop. -/
theorem readings_path (hd : d.Apart) {g p g' : Text} (hg : Blank g) (hp : IsPath p)
    (hg' : Blank g') :
    reading d d.variableTag (g ++ (p ++ g')) = some ⟨p, none⟩ ∧
      reading d d.legacyOpening (g ++ (p ++ g')) = some ⟨.legacy, p⟩ := by
  have hhead := head_of_isPath hp g'
  have hne : p ++ g' ≠ [] := by simp [ne_nil_of_isPath hp]
  constructor
  · have hnone : ((literal ['|'] d.chain).map some) d.right = none := by
      rw [Recognizer.map, literal_right hd (by decide) (by simp)]
    have hend : Whole ((literal ['|'] d.chain).map some |>.orElse (d.closed.map fun _ => none))
        d.right none :=
      (whole_map.mpr ⟨(), whole_closed_right hd, rfl⟩).orElse_right hnone
    have hpath := (hend.blanks hg' (right_not_blank hd)).path hp (pathStep_blanks hd hg')
    rw [← List.append_assoc] at hpath
    exact reading_of_whole
      (whole_map.mpr ⟨(p, none), whole_opened_blanks hg hhead hne hpath, rfl⟩)
  · have hpath := whole_path_closed hd hp hg'
    rw [← List.append_assoc] at hpath
    exact reading_of_whole
      (whole_map.mpr ⟨(p, ()), whole_opened_blanks hg hhead hne hpath, rfl⟩)

/-- The tag of a value without filters. -/
theorem reading_value (hd : d.Apart) {p : Text} (hp : IsPath p) :
    reading d d.variableTag p = some ⟨p, none⟩ := by
  have hreading := (readings_path hd blank_nil hp blank_nil).1
  rwa [List.nil_append, List.append_nil] at hreading

/-- The tag of a value with filters. -/
theorem reading_filtered (hd : d.Apart) {p chain : Text} (hp : IsPath p) (hchain : d.Line chain) :
    reading d d.variableTag (p ++ '|' :: chain) = some ⟨p, some chain.trim⟩ := by
  have hbar : Whole ((literal ['|'] d.chain).map some) ('|' :: (chain ++ d.right))
      (some chain.trim) := by
    refine whole_map.mpr ⟨chain.trim, whole_literal.mpr ⟨chain ++ d.right, rfl, ?_⟩, rfl⟩
    exact whole_map.mpr ⟨(chain.trim, ()), whole_line hd hchain, rfl⟩
  have hend := hbar.orElse_left (q := d.closed.map fun _ => none)
  have hblanks := hend.blanks blank_nil
    (by rw [List.head?_cons, Option.any_some]; decide)
  have hstep : pathStep ('|' :: (chain ++ d.right)) = none := by
    rw [pathStep_cons (by decide) (by decide)]
    rfl
  have hpath := hblanks.path hp hstep
  rw [← List.cons_append, ← List.append_assoc] at hpath
  exact reading_of_whole (whole_map.mpr ⟨(p, some chain.trim),
    whole_opened_body (head_of_isPath hp _) (by simp [ne_nil_of_isPath hp]) hpath, rfl⟩)

/-- The opening tag of a legacy loop. -/
theorem reading_legacyOpening (hd : d.Apart) {p : Text} (hp : IsPath p) :
    reading d d.legacyOpening p = some ⟨.legacy, p⟩ := by
  have hreading := (readings_path hd blank_nil hp blank_nil).2
  rwa [List.nil_append, List.append_nil] at hreading

/-- The closing tag of a legacy loop, with blanks in it. -/
theorem reading_legacyClosing_blanks (hd : d.Apart) {g gap p g' : Text}
    (hg : Blank g) (hgap : Blank gap) (hp : IsPath p) (hg' : Blank g') :
    reading d d.legacyClosing (g ++ '/' :: (gap ++ (p ++ g'))) = some p := by
  have hpath := (whole_path_closed hd hp hg').blanks hgap (head_of_isPath hp _)
  have hslash : Whole (literal ['/'] (blanks (path d.closed)))
      ('/' :: (gap ++ (p ++ g')) ++ d.right)
      (p, ()) := by
    refine whole_literal.mpr ⟨gap ++ (p ++ g') ++ d.right, rfl, ?_⟩
    rwa [List.append_assoc, List.append_assoc]
  exact reading_of_whole (whole_map.mpr ⟨(p, ()),
    whole_opened_blanks hg (by rw [List.head?_cons, Option.any_some]; decide) (by simp) hslash,
    rfl⟩)

/-- The closing tag of a legacy loop. -/
theorem reading_legacyClosing (hd : d.Apart) {p : Text} (hp : IsPath p) :
    reading d d.legacyClosing ('/' :: p) = some p := by
  have hreading := reading_legacyClosing_blanks hd blank_nil
    blank_nil hp blank_nil
  rwa [List.nil_append, List.nil_append, List.append_nil] at hreading

/-- A name: it starts like one, and goes on with word characters. -/
def IsName (s : Text) : Prop :=
  ∃ c t, s = c :: t ∧ isNameStart c = true ∧ ∀ x ∈ t, isWordChar x = true

/-- The opening tag of a bound loop, with any blanks between its words. -/
theorem reading_loopOpening_blanks (hd : d.Apart) {g name gap gap' p g' : Text} (hg : Blank g)
    (hname : IsName name) (hgap : Blank gap) (hne : gap ≠ []) (hgap' : Blank gap')
    (hne' : gap' ≠ []) (hp : IsPath p) (hg' : Blank g') :
    reading d d.loopOpening (g ++ (name ++ (gap ++ ("in".toList ++ (gap' ++ (p ++ g')))))) =
      some ⟨.bound (String.ofList name), p⟩ := by
  obtain ⟨c, t, rfl, hc, ht⟩ := hname
  have hpath := (whole_path_closed hd hp hg').someBlanks hgap' hne' (head_of_isPath hp _)
  have hin : Whole (literal "in".toList (someBlanks (path d.closed)))
      ("in".toList ++ (gap' ++ (p ++ (g' ++ d.right)))) (p, ()) :=
    whole_literal.mpr ⟨_, rfl, hpath⟩
  have hi : isBlank 'i' = false := by decide
  have hbound := hin.someBlanks hgap hne (by simpa using hi)
  have hlead := hbound.leading (p := isNameStart) (q := isWordChar) hc ht
      (not_word_of_blank hgap hne)
  have hbody : (c :: t ++ (gap ++ ("in".toList ++ (gap' ++ (p ++ g'))))).head?.any isBlank =
      false := by
    simpa using isBlank_eq_false_of_isNameChar (isNameChar_of_isNameStart hc)
  refine reading_of_whole
    (whole_map.mpr ⟨(c :: t, p, ()), whole_opened_blanks hg hbody (by simp) ?_, rfl⟩)
  simpa only [List.append_assoc] using hlead

/-- The opening tag of a bound loop. -/
theorem reading_loopOpening (hd : d.Apart) {name p : Text} (hname : IsName name) (hp : IsPath p) :
    reading d d.loopOpening (name ++ (" in ".toList ++ p)) =
      some ⟨.bound (String.ofList name), p⟩ := by
  have hreading := reading_loopOpening_blanks hd blank_nil hname blank_space
    (by simp) blank_space (by simp) hp blank_nil
  rwa [List.append_nil] at hreading

/-- The closing tag of a bound loop, with any blanks between its words. -/
theorem reading_loopClosing_blanks (hd : d.Apart) {g gap p g' : Text} (hg : Blank g)
    (hgap : Blank gap) (hne : gap ≠ []) (hp : IsPath p) (hg' : Blank g') :
    reading d d.loopClosing (g ++ ("end".toList ++ (gap ++ (p ++ g')))) = some p := by
  have hpath := (whole_path_closed hd hp hg').someBlanks hgap hne (head_of_isPath hp _)
  have hend : Whole (literal "end".toList (someBlanks (path d.closed)))
      ("end".toList ++ (gap ++ (p ++ g')) ++ d.right) (p, ()) := by
    refine whole_literal.mpr ⟨gap ++ (p ++ g') ++ d.right, by rw [List.append_assoc], ?_⟩
    rwa [List.append_assoc, List.append_assoc]
  have he : isBlank 'e' = false := by decide
  exact reading_of_whole (whole_map.mpr
    ⟨(p, ()), whole_opened_blanks hg (by simpa using he) (by simp) hend, rfl⟩)

/-- The closing tag of a bound loop. -/
theorem reading_loopClosing (hd : d.Apart) {p : Text} (hp : IsPath p) :
    reading d d.loopClosing ("end ".toList ++ p) = some p := by
  have hreading := reading_loopClosing_blanks hd blank_nil blank_space (by simp) hp
    blank_nil
  rwa [List.append_nil] at hreading

/-! ## The tags of conditionals and regions -/

/-- A keyword with a line behind it. -/
theorem whole_keyword_line (hd : d.Apart) (word : Text) {c : Text} (hc : d.Line c) :
    Whole (d.keyword word) (word ++ (' ' :: c) ++ d.right) c.trim := by
  have hspace : isBlank ' ' = true := by decide
  have hline : d.Line (' ' :: c) := by
    have hfree : d.Free [' '] := hd.free_of_tagChar (by simp; decide)
    exact ⟨free_append (s := [' ']).mpr ⟨hfree, hc.1⟩, by simpa using hc.2⟩
  have htrim : Text.trim (' ' :: c) = c.trim := by
    rw [Text.trim, Text.trimStart, List.dropWhile_cons_of_pos hspace]
    rfl
  have hrest := whole_line hd hline
  rw [htrim] at hrest
  have hend : Whole (wordEnd (blanks (fewest isInline d.closed))) (' ' :: c ++ d.right)
      (c.trim, ()) := by
    have hword : isWordChar ' ' = false := by decide
    rw [Whole, wordEnd, if_neg (by simp [hword])]
    exact hrest
  rw [List.append_assoc]
  exact whole_map.mpr ⟨(c.trim, ()), whole_literal.mpr ⟨_, rfl, hend⟩, rfl⟩

/-- A keyword alone. -/
theorem whole_keyword_alone (hd : d.Apart) (word : Text) :
    Whole (d.keyword word) (word ++ d.right) [] := by
  have hline : d.Line [] := ⟨free_nil, by simp⟩
  have hrest := whole_line hd hline
  have hend : Whole (wordEnd (blanks (fewest isInline d.closed))) d.right ([], ()) := by
    obtain ⟨r, rs, hr, -⟩ := hd.right_eq
    have hword : isWordChar r = false := hd.within_word r (by simp [hr])
    rw [Whole, wordEnd, if_neg (by simp [hr, hword])]
    exact hrest
  exact whole_map.mpr ⟨([], ()), whole_literal.mpr ⟨_, rfl, hend⟩, rfl⟩

/-- A keyword is not read where the body goes another way. -/
theorem keyword_eq_none (hd : d.Apart) {β : Type} {word : Text} {f : Text → β}
    (hword : word.all isTagChar = true) (h : ¬ word <+: body) :
    ((d.keyword word).map f) (body ++ d.right) = none := by
  have hprefix : ¬ word <+: body ++ d.right := by
    intro hp
    rw [← List.append_nil d.right] at hp
    exact h (prefix_body (hd.not_mem_right hword) hp)
  rw [Recognizer.map, keyword, Recognizer.map, literal_eq_none hprefix]

theorem reading_if (hd : d.Apart) {c : Text} (hc : d.Line c) :
    reading d d.conditionalTag ("if".toList ++ ' ' :: c) = some (.opening c.trim) := by
  have hif : Whole ((d.keyword "if".toList).map Conditional.opening)
      ("if".toList ++ ' ' :: c ++ d.right) (.opening c.trim) :=
    whole_map.mpr ⟨c.trim, whole_keyword_line hd _ hc, rfl⟩
  refine reading_of_whole (whole_opened_body (by rfl) (by simp) ?_)
  refine ((hif.orElse_right ?_).orElse_right ?_).orElse_right ?_
  · exact keyword_eq_none hd (by decide) (by simp)
  · exact keyword_eq_none hd (by decide) (by simp)
  · exact keyword_eq_none hd (by decide) (by simp)

theorem reading_elseif (hd : d.Apart) {c : Text} (hc : d.Line c) :
    reading d d.conditionalTag ("elseif".toList ++ ' ' :: c) = some (.branch (some c.trim)) := by
  have helseif : Whole ((d.keyword "elseif".toList).map fun c => Conditional.branch (some c))
      ("elseif".toList ++ ' ' :: c ++ d.right) (.branch (some c.trim)) :=
    whole_map.mpr ⟨c.trim, whole_keyword_line hd _ hc, rfl⟩
  exact reading_of_whole (whole_opened_body (by rfl) (by simp) helseif.orElse_left)

theorem reading_else (hd : d.Apart) :
    reading d d.conditionalTag "else".toList = some (.branch none) := by
  have helse : Whole ((d.keyword "else".toList).map fun _ => Conditional.branch none)
      ("else".toList ++ d.right) (.branch none) :=
    whole_map.mpr ⟨[], whole_keyword_alone hd _, rfl⟩
  refine reading_of_whole (whole_opened_body (by rfl) (by simp) ?_)
  exact helse.orElse_left.orElse_right (keyword_eq_none hd (by decide) (by decide))

theorem reading_endif (hd : d.Apart) :
    reading d d.conditionalTag "endif".toList = some .closing := by
  have hendif : Whole ((d.keyword "endif".toList).map fun _ => Conditional.closing)
      ("endif".toList ++ d.right) .closing :=
    whole_map.mpr ⟨[], whole_keyword_alone hd _, rfl⟩
  refine reading_of_whole (whole_opened_body (by rfl) (by simp) ?_)
  refine (hendif.orElse_left.orElse_right ?_).orElse_right ?_
  · exact keyword_eq_none hd (by decide) (by decide)
  · exact keyword_eq_none hd (by decide) (by decide)

theorem reading_regionOpening (hd : d.Apart) :
    reading d d.regionOpening "noparse".toList = some () :=
  reading_of_whole (whole_opened_body (by rfl) (by simp)
    (whole_literal.mpr ⟨_, rfl, whole_closed_right hd⟩))

theorem reading_regionClosing (hd : d.Apart) :
    reading d d.regionClosing "/noparse".toList = some () := by
  have hword : Whole (literal "noparse".toList d.closed) ("noparse".toList ++ d.right) () :=
    whole_literal.mpr ⟨_, rfl, whole_closed_right hd⟩
  have hblanks := hword.blanks blank_nil (by rfl)
  exact reading_of_whole (whole_opened_body (by rfl) (by simp)
    (whole_literal.mpr ⟨_, rfl, hblanks⟩))

end Delimiters

end Stencil
