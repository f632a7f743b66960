import Stencil.Proofs.Document.Loops

/-!
# What tags are read as

Blanks in a tag do not count, nor does what follows `else` and `endif`, so one tag can be spelled in
many ways. What a tag is read as by the grammar that it is meant for decides what every other
grammar makes of it: its words are those of what it is read as.
-/

namespace Stencil

open Recognizer Outline

namespace Delimiters

variable {d : Delimiters} {body : Text}

/-! ## Blanks around paths -/

theorem leadingWord_path_ne_nil {p : Text} (hp : IsPath p) : leadingWord p ≠ [] :=
  (words_path hp (show ([] : Text).head?.any isWordChar = false from rfl)).2.1

theorem leadingWord_blanks {g s : Text} (hg : Blank g) (hs : s.head?.any isBlank = false) :
    leadingWord (g ++ s) = leadingWord s := by
  rw [leadingWord, leadingWord, dropWhile_blank hg hs,
    show s.dropWhile isBlank = s from dropWhile_blank blank_nil hs]

/-- The first blank of a text is behind all that has none in it. -/
theorem blanks_of_eq {p g w t : Text} (hp : ∀ c ∈ p, isBlank c = false) (hg : Blank g)
    (hw : ∀ c ∈ w, isBlank c = false) (ht : ∀ c ∈ t.head?, isBlank c = true) (h : p ++ g = w ++ t) :
    g = t := by
  have hdrop : ∀ {w t : Text}, (∀ c ∈ w, isBlank c = false) → (∀ c ∈ t.head?, isBlank c = true) →
      (w ++ t).dropWhile (fun c => !isBlank c) = t := by
    intro w t hw ht
    rw [List.dropWhile_append_of_pos fun c hc => by simp [hw c hc]]
    cases t with
    | nil => rfl
    | cons c t => exact List.dropWhile_cons_of_neg (by simp [ht c (by simp)])
  rw [← hdrop hp fun c hc => hg c (List.mem_of_head? hc), h, hdrop hw ht]

/-- The value without filters that a tag is: a path with blanks around it. -/
theorem shape_value (hd : d.Apart) (hb : d.Free body) {p : Text}
    (h : reading d d.variableTag body = some ⟨p, none⟩) :
    ∃ g g', Blank g ∧ IsPath p ∧ Blank g' ∧ body = g ++ (p ++ g') := by
  obtain ⟨⟨p', chain?⟩, hw, heq⟩ := whole_map.mp (whole_of_reading (delimited_variableTag hd) hb h)
  obtain ⟨rfl, rfl⟩ : p' = p ∧ chain? = none := by simpa using heq
  obtain ⟨g, t, hg, ht, hpath⟩ := whole_opened hw
  obtain ⟨t, rfl, hp, hblanks⟩ := whole_path hpath
  obtain ⟨g', t, hg', rfl, hor⟩ := whole_blanks hblanks
  rcases whole_orElse hor with hchain | hclosed
  · obtain ⟨c, -, hc⟩ := whole_map.mp hchain
    exact absurd hc (by simp)
  · obtain ⟨u, hc, -⟩ := whole_map.mp hclosed
    obtain ⟨g'', hg'', hbody⟩ := body_eq_of_closed (g ++ (p' ++ g')) (by rw [ht]; simp) hc
    exact ⟨g, g' ++ g'', hg, hp, hg'.append hg'', by rw [hbody]; simp⟩

/-- A tag opens a legacy loop if it is a value without filters. -/
theorem reading_legacyOpening_iff (hd : d.Apart) (hb : d.Free body) {head : LoopHead} :
    reading d d.legacyOpening body = some head ↔
      head.form = .legacy ∧ reading d d.variableTag body = some ⟨head.path, none⟩ := by
  constructor
  · intro h
    obtain ⟨g, g', hg, hg', hp, rfl⟩ := shape_legacyOpening hd hb h
    exact ⟨legacy_of_reading h, (readings_path hd hg hp hg').1⟩
  · rintro ⟨hform, h⟩
    obtain ⟨form, path⟩ := head
    obtain rfl : form = .legacy := hform
    obtain ⟨g, g', hg, hp, hg', rfl⟩ := shape_value hd hb h
    exact (readings_path hd hg hp hg').2

/-- A value starts with the word that its path starts with. -/
theorem leadingWord_variableTag (hd : d.Apart) (hb : d.Free body) {v : Variable}
    (h : reading d d.variableTag body = some v) : leadingWord body = leadingWord v.path := by
  obtain ⟨g, g', rest, hg, hg', hp, rfl, hrest⟩ := shape_variableTag hd hb h
  rw [leadingWord_blanks hg (head_of_isPath hp _), (words_path hp (not_word_of_rest hg' hrest)).1]

/-! ## What a tag is read as -/

/-- What the grammars of rendering make of a tag, but for values under reserved words, and for loops
that are closed nowhere. -/
structure Profile where
  /-- As a tag of a conditional. -/
  conditional? : Option Conditional := none
  /-- As a value. -/
  value? : Option Variable := none
  /-- As the opening tag of a bound loop. -/
  opening? : Option LoopHead := none
  /-- As the opening tag of a legacy loop. -/
  legacyOpening? : Option LoopHead := none
  /-- As the closing tag of a bound loop. -/
  closing? : Option Text := none
  /-- As the closing tag of a legacy loop. -/
  legacyClosing? : Option Text := none

/-- A tag without a part in composition, with what the grammars of rendering make of it. -/
structure Reads (d : Delimiters) (legacy : List Text) (body : Text) (x : Profile) : Prop where
  /-- There is no delimiter in it. -/
  free : d.Free body
  /-- It has no part in composition. -/
  silent : d.Silent body
  /-- It is a tag of a conditional. -/
  conditional : reading d d.conditionalTag body = x.conditional?
  /-- It is a value. -/
  value : (reading d d.variableTag body).filter (fun v => v.path ∉ reservedWords) = x.value?
  /-- It opens a bound loop. -/
  opening : reading d d.loopOpening body = x.opening?
  /-- It opens a legacy loop. -/
  legacyOpening : ∀ {head}, head.path ∈ legacy →
    (reading d d.legacyOpening body = some head ↔ x.legacyOpening? = some head)
  /-- It closes a bound loop. -/
  closing : reading d d.loopClosing body = x.closing?
  /-- It closes a legacy loop. -/
  legacyClosing : reading d d.legacyClosing body = x.legacyClosing?

variable {legacy : List Text}

/-- Values under reserved words are not replaced. -/
theorem bind_text?_filter (σ : Substitution) (ctx : Context) (v? : Option Variable) :
    v?.bind (σ.text? ctx) = (v?.filter fun v => v.path ∉ reservedWords).bind (σ.text? ctx) := by
  cases v? with
  | none => rfl
  | some v =>
    by_cases hv : v.path ∈ reservedWords
    · rw [Option.filter_some_neg (by simpa using hv), Option.bind_some, Substitution.text?,
        if_pos (by simpa using hv)]
      rfl
    · rw [Option.filter_some_pos (by simpa using hv)]

/-- Tags with the same profile are alike. -/
theorem Reads.alike {σ : Substitution} {b b' : Text} {x : Profile}
    (h : σ.delimiters.Reads legacy b x) (h' : σ.delimiters.Reads legacy b' x)
    (hclosed : ∀ {path}, x.legacyClosing? = some path → path ∈ legacy) : Alike σ legacy b b' where
  free := ⟨h.free, h'.free⟩
  conditional := h.conditional.trans h'.conditional.symm
  value ctx := by
    rw [bind_text?_filter, h.value, bind_text?_filter σ ctx (reading _ _ b'), h'.value]
  opening := h.opening.trans h'.opening.symm
  legacyOpening hmem := (h.legacyOpening hmem).trans (h'.legacyOpening hmem).symm
  closing := h.closing.trans h'.closing.symm
  legacyClosing := h.legacyClosing.trans h'.legacyClosing.symm
  closed hr := hclosed (h.legacyClosing ▸ hr)

/-! ## Values -/

theorem leadingWord_reserved : ∀ w ∈ reservedWords, leadingWord w = w := by decide

/-- Behind the name of a bound loop there is a blank, and then its second word. -/
theorem behindWord_loopOpening (hd : d.Apart) (hb : d.Free body) {head : LoopHead}
    (h : reading d d.loopOpening body = some head) :
    (∃ c, isBlank c = true ∧ (afterWord body).head? = some c) ∧
      ∃ rest, behindWord body = "in".toList ++ rest := by
  obtain ⟨-, gap, rest, hgap, hne, hafter, -⟩ := words_loopOpening hd hb h
  have hi : isBlank 'i' = false := by decide
  obtain ⟨c, gap, rfl⟩ := List.exists_cons_of_ne_nil hne
  refine ⟨⟨c, hgap c (by simp), by rw [hafter]; rfl⟩, rest, ?_⟩
  rw [behindWord, hafter, dropWhile_blank hgap (by simpa using hi)]

/-- The opening tag of a bound loop is no value. -/
theorem not_value_of_loopOpening (hd : d.Apart) (hb : d.Free body) {head : LoopHead}
    (h : reading d d.loopOpening body = some head) : reading d d.variableTag body = none := by
  obtain ⟨⟨c, hblank, hhead⟩, rest, hbehind⟩ := behindWord_loopOpening hd hb h
  cases hr : reading d d.variableTag body with
  | none => rfl
  | some v =>
    rcases words_variableTag hd hb hr with ⟨-, hnil | hbar⟩ | hdot | hdash
    · rw [hbehind] at hnil
      exact absurd hnil (by simp)
    · rw [hbehind] at hbar
      exact absurd hbar (by simp)
    · obtain rfl : c = '.' := Option.some.inj (hhead.symm.trans hdot)
      exact absurd hblank (by decide)
    · obtain rfl : c = '-' := Option.some.inj (hhead.symm.trans hdash)
      exact absurd hblank (by decide)

/-- The closing tag of a bound loop is a value under a reserved word at most. -/
theorem reserved_of_loopClosing (hd : d.Apart) (hb : d.Free body) {path : Text}
    (h : reading d d.loopClosing body = some path) {v : Variable}
    (hr : reading d d.variableTag body = some v) : v.path ∈ reservedWords := by
  obtain ⟨g, gap, g', hg, hgap, hne, -, -, hbody⟩ := shape_loopClosing hd hb h
  rw [path_eq_of_gap hd hb hr hg (by decide) (by decide) hgap (.inl hne) hbody]
  decide

/-- So is the opening tag of a region. -/
theorem reserved_of_regionOpening (hd : d.Apart) (hb : d.Free body) {u : Unit}
    (h : reading d d.regionOpening body = some u) {v : Variable}
    (hr : reading d d.variableTag body = some v) : v.path ∈ reservedWords := by
  obtain ⟨g, gap, hg, hgap, hbody⟩ := shape_regionOpening hd hb h
  rw [← List.append_nil gap] at hbody
  rw [path_eq_of_gap hd hb hr hg (by decide) (by decide) hgap (.inr rfl) hbody]
  decide

/-- A tag that is a value under no reserved word, and no tag of a conditional. -/
theorem reads_value_of_unconditional (hd : d.Apart) (hb : d.Free body) {v : Variable}
    (h : reading d d.variableTag body = some v) (hpath : v.path ∉ reservedWords)
    (hconditional : reading d d.conditionalTag body = none) :
    d.Reads legacy body
      { value? := some v
        legacyOpening? := if v.chain?.isNone then some ⟨.legacy, v.path⟩ else none } := by
  have hne : leadingWord body ≠ [] := by
    obtain ⟨-, -, -, -, -, hp, -⟩ := shape_variableTag hd hb h
    rw [leadingWord_variableTag hd hb h]
    exact leadingWord_path_ne_nil hp
  -- a tag of composition is read as a value under a reserved word only
  have hcomposition : ¬ d.IsComposition body := fun hc =>
    hpath (reserved_of_composition hd hb hc h)
  refine ⟨hb, ⟨?_, ?_, ?_, ?_⟩, hconditional, ?_, ?_, fun {head} _ => ?_,
    ?_, not_legacyClosing hd hb hne⟩
  · exact Option.eq_none_iff_forall_ne_some.mpr fun name hr => hcomposition (.inl ⟨name, hr⟩)
  · exact Option.eq_none_iff_forall_ne_some.mpr fun name hr =>
      hcomposition (.inr (.inl ⟨name, hr⟩))
  · exact Option.eq_none_iff_forall_ne_some.mpr fun name hr =>
      hcomposition (.inr (.inr (.inl ⟨name, hr⟩)))
  · exact Option.eq_none_iff_forall_ne_some.mpr fun _ hr =>
      hpath (reserved_of_regionOpening hd hb hr h)
  · rw [h, Option.filter_some_pos (by simpa using hpath)]
  · refine Option.eq_none_iff_forall_ne_some.mpr fun head hr => ?_
    rw [not_value_of_loopOpening hd hb hr] at h
    exact absurd h (by simp)
  · rw [reading_legacyOpening_iff hd hb, h]
    obtain ⟨form, path⟩ := head
    obtain ⟨vpath, chain?⟩ := v
    cases chain? with
    | none => simp [eq_comm]
    | some chain => simp
  · exact Option.eq_none_iff_forall_ne_some.mpr fun _ hr =>
      hpath (reserved_of_loopClosing hd hb hr h)

/-- A tag that is a value. -/
theorem reads_value (hd : d.Apart) (hb : d.Free body) {v : Variable}
    (h : reading d d.variableTag body = some v) (hreserved : leadingWord v.path ∉ reservedWords) :
    d.Reads legacy body
      { value? := some v
        legacyOpening? := if v.chain?.isNone then some ⟨.legacy, v.path⟩ else none } :=
  reads_value_of_unconditional hd hb h
    (fun hmem => hreserved ((leadingWord_reserved _ hmem).symm ▸ hmem))
    (not_conditionalTag_of_unreserved hd hb (by rwa [leadingWord_variableTag hd hb h]))

/-! ## Tags that are no values -/

/-- A tag that is a value under a reserved word at most. -/
theorem reads_of_reserved (hd : d.Apart) (hlegacy : ∀ p ∈ legacy, Unreserved p) (hb : d.Free body)
    (hsilent : d.Silent body)
    (hvalue : ∀ v, reading d d.variableTag body = some v → v.path ∈ reservedWords) :
    d.Reads legacy body
      { conditional? := reading d d.conditionalTag body
        opening? := reading d d.loopOpening body
        closing? := reading d d.loopClosing body
        legacyClosing? := reading d d.legacyClosing body } := by
  refine ⟨hb, hsilent, rfl, ?_, rfl, fun {head} hmem => ?_, rfl, rfl⟩
  · cases hr : reading d d.variableTag body with
    | none => rfl
    | some v => exact Option.filter_some_neg (by simpa using hvalue v hr)
  · -- it may open a legacy loop over a reserved word, but no such loop is closed
    refine ⟨fun hr => ?_, fun hr => absurd hr (by simp)⟩
    have hpath := hvalue _ ((reading_legacyOpening_iff hd hb).mp hr).2
    exact absurd ((leadingWord_reserved _ hpath).symm ▸ hpath) (hlegacy _ hmem).2

/-- The opening tag of a bound loop starts with its name. -/
theorem leadingWord_loopOpening (hd : d.Apart) (hb : d.Free body) {name : String} {path : Text}
    (h : reading d d.loopOpening body = some ⟨.bound name, path⟩) :
    leadingWord body = name.toList := by
  obtain ⟨g, c, w, gap, -, -, hg, hc, hword, hgap, hne, -, -, -, -, rfl, hform⟩ :=
    shape_loopOpening hd hb h
  obtain rfl : name = String.ofList (c :: w) := by simpa using hform
  exact (leadingWord_eq hg (isNameChar_of_isNameStart hc) hword (not_word_of_blank hgap hne)).trans
    String.toList_ofList.symm

/-- The opening tag of a bound loop. -/
theorem reads_loopOpening (hd : d.Apart) (hlegacy : ∀ p ∈ legacy, Unreserved p) (hb : d.Free body)
    {name : String} {path : Text} (h : reading d d.loopOpening body = some ⟨.bound name, path⟩)
    (hname : name.toList ∉ reservedWords) :
    d.Reads legacy body { opening? := some ⟨.bound name, path⟩ } := by
  have hlead := leadingWord_loopOpening hd hb h
  have hne := (words_loopOpening hd hb h).1
  obtain ⟨-, rest, hbehind⟩ := behindWord_loopOpening hd hb h
  have hsilent : d.Silent body := by
    refine silent_of_words hd hb (fun hmem => ?_) (.inr (by simp [hbehind]))
    have hsub : ∀ w ∈ ["block", "noparse"].map String.toList, w ∈ reservedWords := by decide
    exact hname (hlead ▸ hsub _ hmem)
  have hvalue : ∀ v, reading d d.variableTag body = some v → v.path ∈ reservedWords := by
    rw [not_value_of_loopOpening hd hb h]
    exact fun v hv => absurd hv (by simp)
  have hreads := reads_of_reserved hd hlegacy hb hsilent hvalue
  have hconditional := not_conditionalTag_of_unreserved hd hb (hlead ▸ hname)
  have hclosing := not_loopClosing hd hb fun hend =>
    hname (by rw [← hlead, hend]; decide)
  rwa [h, hconditional, hclosing, not_legacyClosing hd hb hne] at hreads

/-- Behind the word of the closing tag of a bound loop there are blanks, and then its path. -/
theorem afterWord_loopClosing (hd : d.Apart) (hb : d.Free body) {path : Text}
    (h : reading d d.loopClosing body = some path) :
    ∃ gap g', Blank gap ∧ gap ≠ [] ∧ Blank g' ∧ IsPath path ∧ afterWord body =
      gap ++ (path ++ g') := by
  obtain ⟨g, gap, g', hg, hgap, hne, hg', hp, hbody⟩ := shape_loopClosing hd hb h
  refine ⟨gap, g', hgap, hne, hg', hp, ?_⟩
  rw [hbody]
  exact afterWord_fixed hg (by decide) (by decide) (not_word_of_blank hgap hne)

/-- The closing tag of a bound loop opens none: there would be a blank in its path. -/
theorem not_loopOpening_of_loopClosing (hd : d.Apart) (hb : d.Free body) {path : Text}
    (h : reading d d.loopClosing body = some path) : reading d d.loopOpening body = none := by
  refine Option.eq_none_iff_forall_ne_some.mpr fun head hr => ?_
  obtain ⟨gap, g', hgap, hne, hg', hp, hafter⟩ := afterWord_loopClosing hd hb h
  obtain ⟨-, start, rest, hstart, -, heq, gap', path', g'', hgap', hne', hp', -, rfl⟩ :=
    words_loopOpening hd hb hr
  have hi : isBlank 'i' = false := by decide
  have hpath : path ++ g' = "in".toList ++ (gap' ++ (path' ++ g'')) := by
    have := congrArg (List.dropWhile isBlank) (hafter.symm.trans heq)
    rwa [dropWhile_blank hgap (head_of_isPath hp g'),
      dropWhile_blank hstart (by simpa using hi)] at this
  have htail : g' = gap' ++ (path' ++ g'') := by
    refine blanks_of_eq (fun c hc => not_blank_of_isPath hp hc) hg' (by decide)
      (fun c hc => ?_) hpath
    obtain ⟨y, gap', rfl⟩ := List.exists_cons_of_ne_nil hne'
    exact hgap' c (by simp_all)
  obtain ⟨y, path', rfl⟩ := List.exists_cons_of_ne_nil (ne_nil_of_isPath hp')
  have hblank := hg' y (by rw [htail]; simp)
  rw [not_blank_of_isPath hp' (by simp)] at hblank
  exact absurd hblank (by simp)

/-- The closing tag of a bound loop. -/
theorem reads_loopClosing (hd : d.Apart) (hlegacy : ∀ p ∈ legacy, Unreserved p) (hb : d.Free body)
    {path : Text} (h : reading d d.loopClosing body = some path) :
    d.Reads legacy body { closing? := some path } := by
  have hlead := leadingWord_loopClosing hd hb h
  have hreads := reads_of_reserved hd hlegacy hb
    (silent_of_words hd hb (by rw [hlead]; decide) (.inl (by rw [hlead]; decide)))
    fun v hr => reserved_of_loopClosing hd hb h hr
  rwa [h, not_conditionalTag hd hb (by rw [hlead]; decide), not_loopOpening_of_loopClosing hd hb h,
    not_legacyClosing hd hb (by rw [hlead]; decide)] at hreads

/-- The closing tag of a legacy loop. -/
theorem reads_legacyClosing (hd : d.Apart) (hlegacy : ∀ p ∈ legacy, Unreserved p) (hb : d.Free body)
    {path : Text} (h : reading d d.legacyClosing body = some path) :
    d.Reads legacy body { legacyClosing? := some path } := by
  have hlead := leadingWord_legacyClosing hd hb h
  have hvalue : reading d d.variableTag body = none := by
    refine Option.eq_none_iff_forall_ne_some.mpr fun v hr => ?_
    obtain ⟨-, -, -, -, -, hp, -⟩ := shape_variableTag hd hb hr
    have hne := leadingWord_path_ne_nil hp
    rw [← leadingWord_variableTag hd hb hr, hlead] at hne
    exact hne rfl
  have hopening : reading d d.loopOpening body = none :=
    Option.eq_none_iff_forall_ne_some.mpr fun head hr => (words_loopOpening hd hb hr).1 hlead
  have hreads := reads_of_reserved hd hlegacy hb
    (silent_of_words hd hb (by rw [hlead]; decide) (.inl (by rw [hlead]; decide)))
    (by rw [hvalue]; exact fun v hv => absurd hv (by simp))
  rwa [h, not_conditionalTag hd hb (by rw [hlead]; decide), hopening,
    not_loopClosing hd hb (by rw [hlead]; decide)] at hreads

/-- A tag of a conditional, which is neither the opening tag of a loop nor the tag of a value. -/
theorem reads_conditionalTag (hd : d.Apart) (hlegacy : ∀ p ∈ legacy, Unreserved p)
    (hb : d.Free body) {c : Conditional} (h : reading d d.conditionalTag body = some c)
    (hopening : reading d d.loopOpening body = none)
    (hvalue : ∀ v, reading d d.variableTag body = some v → v.path ∈ reservedWords) :
    d.Reads legacy body { conditional? := some c } := by
  have hother : ∀ w ∈ ["elseif", "else", "endif", "if"].map String.toList,
      w ∉ ["block", "noparse"].map String.toList ∧
        w ∉ ["include", "extend", "extends"].map String.toList ∧ w ≠ "end".toList ∧ w ≠ [] := by
    decide
  obtain ⟨hblock, hinclude, hend, hne⟩ := hother _ (leadingWord_conditionalTag hd hb h)
  have hreads :=
    reads_of_reserved hd hlegacy hb (silent_of_words hd hb hblock (.inl hinclude)) hvalue
  rwa [h, hopening, not_loopClosing hd hb hend, not_legacyClosing hd hb hne] at hreads

end Delimiters

end Stencil
