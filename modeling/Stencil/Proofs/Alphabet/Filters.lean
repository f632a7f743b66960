import Stencil.Filter.Builtin
import Stencil.Proofs.Alphabet.Values
import Stencil.Template.Variables

/-!
# How filters spell

Most built-in filters keep every placeholder whole: they rewrite single characters that placeholders
do not have, cut at blanks, or write something of their own. Five take texts apart, and may only be
given texts without placeholders.
-/

namespace Stencil

open ProtectedRegions

/-! ## Pieces of texts -/

namespace Text

/-- A text in front of which no separator stands goes on with the first piece behind it. -/
theorem splitOn_append {sep : Char} {w : Text} (h : sep ∉ w) (s : Text) :
    ∃ piece rest, splitOn sep s = piece :: rest ∧ splitOn sep (w ++ s) = (w ++ piece) :: rest := by
  induction w with
  | nil =>
    obtain ⟨piece, rest, hs⟩ := List.exists_cons_of_ne_nil (splitOn_ne_nil sep s)
    exact ⟨piece, rest, hs, hs⟩
  | cons c w ih =>
    simp only [List.mem_cons, not_or] at h
    obtain ⟨piece, rest, hs, hw⟩ := ih h.2
    refine ⟨piece, rest, hs, ?_⟩
    rw [List.cons_append, splitOn, hw]
    simp [Ne.symm h.1]

theorem mem_replaceFrom {old new s : Text} {skip : Nat} {c : Char}
    (h : c ∈ replaceFrom old new skip s) : c ∈ s ∨ c ∈ new := by
  fun_induction replaceFrom old new skip s with
  | case1 => exact absurd h (by simp)
  | case2 skip x s ih =>
    rcases ih h with h | h
    · exact .inl (by simp [h])
    · exact .inr h
  | case3 x s _ ih =>
    rcases List.mem_append.mp h with h | h
    · exact .inr h
    · rcases ih h with h | h
      · exact .inl (by simp [h])
      · exact .inr h
  | case4 x s _ ih =>
    rcases List.mem_cons.mp h with rfl | h
    · exact .inl (by simp)
    · rcases ih h with h | h
      · exact .inl (by simp [h])
      · exact .inr h

end Text

namespace Alphabet

variable {A : Alphabet} {s t : Text} {v : Value} {c : Char}

theorem foreign_of_not_mem (h : c ∉ placeholderChars) : A.Foreign c := by
  intro n _
  rw [← Bool.not_eq_true, isPlaceholderChar_iff]
  exact h

theorem foreign_of_isBlank (h : isBlank c = true) : A.Foreign c := by
  have hblank : ∀ x ∈ placeholderChars, isBlank x = false := by decide
  refine foreign_of_not_mem fun hc => ?_
  rw [hblank c hc] at h
  exact absurd h (by simp)

/-! ## Rewriting texts -/

theorem Spelled.trimStart (h : A.Spelled s) : A.Spelled s.trimStart := by
  rw [← List.takeWhile_append_dropWhile (p := isBlank) (l := s)] at h
  exact (h.drop_foreign fun c hc => foreign_of_isBlank (List.mem_takeWhile_imp hc)).2

theorem Spelled.trimEnd (h : A.Spelled s) : A.Spelled s.trimEnd := by
  have hsplit : s = s.trimEnd ++ (s.reverse.takeWhile isBlank).reverse := by
    rw [Text.trimEnd, ← List.reverse_append, List.takeWhile_append_dropWhile, List.reverse_reverse]
  rw [hsplit] at h
  refine (h.before_foreign fun c hc => ?_).1
  exact foreign_of_isBlank (List.mem_takeWhile_imp (List.mem_reverse.mp hc))

theorem Spelled.trim (h : A.Spelled s) : A.Spelled s.trim := h.trimStart.trimEnd

/-- The pieces between separators that placeholders do not have. -/
theorem Spelled.splitOn {sep : Char} (h : A.Spelled s) (hsep : A.Foreign sep) :
    ∀ piece ∈ s.splitOn sep, A.Spelled piece := by
  induction h with
  | nil =>
    intro piece hp
    obtain rfl : piece = [] := by simpa [Text.splitOn] using hp
    exact .nil
  | @glyph c s hc _ ih =>
    obtain ⟨piece, rest, hs⟩ := List.exists_cons_of_ne_nil (Text.splitOn_ne_nil sep s)
    rw [Text.splitOn, hs]
    rw [hs] at ih
    obtain ⟨hpiece, hrest⟩ := List.forall_mem_cons.mp ih
    dsimp only
    split
    · exact List.forall_mem_cons.mpr ⟨.nil, ih⟩
    · exact List.forall_mem_cons.mpr ⟨.glyph hc hpiece, hrest⟩
  | @shelved n s hn _ ih =>
    have hnot : sep ∉ placeholder n := fun h =>
      absurd (hsep n hn) (by simp [isPlaceholderChar_of_mem h])
    obtain ⟨piece, rest, hs, hw⟩ := Text.splitOn_append hnot s
    rw [hw]
    rw [hs] at ih
    obtain ⟨hpiece, hrest⟩ := List.forall_mem_cons.mp ih
    exact List.forall_mem_cons.mpr ⟨.shelved hn hpiece, hrest⟩

theorem spelled_intercalate {sep : Text} (hsep : A.Spelled sep) {pieces : List Text}
    (h : ∀ piece ∈ pieces, A.Spelled piece) : A.Spelled (sep.intercalate pieces) := by
  induction pieces with
  | nil => exact .nil
  | cons piece pieces ih =>
    obtain ⟨hpiece, hrest⟩ := List.forall_mem_cons.mp h
    cases pieces with
    | nil => simpa [List.intercalate] using hpiece
    | cons next rest =>
      have := ih hrest
      simp only [List.intercalate, List.intersperse_cons_cons, List.flatten_cons] at this ⊢
      exact hpiece.append (hsep.append this)

theorem spelled_upperChar (hc : A.glyph c) : A.Spelled (Text.upperChar c) := by
  rcases Text.upperChar_cases c with h | h
  · rw [h]
    exact .glyph hc .nil
  · exact spelled_of_neutral h

theorem spelled_lowerChar (hc : A.glyph c) : A.Spelled (Text.lowerChar c) := by
  rcases Text.lowerChar_cases c with h | h
  · rw [h]
    exact .glyph hc .nil
  · exact spelled_of_neutral h

theorem bare_upper (h : A.Bare s) : A.Bare s.upper := by
  intro c hc
  obtain ⟨x, hx, hc⟩ := List.mem_flatMap.mp hc
  rcases Text.upperChar_cases x with hself | hneutral
  · rw [hself, List.mem_singleton] at hc
    exact hc ▸ h x hx
  · exact A.neutral c (hneutral c hc)

/-- Placeholders are in lower case. -/
theorem Spelled.lowerAfter (h : A.Spelled s) (before : Text) :
    A.Spelled (Text.lowerAfter before s) := by
  induction h generalizing before with
  | nil => exact .nil
  | @glyph c s hc _ ih =>
    rw [Text.lowerAfter]
    split
    · exact .glyph (A.neutral _ (by decide)) (ih _)
    · exact (spelled_lowerChar hc).append (ih _)
  | @shelved n s hn _ ih =>
    have hfix : ∀ c ∈ placeholderChars, c ≠ Text.capitalSigma ∧ Text.lowerChar c = [c] := by
      decide +kernel
    have hpass : ∀ w before : Text, w ⊆ placeholderChars →
        Text.lowerAfter before (w ++ s) = w ++ Text.lowerAfter (w.reverse ++ before) s := by
      intro w
      induction w with
      | nil => exact fun _ _ => rfl
      | cons c w ihw =>
        intro before hw
        obtain ⟨hc, hw⟩ := List.cons_subset.mp hw
        obtain ⟨hsigma, hlower⟩ := hfix c hc
        rw [List.cons_append, Text.lowerAfter, hlower, ihw _ hw]
        simp [hsigma]
    rw [hpass _ _ (placeholder_subset n)]
    exact .shelved hn (ih _)

/-- Placeholders are no words, and start with no letter. -/
theorem Spelled.capitalizeFrom (h : A.Spelled s) (atStart : Bool) :
    A.Spelled (Filter.capitalizeFrom atStart s) := by
  induction h generalizing atStart with
  | nil => exact .nil
  | @glyph c s hc _ ih =>
    rw [Filter.capitalizeFrom]
    refine Spelled.append ?_ (ih _)
    split
    · exact spelled_upperChar hc
    · exact .glyph hc .nil
  | @shelved n s hn _ ih =>
    have hblank : ∀ c ∈ placeholderChars, isBlank c = false := by decide
    have hopener : Text.upperChar opener = [opener] := by decide +kernel
    have hpass : ∀ w : Text, w ⊆ placeholderChars →
        Filter.capitalizeFrom false (w ++ s) = w ++ Filter.capitalizeFrom false s := by
      intro w
      induction w with
      | nil => exact fun _ => rfl
      | cons c w ihw =>
        intro hw
        obtain ⟨hc, hw⟩ := List.cons_subset.mp hw
        rw [List.cons_append, Filter.capitalizeFrom, hblank c hc, ihw hw]
        rfl
    -- at the start of a word the opener would be capitalized, but it has no capital
    rw [placeholder_eq, List.cons_append, Filter.capitalizeFrom, hblank opener (by decide),
      hpass _ (placeholderRest_subset n), hopener, ite_self,
      List.singleton_append, ← List.cons_append, ← placeholder_eq]
    exact .shelved hn (ih false)

theorem breakLines_append {w : Text} (h : w ⊆ placeholderChars) (s : Text) :
    Filter.breakLines (w ++ s) = w ++ Filter.breakLines s := by
  have hbreak : ∀ c ∈ placeholderChars, c ≠ '\r' ∧ c ≠ '\n' := by decide
  induction w with
  | nil => rfl
  | cons c w ih =>
    obtain ⟨hc, hw⟩ := List.cons_subset.mp h
    obtain ⟨hr, hn⟩ := hbreak c hc
    rw [List.cons_append, Filter.breakLines.eq_3 c _ fun s hc _ => hr hc, if_neg (by simp [hr, hn]),
      ih hw, List.cons_append]

/-- Line breaks are no part of placeholders; what marks them must be allowed. -/
theorem Spelled.breakLines (h : A.Spelled s) (hmarkup : A.glyph '<' ∧ A.glyph '>') :
    A.Spelled (Filter.breakLines s) := by
  have hbr : A.Bare Filter.breakElement := by
    have hinner : Neutral "br /".toList := by decide
    exact bare_append.mpr
      ⟨bare_append.mpr ⟨List.forall_mem_singleton.mpr hmarkup.1, bare_of_neutral hinner⟩,
      List.forall_mem_singleton.mpr hmarkup.2⟩
  have hreturn : A.Foreign '\r' := foreign_of_not_mem (by decide)
  have hfeed : A.Foreign '\n' := foreign_of_not_mem (by decide)
  -- a placeholder is longer than one character, so the induction is on the length
  generalize hlen : s.length = k
  induction k using Nat.strongRecOn generalizing s with
  | ind k ih =>
    fun_cases Filter.breakLines s with
    | case1 => exact .nil
    | case2 s =>
      obtain ⟨-, h⟩ := h.glyph_of_foreign hreturn
      obtain ⟨-, h⟩ := h.glyph_of_foreign hfeed
      have hrest := ih s.length (by simp at hlen; omega) h rfl
      exact hbr.spelled.append
        (.glyph (A.neutral _ (by decide)) (.glyph (A.neutral _ (by decide)) hrest))
    | case3 c s hcr hc =>
      have hforeign : A.Foreign c := by
        rcases (Bool.or_eq_true _ _).mp hc with hc | hc
        · rwa [of_decide_eq_true hc]
        · rwa [of_decide_eq_true hc]
      obtain ⟨hglyph, h⟩ := h.glyph_of_foreign hforeign
      have hrest := ih s.length (by simp at hlen; omega) h rfl
      exact hbr.spelled.append (.glyph hglyph hrest)
    | case4 c s hcr hc =>
      rcases h.front with ⟨hglyph, h⟩ | ⟨n, t, hn, rfl, rfl, ht⟩
      · exact .glyph hglyph (ih s.length (by simp at hlen; omega) h rfl)
      · rw [breakLines_append (placeholderRest_subset n), ← List.cons_append, ← placeholder_eq]
        refine .shelved hn (ih t.length ?_ ht rfl)
        simp at hlen
        omega

end Alphabet

/-! ## The built-in filters -/

namespace Filter

/-- The filters that take texts apart character by character, or change every letter. -/
def fragile : List String := ["upper", "reverse", "limit_chars", "highlight", "date"]

/-- The filters that write markup. -/
def marking : List String := ["nl2br", "highlight"]

variable {v w : Value} {params : List String} {raw filter what : String}

theorem onText_eq_ok {f : Text → Text} (h : onText f v params = .ok w) :
    w = .str (String.ofList (f v.text)) := (Except.ok.inj h).symm

theorem required_eq_ok (h : required params filter what = .ok raw) : raw ∈ params := by
  unfold required at h
  split at h
  · rename_i p hp
    split at h
    · exact absurd h (by simp)
    · obtain rfl := Except.ok.inj h
      exact List.mem_of_mem_head? hp
  · exact absurd h (by simp)

theorem limitChars_eq_ok (h : limitChars v params = .ok w) :
    ∃ n, w = .str (String.ofList (v.text.take n)) := by
  unfold limitChars at h
  cases hn : limit params "limit_chars" with
  | error e => rw [hn] at h; exact absurd h (by simp [bind, Except.bind])
  | ok n => rw [hn] at h; exact ⟨n, (Except.ok.inj h).symm⟩

theorem limitWords_eq_ok (h : limitWords v params = .ok w) :
    ∃ n, w = .str (String.ofList ([' '].intercalate ((v.text.splitOn ' ').take n))) := by
  unfold limitWords at h
  cases hn : limit params "limit_words" with
  | error e => rw [hn] at h; exact absurd h (by simp [bind, Except.bind])
  | ok n => rw [hn] at h; exact ⟨n, (Except.ok.inj h).symm⟩

theorem date_eq_ok (h : date v params = .ok w) :
    ∃ format ∈ params, ∃ t, w = .str (String.ofList (Calendar.write t format.toList)) := by
  unfold date at h
  cases hformat : required params "date" "format" with
  | error e => rw [hformat] at h; exact absurd h (by simp [bind, Except.bind])
  | ok format =>
    rw [hformat] at h
    cases ht : dateOf v with
    | error e => rw [ht] at h; exact absurd h (by simp [bind, Except.bind])
    | ok t =>
      rw [ht] at h
      exact ⟨format, required_eq_ok hformat, t, (Except.ok.inj h).symm⟩

theorem dateModify_eq_ok (h : dateModify v params = .ok w) :
    ∃ t, w = .str (String.ofList (Calendar.plainText t)) := by
  unfold dateModify at h
  cases hmodifier : required params "date_modify" "modifier" with
  | error e => rw [hmodifier] at h; exact absurd h (by simp [bind, Except.bind])
  | ok modifier =>
    rw [hmodifier] at h
    cases ht : dateOf v with
    | error e => rw [ht] at h; exact absurd h (by simp [bind, Except.bind])
    | ok t =>
      rw [ht] at h
      cases hu : Calendar.modify t modifier with
      | error e => simp [bind, Except.bind, hu] at h
      | ok u =>
        simp only [bind, Except.bind, hu, pure, Except.pure, Except.ok.injEq] at h
        exact ⟨u, h.symm⟩

/-- Filters on numbers give numbers. -/
theorem absolute_eq_ok (h : absolute v params = .ok w) : (∃ n, w = .int n) ∨ ∃ f, w = .float f := by
  unfold absolute at h
  split at h
  · split at h
    · exact .inr ⟨_, (Except.ok.inj h).symm⟩
    · exact .inl ⟨_, (Except.ok.inj h).symm⟩
  · split at h
    · exact .inr ⟨_, (Except.ok.inj h).symm⟩
    · exact absurd h (by simp)

theorem round_eq_ok (h : round v params = .ok w) : ∃ f, w = .float f := by
  unfold round at h
  split at h
  · exact absurd h (by simp)
  · dsimp only at h
    split at h
    · exact ⟨_, (Except.ok.inj h).symm⟩
    · split at h
      · exact absurd h (by simp)
      · exact ⟨_, (Except.ok.inj h).symm⟩

end Filter

namespace Alphabet

variable {A : Alphabet} {v w : Value} {params : List String} {name : String} {f : Filter}

/-- What a filter may be given so that its result is spelled. -/
structure Bears (A : Alphabet) (name : String) (v : Value) (params : List String) : Prop where
  /-- Markup is only written where it is allowed. -/
  markup : name ∈ Filter.marking → A.glyph '<' ∧ A.glyph '>'
  /-- Only texts without placeholders are taken apart. -/
  whole : name ∈ Filter.fragile → A.Bare v.text ∧ ∀ p ∈ params, A.Bare p.toList

/-- A filter keeps values spelled as long as it bears what it is given. -/
def Keeps (A : Alphabet) (name : String) (f : Filter) : Prop :=
  ∀ {v : Value} {params : List String} {w : Value}, A.SpellsValue v →
    (∀ p ∈ params, A.Spelled p.toList) → A.Bears name v params → f v params = .ok w →
    A.SpellsValue w

/-- A filter on texts keeps values spelled if it keeps texts spelled. -/
theorem keeps_onText {f : Text → Text} (h : ∀ {s}, A.Spelled s → A.Spelled (f s)) :
    A.Keeps name (Filter.onText f) := by
  intro v params w hv _ _ hw
  rw [Filter.onText_eq_ok hw]
  exact spellsValue_str (h hv.text)

theorem keeps_upper : A.Keeps "upper" (Filter.onText Text.upper) := by
  intro v params w _ _ hbears hw
  rw [Filter.onText_eq_ok hw]
  exact spellsValue_str (bare_upper (hbears.whole (by decide)).1).spelled

theorem keeps_length : A.Keeps name Filter.length := by
  intro v params w _ _ _ hw
  obtain rfl := Except.ok.inj hw
  exact .int _

theorem keeps_reverse : A.Keeps "reverse" Filter.reverse := by
  intro v params w hv _ hbears hw
  unfold Filter.reverse at hw
  split at hw
  · obtain rfl := Except.ok.inj hw
    cases hv with
    | list hitems => exact .list fun u hu => hitems u (List.mem_reverse.mp hu)
  · obtain rfl := Except.ok.inj hw
    have hbare := (hbears.whole (by decide)).1
    exact spellsValue_str (Bare.of_subset hbare fun c hc => List.mem_reverse.mp hc).spelled

theorem keeps_breakLines : A.Keeps "nl2br" (Filter.onText Filter.breakLines) := by
  intro v params w hv _ hbears hw
  rw [Filter.onText_eq_ok hw]
  exact spellsValue_str (hv.text.breakLines (hbears.markup (by decide)))

theorem keeps_limitChars : A.Keeps "limit_chars" Filter.limitChars := by
  intro v params w _ _ hbears hw
  obtain ⟨n, rfl⟩ := Filter.limitChars_eq_ok hw
  have hbare := (hbears.whole (by decide)).1
  exact spellsValue_str (Bare.of_subset hbare fun c hc => List.mem_of_mem_take hc).spelled

/-- Words are cut at spaces, which no placeholder has. -/
theorem keeps_limitWords : A.Keeps name Filter.limitWords := by
  intro v params w hv _ _ hw
  obtain ⟨n, rfl⟩ := Filter.limitWords_eq_ok hw
  have hwords := hv.text.splitOn (foreign_of_isBlank (c := ' ') (by decide))
  exact spellsValue_str (spelled_intercalate (spelled_of_neutral (by decide)) fun piece hp =>
    hwords piece (List.mem_of_mem_take hp))

theorem keeps_highlight : A.Keeps "highlight" Filter.highlight := by
  intro v params w hv _ hbears hw
  obtain ⟨hleft, hright⟩ := hbears.markup (by decide)
  obtain ⟨htext, hterms⟩ := hbears.whole (by decide)
  have hterm : A.Bare (params.head?.getD "").toList := by
    cases params with
    | nil => exact fun c hc => absurd hc (by simp)
    | cons p params => exact hterms p (by simp)
  have hmark : ∀ tag ∈ ["<strong>", "</strong>"], A.Bare tag.toList := by
    have hplain : ∀ tag ∈ ["<strong>", "</strong>"], ∀ c ∈ tag.toList,
        c = '<' ∨ c = '>' ∨ isNeutral c = true := by decide
    intro tag htag c hc
    rcases hplain tag htag c hc with rfl | rfl | hn
    · exact hleft
    · exact hright
    · exact A.neutral c hn
  unfold Filter.highlight at hw
  dsimp only at hw
  split at hw
  · obtain rfl := Except.ok.inj hw
    exact spellsValue_str hv.text
  · obtain rfl := Except.ok.inj hw
    refine spellsValue_str (Bare.spelled fun c hc => ?_)
    rcases Text.mem_replaceFrom hc with hc | hc
    · exact htext c hc
    · rcases List.mem_append.mp hc with hc | hc
      · rcases List.mem_append.mp hc with hc | hc
        · exact hmark _ (by simp) c hc
        · exact hterm c hc
      · exact hmark _ (by simp) c hc

theorem keeps_hash : A.Keeps name Filter.hash := by
  intro v params w _ _ _ hw
  obtain rfl := Except.ok.inj hw
  exact .str (spelled_of_neutral (neutral_hexDigest _))

theorem keeps_absolute : A.Keeps name Filter.absolute := by
  intro v params w _ _ _ hw
  rcases Filter.absolute_eq_ok hw with ⟨n, rfl⟩ | ⟨f, rfl⟩
  · exact .int n
  · exact .float f

theorem keeps_round : A.Keeps name Filter.round := by
  intro v params w _ _ _ hw
  obtain ⟨f, rfl⟩ := Filter.round_eq_ok hw
  exact .float f

theorem keeps_date : A.Keeps "date" Filter.date := by
  intro v params w _ _ hbears hw
  obtain ⟨format, hformat, t, rfl⟩ := Filter.date_eq_ok hw
  refine spellsValue_str (Bare.spelled fun c hc => ?_)
  rcases Calendar.mem_write hc with hc | hc
  · exact (hbears.whole (by decide)).2 format hformat c hc
  · exact A.neutral c hc

theorem keeps_dateModify : A.Keeps name Filter.dateModify := by
  intro v params w _ _ _ hw
  obtain ⟨t, rfl⟩ := Filter.dateModify_eq_ok hw
  exact spellsValue_str (spelled_of_neutral (Calendar.neutral_plainText t))

theorem keeps_fallback : A.Keeps name Filter.fallback := by
  intro v params w hv hparams _ hw
  unfold Filter.fallback at hw
  split at hw
  · obtain rfl := Except.ok.inj hw
    cases params with
    | nil => exact .str .nil
    | cons p params => exact .str (hparams p (by simp))
  · obtain rfl := Except.ok.inj hw
    exact hv

/-- Every built-in filter keeps values spelled. -/
theorem keeps_builtin : ∀ x ∈ Filter.Registry.builtin, A.Keeps x.1 x.2 := by
  unfold Filter.Registry.builtin
  simp only [List.forall_mem_cons, List.not_mem_nil, false_imp_iff, implies_true, and_true]
  refine ⟨keeps_upper, ?_, ?_, ?_, keeps_length, keeps_reverse, keeps_breakLines,
    ?_, keeps_limitChars,
    keeps_limitWords, keeps_highlight, keeps_hash, keeps_hash, keeps_absolute,
    keeps_absolute, keeps_round, keeps_date, keeps_dateModify, keeps_fallback⟩
  · exact keeps_onText fun h => h.lowerAfter []
  · exact keeps_onText fun h => h.capitalizeFrom true
  · exact keeps_onText fun h => h.trim
  · exact keeps_onText fun h => h.escapeHtml

end Alphabet

end Stencil
