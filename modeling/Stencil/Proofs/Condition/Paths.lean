import Stencil.Proofs.Condition.Written
import Stencil.Proofs.Outline.Basic
import Stencil.Proofs.Tag.Spelled

/-!
# Paths in conditions and in tags

Conditions are read character by character and tags by a grammar, but both find the same paths.
Where a name starts, a condition takes the longest path of the grammar and goes on behind it. So a
path that is no keyword is one token of a condition, and between delimiters it is the path of a
variable tag. What two such paths are compared by are the values that their tags are replaced by.
-/

namespace Stencil

open Recognizer (done pathStep pathStep_of_isStep)

/-! ## The longest path -/

namespace Recognizer

variable {α : Type}

/-- The grammar takes a path up to where none goes on. -/
theorem path_done {p u : Text} (hp : IsPath p) (hu : pathStep u = none) (a : α) :
    path (done a) (p ++ u) = some (p, p, a) := by
  obtain ⟨c, t, rfl, hc, ht⟩ := hp
  have hrest : pathRest (done a) (t ++ u) = some (t, t, a) := by
    clear hc
    induction ht with
    | nil =>
      rw [List.nil_append, pathRest_eq, hu]
      rfl
    | step hw _ ih =>
      rw [List.append_assoc, pathRest_eq, pathStep_of_isStep hw]
      dsimp only
      rw [ih]
  rw [path, map, List.cons_append, one, if_pos hc, hrest]

/-- The paths are what the grammar takes as a whole. -/
theorem isPath_iff_whole {p : Text} : IsPath p ↔ Whole (path (done ())) p (p, ()) := by
  constructor
  · intro hp
    have hdone := path_done hp (u := []) rfl ()
    rwa [List.append_nil] at hdone
  · intro h
    obtain ⟨t, -, hp, -⟩ := whole_path h
    exact hp

end Recognizer

namespace Condition

variable {c : Char} {s t p p' : Text}

/-- Nothing at the front of a text that goes on with a path is left by a word. -/
theorem prefix_pathRest (ht : PathTail t) (h : t <+: s) : t <+: pathRest s := by
  induction ht generalizing s with
  | nil => exact List.nil_prefix
  | @step w t hw _ ih =>
    obtain ⟨u, rfl⟩ := h
    rw [List.append_assoc, pathRest_eq, pathStep_of_isStep hw]
    exact (List.prefix_append_right_inj w).mpr (ih (List.prefix_append t u))

/-- A word is a path, it is the longest one at the front of the text, and the grammar takes it
too. -/
theorem word_spec (hc : isNameStart c = true) (s : Text) :
    ∃ u, c :: s = (c :: pathRest s) ++ u ∧ pathStep u = none ∧ IsPath (c :: pathRest s) ∧
      ∀ q, IsPath q → q <+: c :: s → q <+: c :: pathRest s := by
  obtain ⟨t, u, rfl, ht, htail, hu⟩ := pathRest_spec s
  rw [ht]
  refine ⟨u, rfl, hu, ⟨c, t, rfl, hc, htail⟩, ?_⟩
  rintro q ⟨x, v, rfl, -, hv⟩ hq
  obtain ⟨rfl, hprefix⟩ := List.cons_prefix_cons.mp hq
  have hrest := prefix_pathRest hv hprefix
  rw [ht] at hrest
  exact List.cons_prefix_cons.mpr ⟨rfl, hrest⟩

/-- A path that is no keyword is one token. -/
theorem tokenize_path (hp : IsPath p) (hword : p ∉ keywords) : tokenize p = .ok [.path p] := by
  have hlexed : Lexed p [wordToken p] [] := .word hp rfl
  unfold Lexed at hlexed
  rw [List.append_nil] at hlexed
  rw [tokenize, hlexed, wordToken_of_notMem hword]
  rfl

/-- Two paths with a sign between them are compared. -/
theorem parse_paths (hp : IsPath p) (hword : p ∉ keywords) (hp' : IsPath p')
    (hword' : p' ∉ keywords) (op : Comparison) {g g' : Text} (hg : Blank g) (hg' : Blank g') :
    Condition.parse (p ++ (g ++ (comparisonSign op ++ (g' ++ p')))) =
      .ok (.compare (.path p) op (.path p')) := by
  have hwritten := Written.compare op (.atom (.path hp hword)) hg hg' (.atom (.path hp' hword'))
  refine Writes.parse ⟨[], _, [], blank_nil, blank_nil, hwritten, ?_⟩
  rw [List.nil_append, List.append_nil]

end Condition

/-! ## The tag of a path -/

namespace Delimiters

variable {d : Delimiters} {g p g' : Text}

/-- A path between blanks and delimiters is one variable tag with this path. -/
theorem scan_path (hd : d.Apart) (hg : Blank g) (hp : IsPath p) (hg' : Blank g') :
    Tag.scan d.variableTag (d.enclose (g ++ (p ++ g'))) =
      [⟨0, d.enclose (g ++ (p ++ g')), ⟨p, none⟩, d.enclose_ne_nil _⟩] := by
  have hfree : d.Free (g ++ (p ++ g')) :=
    free_append.mpr ⟨hd.free_of_blank hg,
      free_append.mpr ⟨free_of_isPath hd hp, hd.free_of_blank hg'⟩⟩
  have hscan := Outline.scanFrom_enclose hd (delimited_variableTag hd) hfree [] 0
  rw [Outline.tagAt, (readings_path hd hg hp hg').1, List.append_nil] at hscan
  exact hscan

end Delimiters

/-- The tag of a path is replaced by the text of the value at the path. It stays as it is if the
path is a word of another construct, or the value is a list or an object, or there is none and such
tags are left. -/
theorem Substitution.apply_path {σ : Substitution} (hd : σ.delimiters.Apart) {g p g' : Text}
    (hg : Blank g) (hp : IsPath p) (hg' : Blank g') (ctx : Context) :
    σ.apply (σ.delimiters.enclose (g ++ (p ++ g'))) ctx =
      if p ∈ reservedWords then σ.delimiters.enclose (g ++ (p ++ g'))
      else
        match ctx.resolve? p with
        | some v => if v.isScalar then v.text else σ.delimiters.enclose (g ++ (p ++ g'))
        | none => if σ.clearUnresolved then [] else σ.delimiters.enclose (g ++ (p ++ g')) := by
  have hwhole : σ.apply (σ.delimiters.enclose (g ++ (p ++ g'))) ctx =
      (σ.text? ctx ⟨p, none⟩).getD (σ.delimiters.enclose (g ++ (p ++ g'))) := by
    rw [apply, Text.replaceTags, Delimiters.scan_path hd hg hp hg']
    simp [Text.splice, Text.spliceFrom, Tag.stop]
  have hreserved : reservedWords.any (· = p) = true ↔ p ∈ reservedWords := by simp
  rw [hwhole, text?]
  by_cases hp : p ∈ reservedWords
  · rw [if_pos (hreserved.mpr hp), if_pos hp, Option.getD_none]
  · rw [if_neg (mt hreserved.mp hp), if_neg hp]
    cases ctx.resolve? p with
    | none =>
      by_cases hclear : σ.clearUnresolved = true
      · simp [hclear, filtered, Value.text]
      · simp [hclear]
    | some v =>
      by_cases hv : v.isScalar = true
      · simp [hv, filtered]
      · simp [hv, filtered]

namespace Condition

/-- **Conditions and tags read the same paths.** The paths are what the grammar of tags takes as a
whole. Where a name starts, a condition takes the longest path at the front of the text, the one
that the grammar takes there, and goes on right behind it. So a path that is no keyword is a single
token, and between braces it is the path of a single variable tag. A comparison of two such paths is
one of the values that they lead to, and these are what the tags are replaced by. -/
theorem paths_agree :
    (∀ p, IsPath p ↔ Recognizer.path (done ()) p = some (p, p, ())) ∧
    (∀ c s, isNameStart c = true → ∃ u, c :: s = (c :: pathRest s) ++ u ∧
      readToken c s = .ok (some (wordToken (c :: pathRest s)), (pathRest s).length) ∧
      tokenize (c :: s) = (tokenize u).map (wordToken (c :: pathRest s) :: ·) ∧
      IsPath (c :: pathRest s) ∧ (∀ q, IsPath q → q <+: c :: s → q <+: c :: pathRest s) ∧
      Recognizer.path (done ()) (c :: s) = some (c :: pathRest s, c :: pathRest s, ())) ∧
    ∀ p, IsPath p → p ∉ keywords →
      tokenize p = .ok [.path p] ∧
      (∀ g g', Blank g → Blank g' →
        Tag.scan Delimiters.braces.variableTag (Delimiters.braces.enclose (g ++ (p ++ g'))) =
          [⟨0, Delimiters.braces.enclose (g ++ (p ++ g')), ⟨p, none⟩,
          Delimiters.enclose_ne_nil _ _⟩]) ∧
      ∀ p', IsPath p' → p' ∉ keywords → ∀ g g', Blank g → Blank g' →
        ∃ e, Condition.parse (p ++ (g ++ ("==".toList ++ (g' ++ p')))) = .ok e ∧
          ∀ ctx : Context, e.holds ctx =
              ((ctx.resolve? p).getD (.bool false)).looseEq ((ctx.resolve? p').getD (.bool false)) ∧
            ∀ σ : Substitution, σ.delimiters = Delimiters.braces → ∀ q ∈ [p, p'],
              σ.apply (Delimiters.braces.enclose q) ctx =
                if q ∈ reservedWords then Delimiters.braces.enclose q
                else
                  match ctx.resolve? q with
                  | some v => if v.isScalar then v.text else Delimiters.braces.enclose q
                  | none => if σ.clearUnresolved then [] else Delimiters.braces.enclose q := by
  refine ⟨fun p => Recognizer.isPath_iff_whole, ?_, ?_⟩
  · intro c s hc
    obtain ⟨u, hsplit, hu, hpath, hlongest⟩ := word_spec hc s
    refine ⟨u, hsplit, readToken_name hc s, ?_, hpath, hlongest, ?_⟩
    · have hlexed : Lexed (c :: pathRest s) [wordToken (c :: pathRest s)] u := .word hpath hu
      rw [hsplit]
      exact hlexed
    · conv_lhs => rw [hsplit]
      exact Recognizer.path_done hpath hu ()
  · intro p hp hword
    refine ⟨tokenize_path hp hword, fun g g' hg hg' =>
      Delimiters.scan_path Delimiters.apart_braces hg hp hg', ?_⟩
    intro p' hp' hword' g g' hg hg'
    refine ⟨_, parse_paths hp hword hp' hword' .eq hg hg', fun ctx => ⟨?_, ?_⟩⟩
    · simp [Expr.holds, Expr.value, Comparison.holds, Value.isTruthy, Value.isEmpty]
    · intro σ hσ q hq
      have hq : IsPath q := by
        rcases List.mem_pair.mp hq with rfl | rfl
        · exact hp
        · exact hp'
      have happly := σ.apply_path (hσ ▸ Delimiters.apart_braces) blank_nil hq blank_nil ctx
      rw [hσ, List.nil_append, List.append_nil] at happly
      exact happly

/-- The point at the end is none of the path, and the separators of a path make no difference. -/
theorem paths_agree_points :
    readToken 'a' ".b. c".toList = .ok (some (wordToken "a.b".toList), 2) ∧
    tokenize "a.b".toList = .ok [.path "a.b".toList] ∧
    Tag.scan Delimiters.braces.variableTag "\x7b a.b\x7d".toList =
      [⟨0, "\x7b a.b\x7d".toList, ⟨"a.b".toList, none⟩, by decide⟩] ∧
    ∃ e, Condition.parse "a.b== a->b".toList = .ok e ∧
      e.holds [("a", .object [("b", .str "x")])] = true ∧
      Substitution.apply ⟨Delimiters.braces, [], false⟩ "\x7ba.b\x7d".toList
        [("a", .object [("b", .str "x")])] = ['x'] := by
  obtain ⟨hgrammar, hlongest, hpaths⟩ := paths_agree
  have hpoint : IsPath "a.b".toList := (hgrammar _).mpr rfl
  have harrow : IsPath "a->b".toList := (hgrammar _).mpr rfl
  obtain ⟨u, -, hread, -⟩ := hlongest 'a' ".b. c".toList (by decide)
  obtain ⟨htoken, htag, hcompare⟩ := hpaths "a.b".toList hpoint (by decide)
  obtain ⟨e, hparse, hholds⟩ :=
    hcompare "a->b".toList harrow (by decide) [] [' '] blank_nil blank_space
  obtain ⟨hvalue, happly⟩ := hholds [("a", .object [("b", .str "x")])]
  refine ⟨hread, htoken, htag [' '] [] blank_space blank_nil, e, hparse, hvalue.trans ?_,
    (happly ⟨Delimiters.braces, [], false⟩ rfl "a.b".toList (by simp)).trans rfl⟩
  rfl

end Condition

end Stencil
