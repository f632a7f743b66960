import Stencil.Proofs.Condition.Lexemes
import Stencil.Proofs.Outline.Matched
import Stencil.Proofs.Separators.Path

/-!
# Conditions and the separators of their paths

Reading a condition takes the paths in it as they are: with other paths in their places it is read
to the same condition, but for these. Where the separators of a path are others, the tokens around
it stay what they are. So the condition holds in the same contexts, or it is malformed as before.
-/

namespace Stencil

/-- A condition with other paths. -/
def Expr.map (f : Text → Text) : Expr → Expr
  | .literal v => .literal v
  | .path p => .path (f p)
  | .not e => .not (e.map f)
  | .compare l op r => .compare (l.map f) op (r.map f)
  | .and l r => .and (l.map f) (r.map f)
  | .or l r => .or (l.map f) (r.map f)

/-- A condition does not look at the separators of its paths. -/
theorem Expr.value_dotted (ctx : Context) (e : Expr) :
    (e.map Path.dotted).value ctx = e.value ctx := by
  induction e with
  | literal v => rfl
  | path p => rw [map, value, value, ctx.resolve?_dotted]
  | not e ih => rw [map, value, value, ih]
  | compare l op r ihl ihr => rw [map, value, value, ihl, ihr]
  | and l r ihl ihr => rw [map, value, value, ihl, ihr]
  | or l r ihl ihr => rw [map, value, value, ihl, ihr]

namespace Condition

/-! ## Other paths in the places of paths -/

/-- A token with another path. -/
def Token.map (f : Text → Text) : Token → Token
  | .path p => .path (f p)
  | t => t

/-- What is read, with other paths. -/
def renamed (f : Text → Text) (x : Expr × List Token) : Expr × List Token :=
  (x.1.map f, x.2.map (Token.map f))

variable {f : Text → Text} {fuel : Nat} {ts : List Token}

/-- The readers take paths as they are. -/
structure Blind (f : Text → Text) (fuel : Nat) : Prop where
  /-- At the level of disjunctions. -/
  readOr : ∀ ts, readOr fuel (ts.map (Token.map f)) = (readOr fuel ts).map (renamed f)
  /-- Behind the first conjunction of a row. -/
  readOrRest : ∀ left ts, readOrRest fuel (left.map f) (ts.map (Token.map f)) =
    (readOrRest fuel left ts).map (renamed f)
  /-- At the level of conjunctions. -/
  readAnd : ∀ ts, readAnd fuel (ts.map (Token.map f)) = (readAnd fuel ts).map (renamed f)
  /-- Behind the first comparison of a row. -/
  readAndRest : ∀ left ts, readAndRest fuel (left.map f) (ts.map (Token.map f)) =
    (readAndRest fuel left ts).map (renamed f)
  /-- At the level of comparisons. -/
  readComparison : ∀ ts, readComparison fuel (ts.map (Token.map f)) =
    (readComparison fuel ts).map (renamed f)
  /-- At the level of operands. -/
  readOperand : ∀ ts, readOperand fuel (ts.map (Token.map f)) =
    (readOperand fuel ts).map (renamed f)

theorem Blind.zero : Blind f 0 := by
  constructor <;> intros <;> rfl

theorem Blind.succ (h : Blind f fuel) : Blind f (fuel + 1) where
  readOr := by
    intro ts
    rw [Condition.readOr, Condition.readOr, h.readAnd]
    cases Condition.readAnd fuel ts with
    | error e => rfl
    | ok x => exact h.readOrRest x.1 x.2
  readOrRest := by
    intro left ts
    cases ts with
    | nil => rfl
    | cons t ts =>
      cases t with
      | or =>
        simp only [List.map_cons, Token.map, Condition.readOrRest, h.readAnd]
        cases Condition.readAnd fuel ts with
        | error e => rfl
        | ok x => exact h.readOrRest (.or left x.1) x.2
      | _ => rfl
  readAnd := by
    intro ts
    rw [Condition.readAnd, Condition.readAnd, h.readComparison]
    cases Condition.readComparison fuel ts with
    | error e => rfl
    | ok x => exact h.readAndRest x.1 x.2
  readAndRest := by
    intro left ts
    cases ts with
    | nil => rfl
    | cons t ts =>
      cases t with
      | and =>
        simp only [List.map_cons, Token.map, Condition.readAndRest, h.readComparison]
        cases Condition.readComparison fuel ts with
        | error e => rfl
        | ok x => exact h.readAndRest (.and left x.1) x.2
      | _ => rfl
  readComparison := by
    intro ts
    rw [Condition.readComparison, Condition.readComparison, h.readOperand]
    rcases Condition.readOperand fuel ts with e | ⟨left, _ | ⟨t, ts⟩⟩
    · rfl
    · rfl
    · cases t with
      | cmp op =>
        simp only [Except.map, renamed, List.map_cons, Token.map, h.readOperand]
        rcases Condition.readOperand fuel ts with e | ⟨right, _ | ⟨t, us⟩⟩
        · rfl
        · rfl
        · cases t <;> rfl
      | _ => rfl
  readOperand := by
    intro ts
    cases ts with
    | nil => rfl
    | cons t ts =>
      cases t with
      | not =>
        simp only [List.map_cons, Token.map, Condition.readOperand, h.readOperand]
        cases Condition.readOperand fuel ts <;> rfl
      | opening =>
        simp only [List.map_cons, Token.map, Condition.readOperand, h.readOr]
        rcases Condition.readOr fuel ts with e | ⟨e, _ | ⟨t, us⟩⟩
        · rfl
        · rfl
        · cases t <;> rfl
      | _ => rfl

theorem blind (f : Text → Text) (fuel : Nat) : Blind f fuel := by
  induction fuel with
  | zero => exact .zero
  | succ fuel ih => exact ih.succ

theorem readFront_map (f : Text → Text) (ts : List Token) :
    readFront (ts.map (Token.map f)) = (readFront ts).map (renamed f) := by
  have hread : readOr (6 * ts.length + 6) ts = (readFront ts).mapError .failed :=
    readFront_eq_iff.mp rfl
  rw [readFront_eq_iff, List.length_map, (blind f _).readOr, hread]
  cases readFront ts <;> rfl

/-- With other paths, tokens are read to the same condition with these paths. -/
theorem ofTokens_map (f : Text → Text) (ts : List Token) :
    ofTokens (ts.map (Token.map f)) = (ofTokens ts).map (Expr.map f) := by
  rw [ofTokens, ofTokens, readFront_map]
  rcases readFront ts with e | ⟨e, _ | ⟨t, us⟩⟩ <;> rfl

/-! ## What follows a token -/

open Recognizer (pathStep pathStep_cons)

variable {c : Char} {w s s' t u v : Text}

/-- A string is read from its characters alone. -/
theorem readQuoted_append {quote : Char} (hquote : quote ≠ '\\') {n : Nat}
    (h : readQuoted quote (w ++ s) = some (t, n)) (hn : n = w.length) (s' : Text) :
    readQuoted quote (w ++ s') = some (t, n) := by
  suffices hread : ∀ {u t n}, readQuoted quote u = some (t, n) →
      ∀ v, readQuoted quote (u.take n ++ v) = some (t, n) by
    have := hread h s'
    rwa [hn, List.take_left, ← hn] at this
  clear h hn
  intro u t n h v
  fun_induction readQuoted quote u generalizing t n with
  | case1 => exact absurd h (by simp)
  | case2 c u ih =>
    obtain ⟨⟨t, n⟩, hu, heq⟩ := Option.map_eq_some_iff.mp h
    obtain ⟨rfl, rfl⟩ := Prod.mk.inj heq
    rw [List.take_succ_cons, List.take_succ_cons, List.cons_append, List.cons_append,
      readQuoted, ih hu]
    rfl
  | case3 u hback =>
    obtain ⟨rfl, rfl⟩ := Prod.mk.inj (Option.some.inj h)
    rw [List.take_succ_cons, List.cons_append,
      readQuoted.eq_3 quote quote _ (by simp [hquote]), if_pos rfl]
  | case4 c u hback hc ih =>
    obtain ⟨⟨t, n⟩, hu, heq⟩ := Option.map_eq_some_iff.mp h
    obtain ⟨rfl, rfl⟩ := Prod.mk.inj heq
    -- a backslash at the end would leave the string open
    have hslash : c ≠ '\\' := by
      rintro rfl
      cases u with
      | nil => exact absurd hu (by simp [readQuoted])
      | cons x u => exact hback x u rfl rfl
    rw [List.take_succ_cons, List.cons_append,
      readQuoted.eq_3 quote c _ (by simp [hslash]), if_neg hc, ih hu]
    rfl

/-- A row of digits and points is read up to what follows it. -/
theorem takeWhile_append {p : Char → Bool} (h : ((w ++ s).takeWhile p).length = w.length)
    (hs : s.head? = s'.head?) : (w ++ s').takeWhile p = (w ++ s).takeWhile p := by
  have hw : (w ++ s).takeWhile p = w := by
    refine List.IsPrefix.eq_of_length ?_ h
    exact List.prefix_of_prefix_length_le (List.takeWhile_prefix p) ⟨s, rfl⟩ (Nat.le_of_eq h)
  have hall : ∀ x ∈ w, p x = true := fun x hx => by
    rw [← hw] at hx
    exact List.all_eq_true.mp (List.all_takeWhile ..) x hx
  rw [List.takeWhile_append_of_pos hall] at hw
  have hend : s.takeWhile p = [] := by simpa using hw
  rw [List.takeWhile_append_of_pos hall, List.takeWhile_append_of_pos hall, hend]
  cases s with
  | nil =>
    obtain rfl : s' = [] := by simpa using hs.symm
    rfl
  | cons c s =>
    obtain ⟨s', rfl⟩ := List.head?_eq_some_iff.mp hs.symm
    have hc : p c = false := by
      rw [List.takeWhile_cons] at hend
      split at hend
      · exact absurd hend (by simp)
      · exact Bool.eq_false_iff.mpr ‹_›
    rw [List.takeWhile_cons_of_neg (by simp [hc])]

/-- A token is read from its characters alone if what follows starts with the same character, and
goes on with no path as before. -/
theorem readToken_append {token : Option Token} (h : readToken c (w ++ s) = .ok (token, w.length))
    (hhead : s.head? = s'.head?) (hstep : pathStep s = none → pathStep s' = none) :
    readToken c (w ++ s') = .ok (token, w.length) := by
  have hnext : (w ++ s').head? = (w ++ s).head? := by
    cases w with
    | nil => exact hhead.symm
    | cons x w => rfl
  by_cases hname : isNameStart c = true
  · -- a word takes all of a path, and then none goes on
    rw [readToken_name hname] at h ⊢
    obtain ⟨-, hlen⟩ := Prod.mk.inj (Except.ok.inj h)
    obtain ⟨t, u, hsplit, ht, htail, hu⟩ := pathRest_spec (w ++ s)
    obtain ⟨rfl, rfl⟩ := List.append_inj hsplit (by rw [← hlen, ht])
    rw [ht] at h
    rwa [pathRest_append htail (hstep hu)]
  by_cases hquote : c = '"' ∨ c = '\''
  · have hslash : c ≠ '\\' := by
      rintro rfl
      simp at hquote
    have hread : ∀ u, readToken c u = (readQuoted c u).elim (.error .unterminatedString)
        fun x => .ok (some (.literal (.str (String.ofList x.1))), x.2) := by
      intro u
      rcases hquote with rfl | rfl <;> simp only [readToken] <;>
        cases readQuoted _ u <;> rfl
    rw [hread] at h ⊢
    cases hq : readQuoted c (w ++ s) with
    | none => rw [hq] at h; exact absurd h (by simp)
    | some x =>
      obtain ⟨t, n⟩ := x
      rw [hq] at h
      obtain ⟨-, hlen⟩ := Prod.mk.inj (Except.ok.inj h)
      rw [readQuoted_append hslash hq hlen]
      exact h
  rw [not_or] at hquote
  by_cases hnumber : (!isBlank c && (isDigit c || (c = '-' && (w ++ s).head?.any isDigit))) = true
  · simp only [Bool.and_eq_true, Bool.not_eq_true', Bool.or_eq_true, decide_eq_true_eq] at hnumber
    have hsign : c ∉ signs := by
      rcases hnumber.2 with hdigit | ⟨rfl, -⟩
      · exact notMem_signs_of_isNameChar (by simp [isNameChar, hdigit])
      · simp [signs]
    simp only [signs, List.mem_cons, List.not_mem_nil, or_false, not_or] at hsign
    have hstart : (isDigit c || (c = '-' && (w ++ s).head?.any isDigit)) = true := by
      simpa using hnumber.2
    simp only [readToken, hnumber.1, hsign, hnext, hstart, decide_false,
      Bool.false_and, Bool.or_self, Bool.false_eq_true, if_false, if_true] at h ⊢
    cases htoken : numberToken? (c :: (w ++ s).takeWhile fun d => isDigit d || d = '.') with
    | none => rw [htoken] at h; exact absurd h (by simp)
    | some number =>
      rw [htoken] at h
      obtain ⟨-, hlen⟩ := Prod.mk.inj (Except.ok.inj h)
      rw [takeWhile_append hlen hhead, htoken]
      exact h
  · -- any other token is settled by its first two characters
    cases hblank : isBlank c with
    | true =>
      rw [readToken, if_pos hblank] at h ⊢
      exact h
    | false =>
      have hstart : (isDigit c || (c = '-' && (w ++ s).head?.any isDigit)) = false := by
        simpa [hblank] using hnumber
      simp only [readToken, hblank, hquote, hnext, hstart, hname, decide_false, Bool.or_self,
        Bool.false_eq_true, if_false] at h ⊢
      exact h

/-! ## Two spellings of a condition -/

/-- Two spellings of a condition: from the left, the same tokens and blanks, but for the separators
of paths. From some token on, they may be the same text. -/
inductive Respelled : Text → Text → Prop where
  /-- The same text. -/
  | same (s : Text) : Respelled s s
  /-- A token or a blank, which is the same. -/
  | token {c : Char} {w s s' : Text} {token : Option Token}
    (reads : readToken c (w ++ s) = .ok (token, w.length)) (rest : Respelled s s') :
    Respelled (c :: (w ++ s)) (c :: (w ++ s'))
  /-- A path. -/
  | path {p p' s s' : Text} (respelled : Path.Respelled p p') (ends : pathStep s = none)
    (rest : Respelled s s') : Respelled (p ++ s) (p' ++ s')

namespace Respelled

theorem head? (h : Respelled s s') : s.head? = s'.head? := by
  cases h with
  | same => rfl
  | token => rfl
  | path hp => exact hp.head? _ _

/-- Where one goes on with no path, neither does the other. -/
theorem pathStep_eq_none (h : Respelled s s') (hs : pathStep s = none) : pathStep s' = none := by
  cases h with
  | same => exact hs
  | @token c w s s' token hread hrest =>
    have hnext : (w ++ s').head? = (w ++ s).head? := by
      rw [List.head?_append, List.head?_append, hrest.head?]
    by_cases hpoint : c = '.'
    · rw [hpoint] at hread
      exact absurd hread (by simp [readToken, isBlank, isDigit, isNameStart, isLetter])
    by_cases hdash : c = '-'
    · -- a token that starts with a dash is a number
      subst hdash
      have hdigit : (w ++ s).head?.any isDigit = true := by
        by_contra hdigit
        rw [List.head?_append] at hdigit
        exact absurd hread (by simp [readToken, hdigit, isBlank, isDigit, isNameStart, isLetter])
      rw [← hnext] at hdigit
      generalize w ++ s' = u at hdigit
      cases u with
      | nil => rfl
      | cons x u =>
        have hx : x ≠ '>' := by
          rintro rfl
          exact absurd hdigit (by simp [isDigit])
        simp [pathStep, hx, isNameChar, isLetter, isDigit]
    · rw [pathStep_cons hpoint hdash] at hs ⊢
      split at hs
      · exact absurd hs (by simp)
      · rw [if_neg ‹_›]
  | @path p p' s s' hp =>
    obtain ⟨c, t, rfl, hc, -⟩ := hp.isPath
    have hname := isNameChar_of_isNameStart hc
    obtain ⟨hpoint, hdash, -⟩ := Path.ne_separator hname
    rw [List.cons_append, pathStep_cons hpoint hdash, if_pos hname] at hs
    exact absurd hs (by simp)

/-- Both end with the same character. -/
theorem getLast? (h : Respelled s s') : s.getLast? = s'.getLast? := by
  induction h with
  | same => rfl
  | @token c w s s' _ _ _ ih =>
    rw [← List.cons_append, ← List.cons_append, List.getLast?_append, List.getLast?_append, ih]
  | path hp _ _ ih => rw [List.getLast?_append, List.getLast?_append, hp.getLast?, ih]

/-- Beside the characters of paths, both have the same ones. -/
theorem forall_mem {A : Char → Prop} (hA : ∀ p, IsPath p → ∀ c ∈ p, A c) (h : Respelled s s')
    (hs : ∀ c ∈ s, A c) : ∀ c ∈ s', A c := by
  induction h with
  | same => exact hs
  | @token c w s s' _ _ _ ih =>
    rw [← List.cons_append, List.forall_mem_append] at hs ⊢
    exact ⟨hs.1, ih hs.2⟩
  | path hp _ _ ih =>
    rw [List.forall_mem_append] at hs ⊢
    exact ⟨hA _ hp.isPath_right, ih hs.2⟩

/-- With points for arrows, both are the same text. -/
theorem dotted (h : Respelled s s') : Path.dotted s = Path.dotted s' := by
  induction h with
  | same => rfl
  | @token c w s s' _ _ hrest ih =>
    rw [← List.cons_append, ← List.cons_append]
    exact Path.dotted_append_congr (c :: w) hrest.head? ih
  | path hp _ _ ih =>
    rw [Path.dotted_append (absurd · (Path.getLast?_ne_of_isPath hp.isPath).1),
      Path.dotted_append (absurd · (Path.getLast?_ne_of_isPath hp.isPath_right).1), hp.dotted, ih]

/-- What starts with a separator is spelled in one way only. -/
theorem eq_of_separator (h : Respelled s s')
    (hs' : s'.head? = some '.' ∨ ∃ u, s' = '-' :: '>' :: u) :
    s = s' := by
  cases h with
  | same => rfl
  | @token c w s s' _ hread hrest =>
    rcases hs' with hpoint | ⟨u, harrow⟩
    · obtain rfl : c = '.' := by simpa using hpoint
      exact absurd hread (by simp [readToken, isBlank, isDigit, isNameStart, isLetter])
    · obtain ⟨rfl, hu⟩ := List.cons.inj harrow
      have hnext : (w ++ s).head? = some '>' := by
        rw [List.head?_append, hrest.head?, ← List.head?_append, hu]
        rfl
      exact absurd hread (by simp [readToken, hnext, isBlank, isDigit, isNameStart, isLetter])
  | @path p p' s s' hp =>
    obtain ⟨c, t, rfl, hc, -⟩ := hp.isPath_right
    obtain ⟨hpoint, hdash, -⟩ := Path.ne_separator (isNameChar_of_isNameStart hc)
    rcases hs' with hs' | ⟨u, hs'⟩
    · exact absurd (by simpa using hs') hpoint
    · exact absurd (List.cons.inj hs').1 hdash

/-- With points for arrows, both have the same tokens. -/
theorem tokenizeFrom (h : Respelled s s') :
    (tokenizeFrom 0 s).map (List.map (Token.map Path.dotted)) =
      (tokenizeFrom 0 s').map (List.map (Token.map Path.dotted)) := by
  -- a lexeme in front of both
  have hgrow : ∀ {u u' s s' ts ts'}, Lexed u ts s → Lexed u' ts' s' →
      ts.map (Token.map Path.dotted) = ts'.map (Token.map Path.dotted) →
      (Condition.tokenizeFrom 0 s).map (List.map (Token.map Path.dotted)) =
        (Condition.tokenizeFrom 0 s').map (List.map (Token.map Path.dotted)) →
      (Condition.tokenizeFrom 0 (u ++ s)).map (List.map (Token.map Path.dotted)) =
        (Condition.tokenizeFrom 0 (u' ++ s')).map (List.map (Token.map Path.dotted)) := by
    intro u u' s s' ts ts' hu hu' hts ih
    rw [hu, hu']
    cases hs : Condition.tokenizeFrom 0 s with
    | error e =>
      cases hs' : Condition.tokenizeFrom 0 s' with
      | error e' => rwa [hs, hs'] at ih
      | ok us' => rw [hs, hs'] at ih; exact absurd ih (by simp [Except.map])
    | ok us =>
      cases hs' : Condition.tokenizeFrom 0 s' with
      | error e' => rw [hs, hs'] at ih; exact absurd ih (by simp [Except.map])
      | ok us' =>
        rw [hs, hs'] at ih
        have hus : us.map (Token.map Path.dotted) = us'.map (Token.map Path.dotted) :=
          Except.ok.inj ih
        simp only [Except.map, List.map_append, hts, hus]
  induction h with
  | same => rfl
  | @token c w s s' token hread hrest ih =>
    have hread' := readToken_append hread hrest.head? hrest.pathStep_eq_none
    exact hgrow (Lexed.token hread) (Lexed.token hread') rfl ih
  | @path p p' s s' hp hend hrest ih =>
    refine hgrow (Lexed.word hp.isPath hend)
      (Lexed.word hp.isPath_right (hrest.pathStep_eq_none hend))
      ?_ ih
    have hall : ∀ w ∈ keywords, w.all isNameChar = true := by decide
    by_cases hkeyword : p ∈ keywords
    · rw [hp.eq_of_word (hall p hkeyword)]
    · have hkeyword' : p' ∉ keywords := fun hmem =>
        hkeyword (hp.symm.eq_of_word (hall p' hmem) ▸ hmem)
      rw [wordToken_of_notMem hkeyword, wordToken_of_notMem hkeyword', List.map_singleton,
        List.map_singleton, Token.map, Token.map, hp.dotted]

/-- Both are malformed, or hold in the same contexts. -/
theorem sameTruth (h : Respelled s s') : Outline.SameTruth s s' := by
  have hread : ∀ s, (read s).map (Expr.map Path.dotted) =
      ((Condition.tokenizeFrom 0 s).map (List.map (Token.map Path.dotted))).bind ofTokens := by
    intro s
    rw [read, tokenize]
    cases Condition.tokenizeFrom 0 s with
    | error e => rfl
    | ok ts => exact (ofTokens_map _ ts).symm
  have hholds : ∀ (ctx : Context) (s : Text), (read s).toOption.map (·.holds ctx) =
      ((read s).map (Expr.map Path.dotted)).toOption.map (·.holds ctx) := by
    intro ctx s
    cases read s with
    | error e => rfl
    | ok e => exact congrArg some (congrArg Value.isTruthy (e.value_dotted ctx).symm)
  intro ctx
  rw [hholds, hholds ctx s', hread, hread, h.tokenizeFrom]

end Respelled

end Condition

end Stencil
