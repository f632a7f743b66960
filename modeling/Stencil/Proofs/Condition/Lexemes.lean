import Mathlib.Data.Char
import Stencil.Condition.Token
import Stencil.Proofs.Decimal.Layout
import Stencil.Proofs.Tag.Wording

/-!
# What tokens are read from

Reading tokens takes a condition apart into lexemes, from left to right. Each lexeme is read off the
front of what follows, as long as that does not go on with it: blanks, signs, strings between
quotes, integers, and words, which are keywords or paths.
-/

namespace Stencil.Condition

open Recognizer (pathStep pathStep_cons pathStep_eq_some pathStep_of_isStep)
open Delimiters (isBlank_eq_false_of_isNameChar)

/-- A text in front of another one is read to some tokens, and the other one by itself. -/
def Lexed (s : Text) (ts : List Token) (u : Text) : Prop :=
  tokenizeFrom 0 (s ++ u) = (tokenizeFrom 0 u).map (ts ++ ·)

variable {s t u g w : Text} {ts us : List Token} {c : Char}

theorem Lexed.nil (u : Text) : Lexed [] [] u := by
  unfold Lexed
  cases h : tokenizeFrom 0 u <;> simp [h, Except.map]

theorem Lexed.append (hs : Lexed s ts (t ++ u)) (ht : Lexed t us u) :
    Lexed (s ++ t) (ts ++ us) u := by
  unfold Lexed at *
  rw [List.append_assoc, hs, ht]
  cases tokenizeFrom 0 u <;> simp [Except.map]

/-- What belongs to an earlier token is skipped. -/
theorem tokenizeFrom_length (w u : Text) : tokenizeFrom w.length (w ++ u) = tokenizeFrom 0 u := by
  induction w with
  | nil => rfl
  | cons c w ih => exact ih

/-- A token is read, then what follows it. -/
theorem tokenizeFrom_cons (c : Char) (s : Text) : tokenizeFrom 0 (c :: s) =
    match readToken c s with
    | .error e => .error e
    | .ok (token, more) =>
      match tokenizeFrom more s with
      | .error e => .error e
      | .ok tokens => .ok (token.toList ++ tokens) := by
  rfl

theorem Lexed.token {token : Option Token} (h : readToken c (w ++ u) = .ok (token, w.length)) :
    Lexed (c :: w) token.toList u := by
  unfold Lexed
  rw [List.cons_append, tokenizeFrom_cons, h]
  dsimp only
  rw [tokenizeFrom_length]
  cases tokenizeFrom 0 u <;> rfl

theorem Lexed.one {token : Token} (h : readToken c (w ++ u) = .ok (some token, w.length)) :
    Lexed (c :: w) [token] u := Lexed.token h

theorem Lexed.blanks (hg : Blank g) (u : Text) : Lexed g [] u := by
  induction g with
  | nil => exact .nil u
  | cons c g ih =>
    have hc : readToken c (g ++ u) = .ok (none, 0) := by
      rw [readToken, if_pos (hg c (by simp))]
    have hfirst : Lexed [c] [] (g ++ u) := Lexed.token (w := []) hc
    exact hfirst.append (ih fun x hx => hg x (by simp [hx]))

/-! ## Strings -/

/-- A text as it stands between quotes, with a backslash in front of quotes and backslashes. -/
def escaped (quote : Char) (s : Text) : Text :=
  s.flatMap fun c => if c = quote ∨ c = '\\' then ['\\', c] else [c]

/-- The quotes of strings. -/
def quotes : List Char := ['"', '\'']

theorem readQuoted_escaped {quote : Char} (hq : quote ∈ quotes) (s u : Text) :
    readQuoted quote (escaped quote s ++ quote :: u) =
      some (s, (escaped quote s).length + 1) := by
  have hback : quote ≠ '\\' := by
    rintro rfl
    simp [quotes] at hq
  induction s with
  | nil =>
    rw [escaped, List.flatMap_nil, List.nil_append, readQuoted.eq_3 quote quote u (by simp [hback]),
      if_pos rfl]
    rfl
  | cons c s ih =>
    have hcons : escaped quote (c :: s) =
        (if c = quote ∨ c = '\\' then ['\\', c] else [c]) ++ escaped quote s := rfl
    rw [hcons]
    by_cases hc : c = quote ∨ c = '\\'
    · simp [hc, readQuoted, ih]
    · rw [not_or] at hc
      rw [if_neg (by simp [hc]), List.append_assoc, List.singleton_append,
        readQuoted.eq_3 quote c _ (by simp [hc.2]), if_neg hc.1, ih]
      simp

theorem Lexed.string {quote : Char} (hq : quote ∈ quotes) (s u : Text) :
    Lexed (quote :: (escaped quote s ++ [quote])) [.literal (.str (String.ofList s))] u := by
  refine Lexed.one ?_
  have hread := readQuoted_escaped hq s u
  rw [List.append_assoc, List.singleton_append, List.length_append, List.length_singleton]
  rcases List.mem_pair.mp hq with rfl | rfl
  · simp [readToken, isBlank, hread]
  · simp [readToken, isBlank, hread]

/-! ## Integers -/

/-- The characters that start strings and signs. -/
def signs : List Char := ['(', ')', '&', '|', '=', '!', '<', '>', '"', '\'']

/-- What starts neither a blank, nor a string, nor a sign may start a number. -/
theorem readToken_number {token : Token} (hblank : isBlank c = false) (hc : c ∉ signs)
    (hnumber : isDigit c = true ∨ c = '-' ∧ s.head?.any isDigit = true)
    (htake : (s.takeWhile fun d => isDigit d || d = '.') = w)
    (htoken : numberToken? (c :: w) = some token) :
    readToken c s = .ok (some token, w.length) := by
  have hstart : (isDigit c || (c = '-' && s.head?.any isDigit)) = true := by
    rcases hnumber with h | ⟨rfl, h⟩
    · simp [h]
    · simp [h]
  simp only [signs, List.mem_cons, List.not_mem_nil, or_false, not_or] at hc
  simp only [readToken, hblank, hc, hstart, htake, htoken, decide_false,
    Bool.false_and, Bool.or_self, Bool.false_eq_true, if_false, if_true]

theorem notMem_signs_of_isNameChar (hc : isNameChar c = true) : c ∉ signs := by
  intro hmem
  simp only [signs, List.mem_cons, List.not_mem_nil, or_false] at hmem
  rcases hmem with rfl | rfl | rfl | rfl | rfl | rfl | rfl | rfl | rfl | rfl <;>
    simp [isNameChar, isLetter, isDigit] at hc

/-- Digits, with a minus in front or not, are read to the integer they say. -/
theorem Lexed.digits {n : Int64} (hdigits : w.all isDigit = true)
    (hc : isDigit c = true ∨ c = '-' ∧ w ≠ []) (hvalue : Decimal.readInt64? (c :: w) = some n)
    (hu : ∀ x ∈ u.head?, (isDigit x || x = '.') = false) :
    Lexed (c :: w) [.literal (.int n)] u := by
  have htake : (w ++ u).takeWhile (fun d => isDigit d || d = '.') = w := by
    refine (Decimal.span_append ?_ hu).1
    exact List.all_eq_true.mpr fun x hx => by simp [List.all_eq_true.mp hdigits x hx]
  have hnumber : numberToken? (c :: w) = some (.literal (.int n)) := by
    rw [numberToken?, hvalue]
  refine Lexed.one ?_
  rcases hc with hc | ⟨rfl, hne⟩
  · have hname : isNameChar c = true := by simp [isNameChar, hc]
    exact readToken_number (isBlank_eq_false_of_isNameChar hname) (notMem_signs_of_isNameChar hname)
      (.inl hc) htake hnumber
  · obtain ⟨x, w, rfl⟩ := List.exists_cons_of_ne_nil hne
    rw [List.all_cons, Bool.and_eq_true] at hdigits
    exact readToken_number rfl (by simp [signs])
      (.inr ⟨rfl, by simpa using hdigits.1⟩) htake hnumber

theorem Lexed.int (n : Int64) (hu : ∀ x ∈ u.head?, (isDigit x || x = '.') = false) :
    Lexed (Decimal.intText n.toInt) [.literal (.int n)] u := by
  obtain ⟨c, w, hw, hdigits, hc⟩ := Decimal.intText_eq_cons n.toInt
  have hvalue := Decimal.readInt64?_intText n
  rw [hw] at hvalue ⊢
  exact Lexed.digits hdigits hc hvalue hu

/-! ## Words -/

/-- The words that are no paths. -/
def keywords : List Text :=
  ["true".toList, "false".toList, "null".toList, "and".toList, "or".toList, "not".toList]

theorem wordToken_of_notMem (h : w ∉ keywords) : wordToken w = .path w := by
  have hne : ∀ word : String, word.toList ∈ keywords → String.ofList w ≠ word := by
    rintro word hword heq
    rw [← heq, String.toList_ofList] at hword
    exact h hword
  unfold wordToken
  split
  case h_7 => rfl
  all_goals
    rename_i heq
    exact absurd heq (hne _ (by simp [keywords]))

/-- A word goes on step by step. -/
theorem pathRest_eq (s : Text) :
    pathRest s =
      match pathStep s with
      | some (w, t) => w ++ pathRest t
      | none => [] := by
  fun_cases pathStep s <;> simp_all [pathRest]

/-- A word takes all of a path that does not go on. -/
theorem pathRest_append (ht : PathTail t) (hu : pathStep u = none) : pathRest (t ++ u) = t := by
  induction ht with
  | nil => rw [List.nil_append, pathRest_eq, hu]
  | step hw _ ih =>
    rw [List.append_assoc, pathRest_eq, pathStep_of_isStep hw]
    exact congrArg _ ih

/-- What a word takes is the tail of a path, and what follows does not go on with it. -/
theorem pathRest_spec (s : Text) :
    ∃ t u, s = t ++ u ∧ pathRest s = t ∧ PathTail t ∧ pathStep u = none := by
  induction hn : s.length using Nat.strongRecOn generalizing s with
  | ind n ih =>
    cases hstep : pathStep s with
    | none => exact ⟨[], s, rfl, by rw [pathRest_eq, hstep], .nil, hstep⟩
    | some x =>
      obtain ⟨w, rest⟩ := x
      obtain ⟨hw, hs⟩ := Recognizer.isStep_of_pathStep hstep
      have hlt := (Recognizer.pathStep_eq_some hstep).2
      obtain ⟨t, u, rfl, ht, htail, hu⟩ := ih rest.length (hn ▸ hlt) rest rfl
      refine ⟨w ++ t, u, by rw [hs, List.append_assoc], ?_, .step hw htail, hu⟩
      rw [pathRest_eq, hstep]
      exact congrArg _ ht

theorem isDigit_eq_false_of_isNameStart (hc : isNameStart c = true) : isDigit c = false := by
  simp only [isNameStart, isLetter, Bool.or_eq_true, Bool.and_eq_true, decide_eq_true_eq] at hc
  simp only [isDigit, Bool.and_eq_false_iff, decide_eq_false_iff_not, Char.not_le]
  rcases hc with (⟨h, -⟩ | ⟨h, -⟩) | rfl
  · exact .inr (lt_of_lt_of_le (show '9' < 'a' by decide) h)
  · exact .inr (lt_of_lt_of_le (show '9' < 'A' by decide) h)
  · exact .inr (by decide)

/-- A name character at the start reads a word. -/
theorem readToken_name (hc : isNameStart c = true) (s : Text) :
    readToken c s = .ok (some (wordToken (c :: pathRest s)), (pathRest s).length) := by
  have hname : isNameChar c = true := isNameChar_of_isNameStart hc
  have hblank : isBlank c = false := isBlank_eq_false_of_isNameChar hname
  have hdigit : isDigit c = false := isDigit_eq_false_of_isNameStart hc
  have hdash : c ≠ '-' := by rintro rfl; simp [isNameStart, isLetter] at hc
  have hsign := notMem_signs_of_isNameChar hname
  simp only [signs, List.mem_cons, List.not_mem_nil, or_false, not_or] at hsign
  simp only [readToken, hblank, hsign, hdigit, hdash, hc, decide_false,
    Bool.false_and, Bool.or_self, Bool.false_eq_true, if_false, if_true]

theorem Lexed.word (hw : IsPath w) (hu : pathStep u = none) :
    Lexed w [wordToken w] u := by
  obtain ⟨c, t, rfl, hc, ht⟩ := hw
  refine Lexed.one ?_
  rw [readToken_name hc, pathRest_append ht hu]

end Stencil.Condition
