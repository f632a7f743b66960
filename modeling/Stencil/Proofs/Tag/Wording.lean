import Stencil.Proofs.Tag.Taking
import Stencil.Template.Variables

/-!
# How a tag is worded

What a grammar reads off a tag says how its body is spelled: which blanks, words and paths it is
made of, in which order. `Whole` is reading a text from end to end; it goes through the recognizers
from the outside in. What matters most is the word a tag starts with: every grammar but those of
values and loops fixes it, so tags of different constructs are never confused.
-/

namespace Stencil

/-- A step of a path: a name character, perhaps with a separator in front. -/
def IsStep (w : Text) : Prop :=
  ∃ c, isNameChar c = true ∧ (w = [c] ∨ w = ['.', c] ∨ w = ['-', '>', c])

/-- How a path goes on. -/
inductive PathTail : Text → Prop where
  /-- It ends. -/
  | nil : PathTail []
  /-- One step further. -/
  | step {w t : Text} : IsStep w → PathTail t → PathTail (w ++ t)

/-- A path: names and numbers separated by points or arrows, the first of which is a name. -/
def IsPath (s : Text) : Prop := ∃ c t, s = c :: t ∧ isNameStart c = true ∧ PathTail t

/-- A text of blanks. -/
def Blank (s : Text) : Prop := ∀ c ∈ s, isBlank c = true

theorem blank_nil : Blank [] := List.forall_mem_nil _

theorem blank_space : Blank [' '] := List.forall_mem_singleton.mpr (by decide)

theorem Blank.notMem {c : Char} {s : Text} (hs : Blank s) (hc : isBlank c = false) : c ∉ s := by
  intro hmem
  rw [hs c hmem] at hc
  exact absurd hc (by simp)

theorem Blank.append {s t : Text} (hs : Blank s) (ht : Blank t) : Blank (s ++ t) := by
  intro c hc
  rcases List.mem_append.mp hc with h | h
  · exact hs c h
  · exact ht c h

/-- Every text is blanks, and then something else. -/
theorem exists_blank_append (s : Text) :
    ∃ g t, Blank g ∧ s = g ++ t ∧ t.head?.any isBlank = false := by
  induction s with
  | nil => exact ⟨[], [], blank_nil, rfl, rfl⟩
  | cons c s ih =>
    cases hc : isBlank c with
    | false => exact ⟨[], c :: s, blank_nil, rfl, by simpa using hc⟩
    | true =>
      obtain ⟨g, t, hg, rfl, ht⟩ := ih
      exact ⟨c :: g, t, List.forall_mem_cons.mpr ⟨hc, hg⟩, rfl, ht⟩

namespace Recognizer

variable {α β : Type} {next r q : Recognizer α} {s : Text}

/-- A recognizer reads a text from end to end. -/
def Whole (r : Recognizer α) (s : Text) (a : α) : Prop := r s = some (s, a)

theorem whole_map {f : α → β} {b : β} :
    Whole (r.map f) s b ↔ ∃ a, Whole r s a ∧ f a = b := map_eq_some

theorem whole_orElse {a : α} (h : Whole (r.orElse q) s a) : Whole r s a ∨ Whole q s a :=
  orElse_eq_some h

theorem whole_literal {w : Text} {a : α} :
    Whole (literal w next) s a ↔ ∃ t, s = w ++ t ∧ Whole next t a := by
  unfold Whole
  rw [literal_eq_some]
  constructor
  · rintro ⟨t, l, rfl, hl, h⟩
    exact ⟨t, rfl, by rwa [← List.append_cancel_left hl] at h⟩
  · rintro ⟨t, rfl, h⟩
    exact ⟨t, t, rfl, rfl, h⟩

theorem whole_fewest {p : Char → Bool} {taken : Text} {a : α}
    (h : Whole (fewest p next) s (taken, a)) :
    ∃ t, s = taken ++ t ∧ (∀ c ∈ taken, p c = true) ∧ Whole next t a := by
  obtain ⟨t, l, rfl, hl, hp, hn, -⟩ := fewest_eq_some h
  obtain rfl := List.append_cancel_left hl
  exact ⟨t, rfl, hp, hn⟩

theorem whole_leading {p q : Char → Bool} {taken : Text} {a : α}
    (h : Whole (leading p q next) s (taken, a)) :
    ∃ c w t, taken = c :: w ∧ s = taken ++ t ∧ p c = true ∧ (∀ x ∈ w, q x = true) ∧
      Whole next t a := by
  obtain ⟨c, w, t, l, rfl, rfl, hl, hp, hq, hn⟩ := leading_eq_some h
  obtain rfl := List.append_cancel_left hl
  exact ⟨c, w, t, rfl, rfl, hp, hq, hn⟩

theorem whole_blanks {a : α} (h : Whole (blanks next) s a) :
    ∃ g t, Blank g ∧ s = g ++ t ∧ Whole next t a := by
  obtain ⟨g, t, l, hg, rfl, hl, hn, -⟩ := blanks_eq_some h
  obtain rfl := List.append_cancel_left hl
  exact ⟨g, t, hg, rfl, hn⟩

theorem whole_someBlanks {a : α} (h : Whole (someBlanks next) s a) :
    ∃ g t, Blank g ∧ g ≠ [] ∧ s = g ++ t ∧ Whole next t a := by
  obtain ⟨g, t, l, hg, hne, rfl, hl, hn⟩ := someBlanks_eq_some h
  obtain rfl := List.append_cancel_left hl
  exact ⟨g, t, hg, hne, rfl, hn⟩

theorem whole_wordEnd {a : α} (h : Whole (wordEnd next) s a) :
    s.head?.any isWordChar = false ∧ Whole next s a := wordEnd_eq_some h

theorem fewest_some {p : Char → Bool} {next : Recognizer α} {s t lexeme : Text} {a : α}
    (hp : ∀ c ∈ s, p c = true) (hnone : ∀ i < s.length, next (s.drop i ++ t) = none)
    (hsome : next t = some (lexeme, a)) : fewest p next (s ++ t) = some (s ++ lexeme, s, a) := by
  induction s with
  | nil =>
    cases t with
    | nil => rw [List.nil_append, fewest, Recognizer.map, hsome]; rfl
    | cons c t => rw [List.nil_append, fewest, hsome]; rfl
  | cons c s ih =>
    have h0 : next (c :: (s ++ t)) = none := hnone 0 (by simp)
    have hrest := ih (fun x hx => hp x (by simp [hx])) fun i hi =>
      hnone (i + 1) (by simpa using hi)
    rw [List.cons_append, fewest, h0]
    simp only [hp c (by simp), if_pos, hrest]
    rfl

theorem fewest_none {p : Char → Bool} {next : Recognizer α} {s : Text}
    (h : ∀ t, t <:+ s → next t = none) : fewest p next s = none :=
  fewest_eq_none.mpr fun w t hs _ => h t ⟨w, hs.symm⟩

theorem pathStep_of_isStep {w : Text} (h : IsStep w) (t : Text) :
    pathStep (w ++ t) = some (w, t) := by
  obtain ⟨c, hc, rfl | rfl | rfl⟩ := h
  · have hdot : c ≠ '.' := by rintro rfl; exact absurd hc (by decide)
    have hdash : c ≠ '-' := by rintro rfl; exact absurd hc (by decide)
    rw [List.cons_append, pathStep_cons hdot hdash, if_pos hc]
    rfl
  · simp [pathStep, hc]
  · simp [pathStep, hc]

theorem isStep_of_pathStep {s w t : Text} (h : pathStep s = some (w, t)) :
    IsStep w ∧ s = w ++ t := by
  refine ⟨?_, (pathStep_eq_some h).1⟩
  fun_cases pathStep s with
  | case1 c s hc =>
    obtain ⟨rfl, rfl⟩ : ['.', c] = w ∧ s = t := by simpa [pathStep, hc] using h
    exact ⟨c, hc, .inr (.inl rfl)⟩
  | case2 c s hc => simp [pathStep, hc] at h
  | case3 c s hc =>
    obtain ⟨rfl, rfl⟩ : ['-', '>', c] = w ∧ s = t := by simpa [pathStep, hc] using h
    exact ⟨c, hc, .inr (.inr rfl)⟩
  | case4 c s hc => simp [pathStep, hc] at h
  | case5 c s hdot hdash hc =>
    rw [pathStep.eq_3 c s hdot hdash, if_pos hc] at h
    obtain ⟨rfl, rfl⟩ : [c] = w ∧ s = t := by simpa using h
    exact ⟨c, hc, .inl rfl⟩
  | case6 c s hdot hdash hc =>
    rw [pathStep.eq_3 c s hdot hdash, if_neg hc] at h
    exact absurd h (by simp)
  | case7 => simp [pathStep] at h

theorem pathRest_eq_some {s lexeme taken : Text} {a : α}
    (h : pathRest next s = some (lexeme, taken, a)) :
    ∃ t l, s = taken ++ t ∧ lexeme = taken ++ l ∧ PathTail taken ∧ next t = some (l, a) := by
  have hstop : next.map (fun a => (([] : Text), a)) s = some (lexeme, taken, a) →
      ∃ t l, s = taken ++ t ∧ lexeme = taken ++ l ∧ PathTail taken ∧ next t = some (l, a) := by
    intro h
    obtain ⟨rfl, hn⟩ := nothing_eq_some h
    exact ⟨s, lexeme, rfl, rfl, .nil, hn⟩
  rw [pathRest_eq] at h
  split at h
  · rename_i w t hs
    obtain ⟨hw, hsw⟩ := isStep_of_pathStep hs
    have hlt := (pathStep_eq_some hs).2
    split at h
    · rename_i l taken' a' hrest
      simp only [Option.some.injEq, Prod.mk.injEq] at h
      obtain ⟨rfl, rfl, rfl⟩ := h
      obtain ⟨u, l, rfl, rfl, htail, hn⟩ := pathRest_eq_some hrest
      exact ⟨u, l, by rw [hsw, List.append_assoc], by rw [List.append_assoc], .step hw htail, hn⟩
    · exact hstop h
  · exact hstop h
termination_by s.length

theorem path_eq_some {lexeme taken : Text} {a : α} (h : path next s = some (lexeme, taken, a)) :
    ∃ t l, s = taken ++ t ∧ lexeme = taken ++ l ∧ IsPath taken ∧ next t = some (l, a) := by
  obtain ⟨⟨c, w, b⟩, hone, heq⟩ := map_eq_some.mp h
  simp only [Prod.mk.injEq] at heq
  obtain ⟨rfl, rfl⟩ := heq
  obtain ⟨t, l, rfl, rfl, hc, hrest⟩ := one_eq_some hone
  obtain ⟨t, l, rfl, rfl, hw, hn⟩ := pathRest_eq_some hrest
  exact ⟨t, l, rfl, rfl, ⟨c, w, rfl, hc, hw⟩, hn⟩

theorem whole_path {taken : Text} {a : α} (h : Whole (path next) s (taken, a)) :
    ∃ t, s = taken ++ t ∧ IsPath taken ∧ Whole next t a := by
  obtain ⟨t, l, rfl, hl, hp, hn⟩ := path_eq_some h
  obtain rfl := List.append_cancel_left hl
  exact ⟨t, rfl, hp, hn⟩

end Recognizer

namespace Delimiters

open Recognizer

variable {α : Type} {next : Recognizer α} {d : Delimiters} {body : Text}

theorem whole_closed {s : Text} {a : Unit} (h : Whole d.closed s a) :
    ∃ g, Blank g ∧ s = g ++ d.right := by
  obtain ⟨g, t, hg, rfl, hlit⟩ := whole_blanks h
  obtain ⟨t, rfl, hdone⟩ := whole_literal.mp hlit
  simp only [Whole, done, Option.some.injEq, Prod.mk.injEq] at hdone
  exact ⟨g, hg, by rw [← hdone.1, List.append_nil]⟩

/-- What a grammar reads off a tag, it reads off the tag from end to end. -/
theorem whole_of_reading {r : Recognizer α} (h : Delimited d r) (hb : d.Free body) {a : α}
    (hr : reading d r body = some a) : Whole r (d.enclose body) a := by
  have := h.eq_reading hb []
  rw [List.append_nil, hr] at this
  exact this

/-- Behind the left delimiter and blanks, the rest of a tag is read. -/
theorem whole_opened {a : α} (h : Whole (d.opened next) (d.enclose body) a) :
    ∃ g t, Blank g ∧ body ++ d.right = g ++ t ∧ Whole next t a := by
  obtain ⟨t, ht, hblanks⟩ := whole_literal.mp h
  rw [enclose, List.append_cancel_left_eq] at ht
  subst ht
  obtain ⟨g, t, hg, ht, hn⟩ := whole_blanks hblanks
  exact ⟨g, t, hg, ht, hn⟩

/-- The end of a tag is blanks and the right delimiter; what is in front of it is the body. -/
theorem body_eq_of_closed (front : Text) {t : Text} {a : Unit} (h : body ++ d.right = front ++ t)
    (hc : Whole d.closed t a) : ∃ g, Blank g ∧ body = front ++ g := by
  obtain ⟨g, hg, rfl⟩ := whole_closed hc
  exact ⟨g, hg, List.append_cancel_right (by rw [h, List.append_assoc])⟩

/-! ## The shape of each tag -/

theorem whole_chain {s chain : Text} (h : Whole d.chain s chain) :
    ∃ t, s = t ++ d.right := by
  obtain ⟨⟨c, u⟩, hblanks, rfl⟩ := whole_map.mp h
  obtain ⟨g, t, -, rfl, hfew⟩ := whole_blanks hblanks
  obtain ⟨t, rfl, -, hc⟩ := whole_fewest hfew
  obtain ⟨g', -, rfl⟩ := whole_closed hc
  exact ⟨g ++ (c ++ g'), by simp⟩

/-- The tag of a value: a path, and then nothing or a bar. -/
theorem shape_variableTag (hd : d.Apart) (hb : d.Free body) {v : Variable}
    (h : reading d d.variableTag body = some v) :
    ∃ g g' rest, Blank g ∧ Blank g' ∧ IsPath v.path ∧ body = g ++ (v.path ++ (g' ++ rest)) ∧
      (rest = [] ∨ rest.head? = some '|') := by
  obtain ⟨⟨p, chain?⟩, hw, rfl⟩ := whole_map.mp (whole_of_reading (delimited_variableTag hd) hb h)
  obtain ⟨g, t, hg, ht, hpath⟩ := whole_opened hw
  obtain ⟨t, rfl, hp, hblanks⟩ := whole_path hpath
  obtain ⟨g', t, hg', rfl, hor⟩ := whole_blanks hblanks
  rcases whole_orElse hor with hchain | hclosed
  · obtain ⟨c, hc, -⟩ := whole_map.mp hchain
    obtain ⟨t, rfl, hrest⟩ := whole_literal.mp hc
    obtain ⟨u, rfl⟩ := whole_chain hrest
    refine ⟨g, g', '|' :: u, hg, hg', hp, ?_, .inr rfl⟩
    exact (List.append_left_inj d.right).mp (by rw [ht]; simp)
  · obtain ⟨c, hc, -⟩ := whole_map.mp hclosed
    obtain ⟨g'', hg'', hbody⟩ := body_eq_of_closed (g ++ (p ++ g')) (by rw [ht]; simp) hc
    exact ⟨g, g' ++ g'', [], hg, hg'.append hg'', hp, by rw [hbody]; simp, .inl rfl⟩

/-- The opening tag of a legacy loop: a path. -/
theorem shape_legacyOpening (hd : d.Apart) (hb : d.Free body) {head : LoopHead}
    (h : reading d d.legacyOpening body = some head) :
    ∃ g g', Blank g ∧ Blank g' ∧ IsPath head.path ∧ body = g ++ (head.path ++ g') := by
  obtain ⟨⟨p, u⟩, hw, rfl⟩ := whole_map.mp (whole_of_reading (delimited_legacyOpening hd) hb h)
  obtain ⟨g, t, hg, ht, hpath⟩ := whole_opened hw
  obtain ⟨t, rfl, hp, hc⟩ := whole_path hpath
  obtain ⟨g', hg', hbody⟩ := body_eq_of_closed (g ++ p) (by rw [ht]; simp) hc
  exact ⟨g, g', hg, hg', hp, by rw [hbody]; simp⟩

/-- The closing tag of a legacy loop: a slash and a path. -/
theorem shape_legacyClosing (hd : d.Apart) (hb : d.Free body) {path : Text}
    (h : reading d d.legacyClosing body = some path) :
    ∃ g rest, Blank g ∧ body = g ++ '/' :: rest := by
  obtain ⟨⟨p, u⟩, hw, rfl⟩ := whole_map.mp (whole_of_reading (delimited_legacyClosing hd) hb h)
  obtain ⟨g, t, hg, ht, hlit⟩ := whole_opened hw
  obtain ⟨t, rfl, hblanks⟩ := whole_literal.mp hlit
  obtain ⟨g', t, hg', rfl, hpath⟩ := whole_blanks hblanks
  obtain ⟨t, rfl, hp, hc⟩ := whole_path hpath
  obtain ⟨g'', hg'', hbody⟩ := body_eq_of_closed (g ++ '/' :: (g' ++ p))
    (by rw [ht]; simp) hc
  exact ⟨g, g' ++ (p ++ g''), hg, by rw [hbody]; simp⟩

/-- The opening tag of a bound loop: a name, a word, and a path, with blanks in between. -/
theorem shape_loopOpening (hd : d.Apart) (hb : d.Free body) {head : LoopHead}
    (h : reading d d.loopOpening body = some head) :
    ∃ g c name gap gap' g', Blank g ∧ isNameStart c = true ∧ (∀ x ∈ name, isWordChar x = true) ∧
      Blank gap ∧ gap ≠ [] ∧ Blank gap' ∧ gap' ≠ [] ∧ Blank g' ∧ IsPath head.path ∧
      body = g ++ (c :: name ++ (gap ++ ("in".toList ++ (gap' ++ (head.path ++ g'))))) ∧
      head.form = .bound (String.ofList (c :: name)) := by
  obtain ⟨⟨n, p, u⟩, hw, rfl⟩ := whole_map.mp (whole_of_reading (delimited_loopOpening hd) hb h)
  obtain ⟨g, t, hg, ht, hlead⟩ := whole_opened hw
  obtain ⟨c, name, t, rfl, rfl, hc, hname, hblanks⟩ := whole_leading hlead
  obtain ⟨gap, t, hgap, hne, rfl, hlit⟩ := whole_someBlanks hblanks
  obtain ⟨t, rfl, hblanks'⟩ := whole_literal.mp hlit
  obtain ⟨gap', t, hgap', hne', rfl, hpath⟩ := whole_someBlanks hblanks'
  obtain ⟨t, rfl, hp, hclosed⟩ := whole_path hpath
  obtain ⟨g', hg', hbody⟩ := body_eq_of_closed
    (g ++ (c :: name ++ (gap ++ ("in".toList ++ (gap' ++ p))))) (by rw [ht]; simp) hclosed
  exact ⟨g, c, name, gap, gap', g', hg, hc, hname, hgap, hne, hgap', hne', hg', hp,
    by rw [hbody]; simp, rfl⟩

/-! ## The characters of paths -/

theorem isBlank_eq_false_of_isNameChar {c : Char} (h : isNameChar c = true) :
    isBlank c = false := by
  simp only [isNameChar, isLetter, isDigit, Bool.or_eq_true, Bool.and_eq_true, decide_eq_true_eq,
    Char.le_def, UInt32.le_iff_toNat_le] at h
  have hn : ∀ n, n = c.toNat → (0x30 ≤ n ∧ n ≤ 0x7A) → isBlank c = false := by
    intro n hn hr
    simp only [isBlank, ← hn, Bool.or_eq_false_iff, Bool.and_eq_false_iff, beq_eq_false_iff_ne,
      decide_eq_false_iff_not]
    omega
  refine hn _ rfl ?_
  have htoNat : c.val.toNat = c.toNat := rfl
  rcases h with (((h | h) | h) | rfl)
  · have h1 : 'a'.val.toNat = 97 := rfl
    have h2 : 'z'.val.toNat = 122 := rfl
    omega
  · have h1 : 'A'.val.toNat = 65 := rfl
    have h2 : 'Z'.val.toNat = 90 := rfl
    omega
  · have h1 : '0'.val.toNat = 48 := rfl
    have h2 : '9'.val.toNat = 57 := rfl
    omega
  · decide

/-- The characters of a path. -/
theorem char_of_isPath {p : Text} (hp : IsPath p) {c : Char} (hc : c ∈ p) :
    isNameChar c = true ∨ c = '.' ∨ c = '-' ∨ c = '>' := by
  obtain ⟨x, t, rfl, hx, ht⟩ := hp
  rcases List.mem_cons.mp hc with rfl | hmem
  · exact .inl (isNameChar_of_isNameStart hx)
  · clear hc hx
    induction ht with
    | nil => exact absurd hmem (by simp)
    | step hw ht ih =>
      rcases List.mem_append.mp hmem with hc | hc
      · obtain ⟨y, hy, rfl | rfl | rfl⟩ := hw
        · obtain rfl := List.mem_singleton.mp hc
          exact .inl hy
        · rcases List.mem_cons.mp hc with rfl | hc
          · exact .inr (.inl rfl)
          · obtain rfl := List.mem_singleton.mp hc
            exact .inl hy
        · rcases List.mem_cons.mp hc with rfl | hc
          · exact .inr (.inr (.inl rfl))
          · rcases List.mem_cons.mp hc with rfl | hc
            · exact .inr (.inr (.inr rfl))
            · obtain rfl := List.mem_singleton.mp hc
              exact .inl hy
      · exact ih hc

/-- There are no blanks in a path. -/
theorem not_blank_of_isPath {p : Text} (hp : IsPath p) {c : Char} (hc : c ∈ p) :
    isBlank c = false := by
  rcases char_of_isPath hp hc with h | rfl | rfl | rfl
  · exact isBlank_eq_false_of_isNameChar h
  · decide
  · decide
  · decide

theorem free_of_isPath (hd : d.Apart) {p : Text} (hp : IsPath p) : d.Free p := by
  refine hd.free_of_tagChar fun c hc => ?_
  rcases char_of_isPath hp hc with h | rfl | rfl | rfl
  · simp [isTagChar, isWordChar_of_isNameChar h]
  · decide
  · decide
  · decide

/-! ## The word a tag starts with -/

/-- The word that a tag starts with. -/
def leadingWord (body : Text) : Text := (body.dropWhile isBlank).takeWhile isWordChar

theorem dropWhile_blank {g s : Text} (hg : Blank g) (hs : s.head?.any isBlank = false) :
    (g ++ s).dropWhile isBlank = s := by
  rw [List.dropWhile_append_of_pos hg]
  cases s with
  | nil => rfl
  | cons c s => rw [List.dropWhile_cons_of_neg (by simpa using hs)]

theorem leadingWord_eq {g w rest : Text} {c : Char} (hg : Blank g) (hc : isNameChar c = true)
    (hw : ∀ x ∈ w, isWordChar x = true) (hrest : rest.head?.any isWordChar = false) :
    leadingWord (g ++ (c :: w ++ rest)) = c :: w := by
  have hword : ∀ x ∈ c :: w, isWordChar x = true :=
    List.forall_mem_cons.mpr ⟨isWordChar_of_isNameChar hc, hw⟩
  rw [leadingWord, dropWhile_blank hg (by simpa using isBlank_eq_false_of_isNameChar hc),
    List.takeWhile_append_of_pos hword]
  cases rest with
  | nil => simp
  | cons x rest => rw [List.takeWhile_cons_of_neg (by simpa using hrest), List.append_nil]

/-- The code points of blanks. -/
def blankPoints : List Nat :=
  [0x20, 0x85, 0xA0, 0x1680, 0x2028, 0x2029, 0x202F, 0x205F, 0x3000] ++ List.range' 0x09 5 ++
    List.range' 0x2000 11

theorem isWordChar_eq_false_of_isBlank {c : Char} (h : isBlank c = true) :
    isWordChar c = false := by
  have hpoint : c.toNat ∈ blankPoints := by
    simp only [isBlank, Bool.or_eq_true, Bool.and_eq_true, beq_iff_eq, decide_eq_true_eq] at h
    simp only [blankPoints, List.mem_append, List.mem_cons, List.not_mem_nil, List.mem_range'_1]
    omega
  have htable : ∀ n ∈ blankPoints, (0x7F < n && inRanges Text.wordRanges n) = false := by
    decide +kernel
  have hname : isNameChar c = false := by
    cases hn : isNameChar c with
    | false => rfl
    | true => exact absurd h (by simp [isBlank_eq_false_of_isNameChar hn])
  rw [isWordChar, hname, htable _ hpoint]
  rfl

theorem not_word_of_blank {g t : Text} (hg : Blank g) (hne : g ≠ []) :
    (g ++ t).head?.any isWordChar = false := by
  obtain ⟨c, g, rfl⟩ := List.exists_cons_of_ne_nil hne
  simpa using isWordChar_eq_false_of_isBlank (hg c (by simp))

/-- What stands right behind the word that a tag starts with. -/
def afterWord (body : Text) : Text := (body.dropWhile isBlank).dropWhile isWordChar

/-- What stands behind the word that a tag starts with, blanks apart. -/
def behindWord (body : Text) : Text := (afterWord body).dropWhile isBlank

theorem afterWord_eq {g w rest : Text} {c : Char} (hg : Blank g) (hc : isNameChar c = true)
    (hw : ∀ x ∈ w, isWordChar x = true) (hrest : rest.head?.any isWordChar = false) :
    afterWord (g ++ (c :: w ++ rest)) = rest := by
  have hall : ∀ x ∈ c :: w, isWordChar x = true :=
    List.forall_mem_cons.mpr ⟨isWordChar_of_isNameChar hc, hw⟩
  rw [afterWord, dropWhile_blank hg (by simpa using isBlank_eq_false_of_isNameChar hc),
    List.dropWhile_append_of_pos hall]
  cases rest with
  | nil => rfl
  | cons x t => rw [List.dropWhile_cons_of_neg (by simpa using hrest)]

theorem behindWord_eq {g w gap rest : Text} {c : Char} (hg : Blank g) (hc : isNameChar c = true)
    (hw : ∀ x ∈ w, isWordChar x = true) (hgap : Blank gap)
    (hword : (gap ++ rest).head?.any isWordChar = false) (hrest : rest.head?.any isBlank = false) :
    behindWord (g ++ (c :: w ++ (gap ++ rest))) = rest := by
  rw [behindWord, afterWord_eq hg hc hw hword, dropWhile_blank hgap hrest]

/-- A path starts with a word; it ends there, or goes on with a separator. -/
theorem IsPath.word {p : Text} (h : IsPath p) :
    ∃ c w rest, p = c :: w ++ rest ∧ isNameChar c = true ∧ (∀ x ∈ w, isNameChar x = true) ∧
      (rest = [] ∨ rest.head? = some '.' ∨ ∃ t, rest = '-' :: '>' :: t) := by
  obtain ⟨c, t, rfl, hc, ht⟩ := h
  suffices hword : ∃ w rest, t = w ++ rest ∧ (∀ x ∈ w, isNameChar x = true) ∧
      (rest = [] ∨ rest.head? = some '.' ∨ ∃ t, rest = '-' :: '>' :: t) by
    obtain ⟨w, rest, rfl, hw, hrest⟩ := hword
    exact ⟨c, w, rest, rfl, isNameChar_of_isNameStart hc, hw, hrest⟩
  clear hc
  induction ht with
  | nil => exact ⟨[], [], rfl, by simp, .inl rfl⟩
  | step hstep ht ih =>
    obtain ⟨x, hx, rfl | rfl | rfl⟩ := hstep
    · obtain ⟨w, rest, rfl, hw, hrest⟩ := ih
      exact ⟨x :: w, rest, rfl, List.forall_mem_cons.mpr ⟨hx, hw⟩, hrest⟩
    · exact ⟨[], _, rfl, by simp, .inr (.inl rfl)⟩
    · exact ⟨[], _, rfl, by simp, .inr (.inr ⟨_, rfl⟩)⟩

/-- A body that starts with a path starts with the word of the path. -/
theorem IsPath.words {p : Text} (h : IsPath p) :
    ∃ w rest, p = w ++ rest ∧ w ≠ [] ∧ w.all isNameChar = true ∧
      (rest = [] ∨ rest.head? = some '.' ∨ ∃ t, rest = '-' :: '>' :: t) ∧
      ∀ {g tail : Text}, Blank g → tail.head?.any isWordChar = false →
        leadingWord (g ++ (p ++ tail)) = w ∧ afterWord (g ++ (p ++ tail)) = rest ++ tail := by
  obtain ⟨c, w, rest, rfl, hc, hw, hrest⟩ := IsPath.word h
  refine ⟨c :: w, rest, rfl, by simp, by simpa [hc] using hw, hrest, fun {g tail} hg htail => ?_⟩
  have hword : ∀ x ∈ w, isWordChar x = true := fun x hx => isWordChar_of_isNameChar (hw x hx)
  have hnext : (rest ++ tail).head?.any isWordChar = false := by
    rcases hrest with rfl | hpoint | ⟨t, rfl⟩
    · exact htail
    · rw [List.head?_append, hpoint, Option.some_or, Option.any_some]
      decide
    · rw [List.cons_append, List.head?_cons, Option.any_some]
      decide
  rw [List.append_assoc]
  exact ⟨leadingWord_eq hg hc hword hnext, afterWord_eq hg hc hword hnext⟩

/-- A body that starts with a path starts with a word that is all of the path, or that a separator
follows. -/
theorem words_of_path {g p tail : Text} (hg : Blank g) (hp : IsPath p)
    (htail : tail.head?.any isWordChar = false) :
    (leadingWord (g ++ (p ++ tail)) = p ∧ afterWord (g ++ (p ++ tail)) = tail) ∨
      (afterWord (g ++ (p ++ tail))).head? = some '.' ∨
      (afterWord (g ++ (p ++ tail))).head? = some '-' := by
  obtain ⟨w, rest, hsplit, -, -, hrest, hwords⟩ := IsPath.words hp
  obtain ⟨hleading, hafter⟩ := hwords hg htail
  rw [hleading, hafter]
  rcases hrest with rfl | hpoint | ⟨t, rfl⟩
  · exact .inl ⟨by rw [hsplit, List.append_nil], rfl⟩
  · exact .inr (.inl (by rw [List.head?_append, hpoint, Option.some_or]))
  · exact .inr (.inr rfl)

/-- Neither blanks nor filters start with a word character. -/
theorem not_word_of_rest {g rest : Text} (hg : Blank g)
    (hrest : rest = [] ∨ rest.head? = some '|') :
    (g ++ rest).head?.any isWordChar = false := by
  cases g with
  | cons x g => exact not_word_of_blank hg (by simp)
  | nil =>
    rcases hrest with rfl | hrest
    · rfl
    · rw [List.nil_append, hrest]
      decide

/-- Behind the path of a variable tag stands nothing, or its filters. -/
theorem words_variableTag (hd : d.Apart) (hb : d.Free body) {v : Variable}
    (h : reading d d.variableTag body = some v) :
    (leadingWord body = v.path ∧
        (behindWord body = [] ∨ (behindWord body).head? = some '|')) ∨
      (afterWord body).head? = some '.' ∨ (afterWord body).head? = some '-' := by
  obtain ⟨g, g', rest, hg, hg', hp, rfl, hrest⟩ := shape_variableTag hd hb h
  rcases words_of_path hg hp (not_word_of_rest hg' hrest) with ⟨hword, hafter⟩ | hsep
  · refine .inl ⟨hword, ?_⟩
    rw [behindWord, hafter]
    rcases hrest with rfl | hrest
    · left
      exact dropWhile_blank hg' rfl
    · right
      rw [dropWhile_blank hg' (by rw [hrest]; decide), hrest]
  · exact .inr hsep

/-! ## Words that grammars fix -/

theorem afterWord_fixed {g w rest : Text} (hg : Blank g) (hw : w.all isNameChar = true)
    (hne : w ≠ []) (hrest : rest.head?.any isWordChar = false) :
    afterWord (g ++ (w ++ rest)) = rest := by
  obtain ⟨c, w, rfl⟩ := List.exists_cons_of_ne_nil hne
  simp only [List.all_cons, Bool.and_eq_true, List.all_eq_true] at hw
  exact afterWord_eq hg hw.1 (fun x hx => isWordChar_of_isNameChar (hw.2 x hx)) hrest

theorem leadingWord_fixed {g w rest : Text} (hg : Blank g) (hw : w.all isNameChar = true)
    (hne : w ≠ []) (hrest : rest.head?.any isWordChar = false) :
    leadingWord (g ++ (w ++ rest)) = w := by
  obtain ⟨c, w, rfl⟩ := List.exists_cons_of_ne_nil hne
  simp only [List.all_cons, Bool.and_eq_true, List.all_eq_true] at hw
  exact leadingWord_eq hg hw.1 (fun x hx => isWordChar_of_isNameChar (hw.2 x hx)) hrest

/-- Behind a keyword, what follows on the line is taken without the blanks around it. -/
theorem whole_keyword {word s m : Text} (h : Whole (d.keyword word) s m) :
    ∃ gap g', Blank gap ∧ Blank g' ∧ '\n' ∉ m ∧ s = word ++ (gap ++ (m ++ g') ++ d.right) ∧
      (gap ++ (m ++ g')).head?.any isWordChar = false := by
  obtain ⟨⟨m, u⟩, hlit, rfl⟩ := whole_map.mp h
  obtain ⟨t, rfl, hend⟩ := whole_literal.mp hlit
  obtain ⟨hword, hblanks⟩ := whole_wordEnd hend
  obtain ⟨gap, t, hgap, rfl, hfew⟩ := whole_blanks hblanks
  obtain ⟨t, rfl, hinline, hc⟩ := whole_fewest hfew
  obtain ⟨g', hg', rfl⟩ := whole_closed hc
  refine ⟨gap, g', hgap, hg', fun hmem => ?_, by simp, ?_⟩
  · exact absurd (hinline _ hmem) (by simp [isInline])
  · cases hs : gap ++ (m ++ g') with
    | nil => rfl
    | cons x t =>
      rw [show gap ++ (m ++ (g' ++ d.right)) = x :: t ++ d.right by rw [← hs]; simp] at hword
      simpa using hword

/-- The tag of a conditional: one of four words, and what follows on the line. -/
theorem shape_conditionalTag (hd : d.Apart) (hb : d.Free body) {c : Conditional}
    (h : reading d d.conditionalTag body = some c) :
    ∃ g word gap m g', word ∈ ["elseif", "else", "endif", "if"].map String.toList ∧ Blank g ∧
      Blank gap ∧ Blank g' ∧ '\n' ∉ m ∧ (gap ++ (m ++ g')).head?.any isWordChar = false ∧
      body = g ++ (word ++ (gap ++ (m ++ g'))) := by
  obtain ⟨g, t, hg, ht, hor⟩ := whole_opened (whole_of_reading (delimited_conditionalTag hd) hb h)
  -- whichever keyword it is
  obtain ⟨word, m, hword, hk⟩ : ∃ word m, word ∈
      ["elseif", "else", "endif", "if"].map String.toList ∧ Whole (d.keyword word) t m := by
    rcases whole_orElse hor with hk | hor
    · obtain ⟨m, hk, -⟩ := whole_map.mp hk
      exact ⟨_, m, by simp, hk⟩
    rcases whole_orElse hor with hk | hor
    · obtain ⟨m, hk, -⟩ := whole_map.mp hk
      exact ⟨_, m, by simp, hk⟩
    rcases whole_orElse hor with hk | hk
    · obtain ⟨m, hk, -⟩ := whole_map.mp hk
      exact ⟨_, m, by simp, hk⟩
    · obtain ⟨m, hk, -⟩ := whole_map.mp hk
      exact ⟨_, m, by simp, hk⟩
  obtain ⟨gap, g', hgap, hg', hm, rfl, hend⟩ := whole_keyword hk
  refine ⟨g, word, gap, m, g', hword, hg, hgap, hg', hm, hend, ?_⟩
  exact (List.append_left_inj d.right).mp (by rw [ht]; simp)

theorem leadingWord_conditionalTag (hd : d.Apart) (hb : d.Free body) {c : Conditional}
    (h : reading d d.conditionalTag body = some c) :
    leadingWord body ∈ ["elseif", "else", "endif", "if"].map String.toList := by
  obtain ⟨g, word, gap, m, g', hword, hg, -, -, -, hend, rfl⟩ := shape_conditionalTag hd hb h
  have hname : ∀ w ∈ ["elseif", "else", "endif", "if"].map String.toList,
      w.all isNameChar = true ∧ w ≠ [] := by decide
  rw [leadingWord_fixed hg (hname word hword).1 (hname word hword).2 hend]
  exact hword

/-- The closing tag of a bound loop: a word and a path. -/
theorem shape_loopClosing (hd : d.Apart) (hb : d.Free body) {path : Text}
    (h : reading d d.loopClosing body = some path) :
    ∃ g gap g', Blank g ∧ Blank gap ∧ gap ≠ [] ∧ Blank g' ∧ IsPath path ∧
      body = g ++ ("end".toList ++ (gap ++ (path ++ g'))) := by
  obtain ⟨⟨p, u⟩, hw, rfl⟩ := whole_map.mp (whole_of_reading (delimited_loopClosing hd) hb h)
  obtain ⟨g, t, hg, ht, hlit⟩ := whole_opened hw
  obtain ⟨t, rfl, hblanks⟩ := whole_literal.mp hlit
  obtain ⟨gap, t, hgap, hne, rfl, hpath⟩ := whole_someBlanks hblanks
  obtain ⟨t, rfl, hp, hc⟩ := whole_path hpath
  obtain ⟨g', hg', hbody⟩ := body_eq_of_closed
    (g ++ ("end".toList ++ (gap ++ p))) (by rw [ht]; simp) hc
  exact ⟨g, gap, g', hg, hgap, hne, hg', hp, by rw [hbody]; simp⟩

theorem leadingWord_loopClosing (hd : d.Apart) (hb : d.Free body) {path : Text}
    (h : reading d d.loopClosing body = some path) : leadingWord body = "end".toList := by
  obtain ⟨g, gap, g', hg, hgap, hne, -, -, rfl⟩ := shape_loopClosing hd hb h
  exact leadingWord_fixed hg (by decide) (by decide) (not_word_of_blank hgap hne)

/-- The opening tag of a block: a word, and a name behind blanks. -/
theorem shape_blockOpening (hd : d.Apart) (hb : d.Free body) {name : String}
    (h : reading d d.blockOpening body = some name) :
    ∃ g gap c name g', Blank g ∧ Blank gap ∧ gap ≠ [] ∧ Blank g' ∧
      (∀ x ∈ c :: name, isBlockNameChar x = true) ∧
      body = g ++ ("block".toList ++ (gap ++ (c :: name ++ g'))) := by
  obtain ⟨⟨n, u⟩, hw, rfl⟩ := whole_map.mp (whole_of_reading (delimited_blockOpening hd) hb h)
  obtain ⟨g, t, hg, ht, hlit⟩ := whole_opened hw
  obtain ⟨t, rfl, hblanks⟩ := whole_literal.mp hlit
  obtain ⟨gap, t, hgap, hne, rfl, hname⟩ := whole_someBlanks hblanks
  obtain ⟨c, w, t, rfl, rfl, hfirst, hname, hc⟩ := whole_leading hname
  obtain ⟨g', hg', hbody⟩ := body_eq_of_closed
    (g ++ ("block".toList ++ (gap ++ (c :: w)))) (by rw [ht]; simp) hc
  exact ⟨g, gap, c, w, g', hg, hgap, hne, hg', List.forall_mem_cons.mpr ⟨hfirst, hname⟩,
    by rw [hbody]; simp⟩

/-- The closing tag of a block: a word, and nothing or something behind blanks. -/
theorem shape_blockClosing (hd : d.Apart) (hb : d.Free body) {u : Unit}
    (h : reading d d.blockClosing body = some u) :
    ∃ g gap t, Blank g ∧ Blank gap ∧ (gap ≠ [] ∨ t = []) ∧
      body = g ++ ("endblock".toList ++ (gap ++ t)) := by
  obtain ⟨g, t, hg, ht, hlit⟩ :=
    whole_opened (whole_of_reading (delimited_blockClosing hd) hb h)
  obtain ⟨t, rfl, hor⟩ := whole_literal.mp hlit
  rcases whole_orElse hor with hblanks | hc
  · obtain ⟨gap, t, hgap, hne, rfl, hname⟩ := whole_someBlanks hblanks
    obtain ⟨⟨n, v⟩, hname, -⟩ := whole_map.mp hname
    obtain ⟨c, w, t, rfl, rfl, -, -, hc⟩ := whole_leading hname
    obtain ⟨g', hg', hbody⟩ := body_eq_of_closed
      (g ++ ("endblock".toList ++ (gap ++ (c :: w)))) (by rw [ht]; simp) hc
    exact ⟨g, gap, c :: w ++ g', hg, hgap, .inl hne, by rw [hbody]; simp⟩
  · obtain ⟨g', hg', hbody⟩ := body_eq_of_closed (g ++ "endblock".toList)
      (by rw [ht]; simp) hc
    exact ⟨g, g', [], hg, hg', .inr rfl, by rw [hbody]; simp⟩

theorem not_word_of_gap {gap t : Text} (hgap : Blank gap) (h : gap ≠ [] ∨ t = []) :
    (gap ++ t).head?.any isWordChar = false := by
  cases gap with
  | cons c gap => exact not_word_of_blank hgap (by simp)
  | nil =>
    rcases h with h | rfl
    · exact absurd rfl h
    · rfl

theorem leadingWord_blockOpening (hd : d.Apart) (hb : d.Free body) {name : String}
    (h : reading d d.blockOpening body = some name) : leadingWord body = "block".toList := by
  obtain ⟨g, gap, c, name, g', hg, hgap, hne, -, -, rfl⟩ := shape_blockOpening hd hb h
  exact leadingWord_fixed hg (by decide) (by decide) (not_word_of_blank hgap hne)

theorem leadingWord_blockClosing (hd : d.Apart) (hb : d.Free body) {u : Unit}
    (h : reading d d.blockClosing body = some u) : leadingWord body = "endblock".toList := by
  obtain ⟨g, gap, t, hg, hgap, hne, rfl⟩ := shape_blockClosing hd hb h
  exact leadingWord_fixed hg (by decide) (by decide) (not_word_of_gap hgap hne)

/-- A template name stands behind a colon. -/
theorem whole_templateName {s : Text} {name : String} (h : Whole d.templateName s name) :
    ∃ gap rest, Blank gap ∧ s = gap ++ ':' :: (rest ++ d.right) := by
  obtain ⟨⟨n, u⟩, hblanks, -⟩ := whole_map.mp h
  obtain ⟨gap, t, hgap, rfl, hlit⟩ := whole_blanks hblanks
  obtain ⟨t, rfl, hrest⟩ := whole_literal.mp hlit
  obtain ⟨gap', t, hgap', rfl, hname⟩ := whole_blanks hrest
  obtain ⟨c, w, t, rfl, rfl, -, -, hc⟩ := whole_leading hname
  obtain ⟨g', hg', rfl⟩ := whole_closed hc
  exact ⟨gap, gap' ++ (c :: w ++ g'), hgap, by simp⟩

/-- A tag that names a template: a word, and a colon behind it. -/
def Names (body word : Text) : Prop :=
  leadingWord body = word ∧ (behindWord body).head? = some ':'

theorem names_of_whole {g t word : Text} {name : String} (hg : Blank g)
    (hw : word.all isNameChar = true) (hne : word ≠ []) (ht : body ++ d.right = g ++ (word ++ t))
    (h : Whole d.templateName t name) : Names body word := by
  obtain ⟨gap, rest, hgap, rfl⟩ := whole_templateName h
  have hbody : body = g ++ (word ++ (gap ++ ':' :: rest)) :=
    (List.append_left_inj d.right).mp (by rw [ht]; simp)
  have hcolon : (gap ++ ':' :: rest).head?.any isWordChar = false := by
    cases gap with
    | nil =>
      have : isWordChar ':' = false := by decide
      simpa using this
    | cons x gap => exact not_word_of_blank hgap (by simp)
  obtain ⟨c, w, rfl⟩ := List.exists_cons_of_ne_nil hne
  have hw' := hw
  simp only [List.all_cons, Bool.and_eq_true, List.all_eq_true] at hw'
  refine ⟨by rw [hbody]; exact leadingWord_fixed hg hw hne hcolon, ?_⟩
  have hblank : isBlank ':' = false := by decide
  rw [hbody, behindWord_eq hg hw'.1 (fun x hx => isWordChar_of_isNameChar (hw'.2 x hx)) hgap hcolon
    (by simpa using hblank)]
  rfl

theorem names_includeTag (hd : d.Apart) (hb : d.Free body) {name : String}
    (h : reading d d.includeTag body = some name) : Names body "include".toList := by
  obtain ⟨g, t, hg, ht, hlit⟩ := whole_opened (whole_of_reading (delimited_includeTag hd) hb h)
  obtain ⟨t, rfl, hname⟩ := whole_literal.mp hlit
  exact names_of_whole hg (by decide) (by decide) ht hname

theorem names_baseTag (hd : d.Apart) (hb : d.Free body) {name : String}
    (h : reading d d.baseTag body = some name) :
    Names body "extends".toList ∨ Names body "extend".toList := by
  obtain ⟨g, t, hg, ht, hlit⟩ := whole_opened (whole_of_reading (delimited_baseTag hd) hb h)
  obtain ⟨t, rfl, hor⟩ := whole_literal.mp hlit
  rcases whole_orElse hor with hs | hname
  · obtain ⟨t, rfl, hname⟩ := whole_literal.mp hs
    exact .inl (names_of_whole hg (by decide) (by decide) (by rw [ht]; simp) hname)
  · exact .inr (names_of_whole hg (by decide) (by decide) ht hname)

/-- The tags of composition. -/
def IsComposition (d : Delimiters) (body : Text) : Prop :=
  (∃ name, reading d d.includeTag body = some name) ∨
    (∃ name, reading d d.baseTag body = some name) ∨
    (∃ name, reading d d.blockOpening body = some name) ∨
    reading d d.blockClosing body = some ()

/-- Where a word of a value is followed by a gap, it is the whole path. -/
theorem path_eq_of_gap (hd : d.Apart) (hb : d.Free body) {v : Variable}
    (h : reading d d.variableTag body = some v) {g word gap t : Text} (hg : Blank g)
    (hw : word.all isNameChar = true) (hne : word ≠ []) (hgap : Blank gap)
    (hend : gap ≠ [] ∨ t = []) (hbody : body = g ++ (word ++ (gap ++ t))) : v.path = word := by
  have hword := leadingWord_fixed hg hw hne (not_word_of_gap hgap hend)
  have hafter := afterWord_fixed hg hw hne (not_word_of_gap hgap hend)
  rw [← hbody] at hword hafter
  have hfirst : ∀ x, (afterWord body).head? = some x → isBlank x = true := by
    intro x hx
    rw [hafter] at hx
    cases gap with
    | cons y gap =>
      obtain rfl : y = x := by simpa using hx
      exact hgap y (by simp)
    | nil =>
      rcases hend with h | rfl
      · exact absurd rfl h
      · exact absurd hx (by simp)
  rcases words_variableTag hd hb h with ⟨hpath, -⟩ | hdot | hdash
  · rw [← hpath, hword]
  · exact absurd (hfirst _ hdot) (by decide)
  · exact absurd (hfirst _ hdash) (by decide)

/-- No colon stands behind the word of a value. -/
theorem not_names_of_value (hd : d.Apart) (hb : d.Free body) {v : Variable}
    (h : reading d d.variableTag body = some v) (word : Text) : ¬ Names body word := by
  rintro ⟨-, hcolon⟩
  rcases words_variableTag hd hb h with ⟨-, hnil | hbar⟩ | hdot | hdash
  · rw [hnil] at hcolon
    exact absurd hcolon (by simp)
  · rw [hbar] at hcolon
    exact absurd hcolon (by decide)
  · obtain ⟨t, ht⟩ := List.head?_eq_some_iff.mp hdot
    rw [behindWord, ht, List.dropWhile_cons_of_neg (by decide)] at hcolon
    exact absurd hcolon (by simp)
  · obtain ⟨t, ht⟩ := List.head?_eq_some_iff.mp hdash
    rw [behindWord, ht, List.dropWhile_cons_of_neg (by decide)] at hcolon
    exact absurd hcolon (by simp)

/-- A tag of composition is not the tag of a value. -/
theorem reserved_of_composition (hd : d.Apart) (hb : d.Free body) (hc : d.IsComposition body)
    {v : Variable} (h : reading d d.variableTag body = some v) : v.path ∈ reservedWords := by
  have hnames := not_names_of_value hd hb h
  -- behind the word of a block tag there is a gap, so the word is the path
  rcases hc with ⟨name, hr⟩ | ⟨name, hr⟩ | ⟨name, hr⟩ | hr
  · exact absurd (names_includeTag hd hb hr) (hnames _)
  · rcases names_baseTag hd hb hr with hn | hn
    · exact absurd hn (hnames _)
    · exact absurd hn (hnames _)
  · obtain ⟨g, gap, c, name, g', hg, hgap, hne, -, -, hbody⟩ := shape_blockOpening hd hb hr
    rw [path_eq_of_gap hd hb h hg (by decide) (by decide) hgap (.inl hne) hbody]
    decide
  · obtain ⟨g, gap, t, hg, hgap, hne, hbody⟩ := shape_blockClosing hd hb hr
    rw [path_eq_of_gap hd hb h hg (by decide) (by decide) hgap hne hbody]
    decide

end Delimiters

end Stencil
