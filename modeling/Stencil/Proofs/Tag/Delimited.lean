import Stencil.Tag.Syntax
import Stencil.Template.Protection

/-!
# Tags end where they are closed

Every tag but the protected region is one left delimiter, a body, and one right delimiter. If the
delimiters are written with characters that the grammars have no place for, a recognizer cannot
read past the right delimiter of the tag it stands on: whether it succeeds, what it takes and what
that means are settled by the body alone, whatever text comes behind.

The argument goes through the recognizers from the outside in. `Bounded` says it of what is left
of a tag once some of its body has been read, and has one lemma for each way of putting
recognizers together. `Delimited` says it of a whole tag, and holds of every grammar.
-/

namespace Stencil

/-- A character that tags are written with. -/
def isTagChar (c : Char) : Bool :=
  isWordChar c || isBlank c || c = '.' || c = '-' || c = '>' || c = '/' || c = ':' || c = '|'

theorem isNameChar_eq_false_of_isTagChar {c : Char} (h : isTagChar c = false) :
    isNameChar c = false := by
  cases hn : isNameChar c with
  | false => rfl
  | true => simp [isTagChar, isWordChar_of_isNameChar hn] at h

namespace Delimiters

/-- The delimiters share no character, and are written with characters that occur neither in
tags nor in placeholders. -/
structure Apart (d : Delimiters) : Prop where
  /-- The left delimiter has no character of the right one. -/
  left_right : ∀ c ∈ d.left, c ∉ d.right
  /-- Tags are written without the characters of the left delimiter. -/
  left_tag : ∀ c ∈ d.left, isTagChar c = false
  /-- Tags are written without the characters of the right delimiter. -/
  right_tag : ∀ c ∈ d.right, isTagChar c = false
  /-- Placeholders open with no delimiter character. -/
  opener : ProtectedRegions.opener ∉ d.left ++ d.right
  /-- Placeholders close with no delimiter character. -/
  closer : ProtectedRegions.closer ∉ d.left ++ d.right

theorem apart_braces : braces.Apart where
  left_right := by simp [braces]
  left_tag := by
    simp only [braces, List.mem_singleton, forall_eq]
    decide
  right_tag := by
    simp only [braces, List.mem_singleton, forall_eq]
    decide
  opener := by simp [braces, ProtectedRegions.opener]
  closer := by simp [braces, ProtectedRegions.closer]

/-- A text without delimiter characters. -/
def Free (d : Delimiters) (s : Text) : Prop := ∀ c ∈ s, c ∉ d.left ∧ c ∉ d.right

/-- A body between the delimiters. -/
def enclose (d : Delimiters) (body : Text) : Text := d.left ++ (body ++ d.right)

variable {d : Delimiters}

instance (s : Text) : Decidable (d.Free s) :=
  List.decidableBAll (fun c => c ∉ d.left ∧ c ∉ d.right) s

theorem free_nil : d.Free [] := by
  intro c hc
  exact absurd hc (by simp)

theorem Free.head {c : Char} {s : Text} (h : d.Free (c :: s)) : c ∉ d.left ∧ c ∉ d.right :=
  h c (by simp)

theorem Free.tail {c : Char} {s : Text} (h : d.Free (c :: s)) : d.Free s :=
  fun x hx => h x (by simp [hx])

theorem free_append {s t : Text} : d.Free (s ++ t) ↔ d.Free s ∧ d.Free t := by
  constructor
  · intro h
    exact ⟨fun c hc => h c (by simp [hc]), fun c hc => h c (by simp [hc])⟩
  · rintro ⟨hs, ht⟩ c hc
    rcases List.mem_append.mp hc with h | h
    · exact hs c h
    · exact ht c h

theorem Apart.free_of_tagChar (hd : d.Apart) {s : Text} (h : ∀ c ∈ s, isTagChar c = true) :
    d.Free s := by
  intro c hc
  have ht := h c hc
  constructor
  · intro hl
    rw [hd.left_tag c hl] at ht
    exact absurd ht (by simp)
  · intro hr
    rw [hd.right_tag c hr] at ht
    exact absurd ht (by simp)

theorem Apart.free_of_blank (hd : d.Apart) {g : Text} (h : ∀ c ∈ g, isBlank c = true) : d.Free g :=
  hd.free_of_tagChar fun c hc => by simp [isTagChar, h c hc]

/-- The right delimiter starts with a character that no tag has. -/
theorem Apart.right_eq (hd : d.Apart) : ∃ c rest, d.right = c :: rest ∧ isTagChar c = false := by
  obtain ⟨c, rest, h⟩ := List.exists_cons_of_ne_nil d.right_ne_nil
  exact ⟨c, rest, h, hd.right_tag c (by simp [h])⟩

/-- A class without characters of the right delimiter. -/
def Within (d : Delimiters) (p : Char → Bool) : Prop := ∀ c ∈ d.right, p c = false

theorem Apart.within_word (hd : d.Apart) : d.Within isWordChar := by
  intro c hc
  have h := hd.right_tag c hc
  simp only [isTagChar, Bool.or_eq_false_iff] at h
  exact h.1.1.1.1.1.1.1

theorem Apart.within_blank (hd : d.Apart) : d.Within isBlank := by
  intro c hc
  have h := hd.right_tag c hc
  simp only [isTagChar, Bool.or_eq_false_iff] at h
  exact h.1.1.1.1.1.1.2

theorem Apart.within_nameStart (hd : d.Apart) : d.Within isNameStart := by
  intro c hc
  cases hn : isNameStart c with
  | false => rfl
  | true =>
    have hw := isWordChar_of_isNameChar (isNameChar_of_isNameStart hn)
    exact absurd (hd.within_word c hc) (by simp [hw])

/-- A word that tags are written with shares no character with the right delimiter. -/
theorem Apart.not_mem_right (hd : d.Apart) {w : Text} (h : w.all isTagChar = true) :
    ∀ c ∈ w, c ∉ d.right :=
  fun c hc => (hd.free_of_tagChar (fun x hx => List.all_eq_true.mp h x hx) c hc).2

end Delimiters

namespace Recognizer

open Delimiters

variable {α β : Type} {d : Delimiters} {next r q : Recognizer α} {body : Text}

/-! ## What is left of a tag -/

/-- What a recognizer finds in the rest of a tag does not depend on the text behind the tag, and
if it finds something, it takes the whole rest. -/
def Decided (d : Delimiters) (next : Recognizer α) (body : Text) : Prop :=
  (∀ rest, next (body ++ (d.right ++ rest)) = none) ∨
    ∃ a, ∀ rest, next (body ++ (d.right ++ rest)) = some (body ++ d.right, a)

/-- A recognizer that reads the rest of a tag, wherever the body has been left. -/
def Bounded (d : Delimiters) (next : Recognizer α) : Prop :=
  ∀ body, d.Free body → Decided d next body

theorem Decided.map {f : α → β} (h : Decided d next body) : Decided d (next.map f) body := by
  rcases h with h | ⟨a, h⟩
  · exact .inl fun rest => by rw [Recognizer.map, h rest]
  · exact .inr ⟨f a, fun rest => by rw [Recognizer.map, h rest]⟩

theorem Bounded.map {f : α → β} (h : Bounded d next) : Bounded d (next.map f) :=
  fun body hb => (h body hb).map

theorem Decided.orElse (hr : Decided d r body) (hq : Decided d q body) :
    Decided d (r.orElse q) body := by
  rcases hr with hr | ⟨a, hr⟩
  · rcases hq with hq | ⟨a, hq⟩
    · exact .inl fun rest => by rw [Recognizer.orElse, hr rest, hq rest]
    · exact .inr ⟨a, fun rest => by rw [Recognizer.orElse, hr rest, hq rest]⟩
  · exact .inr ⟨a, fun rest => by rw [Recognizer.orElse, hr rest]⟩

theorem Bounded.orElse (hr : Bounded d r) (hq : Bounded d q) : Bounded d (r.orElse q) :=
  fun body hb => (hr body hb).orElse (hq body hb)

theorem Decided.guard (b : Bool) (h : b = true → Decided d next body) :
    (∀ rest, (if b then next (body ++ (d.right ++ rest)) else none) = none) ∨
      ∃ a, ∀ rest, (if b then next (body ++ (d.right ++ rest)) else none) =
        some (body ++ d.right, a) := by
  cases b with
  | false => exact .inl fun rest => rfl
  | true => exact h rfl

theorem literal_append (w : Text) (next : Recognizer α) (s : Text) :
    literal w next (w ++ s) = (next s).map fun x => (w ++ x.1, x.2) := by
  rw [literal, Text.dropPrefix?_eq_some.mpr rfl]
  dsimp only
  cases next s with
  | none => rfl
  | some x => rfl

theorem literal_eq_none {w s : Text} (h : ¬ w <+: s) : literal w next s = none := by
  rw [literal]
  cases hs : s.dropPrefix? w with
  | none => rfl
  | some rest => exact absurd ⟨rest, (Text.dropPrefix?_eq_some.mp hs).symm⟩ h

/-- A keyword without characters of the right delimiter is found in the body or not at all. -/
theorem prefix_body {w rest : Text} (hw : ∀ c ∈ w, c ∉ d.right)
    (h : w <+: body ++ (d.right ++ rest)) : w <+: body := by
  rcases List.prefix_or_prefix_of_prefix h (List.prefix_append body _) with hp | ⟨t, ht⟩
  · exact hp
  · cases t with
    | nil => exact ⟨[], by simpa using ht.symm⟩
    | cons c t =>
      -- the keyword would reach into the right delimiter
      obtain ⟨z, hz⟩ := h
      rw [← ht, List.append_assoc] at hz
      have hz := List.append_cancel_left hz
      obtain ⟨r, rs, hr⟩ := List.exists_cons_of_ne_nil d.right_ne_nil
      rw [hr] at hz
      have hc : c = r := by simpa using (List.cons.inj hz).1
      exact absurd (show c ∈ d.right by simp [hr, hc]) (hw c (by simp [← ht]))

theorem Bounded.literal {w : Text} (hw : ∀ c ∈ w, c ∉ d.right) (h : Bounded d next) :
    Bounded d (literal w next) := by
  intro body hb
  by_cases hp : w <+: body
  · obtain ⟨t, rfl⟩ := hp
    rcases h t (free_append.mp hb).2 with hn | ⟨a, hs⟩
    · left
      intro rest
      rw [List.append_assoc, literal_append, hn rest]
      rfl
    · right
      refine ⟨a, fun rest => ?_⟩
      rw [List.append_assoc, literal_append, hs rest]
      simp
  · left
    intro rest
    exact literal_eq_none fun h => hp (prefix_body hw h)

/-! ## One character, and stretches of a class -/

theorem Bounded.one {p : Char → Bool} (hp : d.Within p) (h : Bounded d next) :
    Bounded d (one p next) := by
  intro body hb
  cases body with
  | nil =>
    left
    intro rest
    obtain ⟨c, cs, hc⟩ := List.exists_cons_of_ne_nil d.right_ne_nil
    rw [List.nil_append, hc, List.cons_append, Recognizer.one, hp c (by simp [hc])]
    rfl
  | cons c s =>
    cases hpc : p c with
    | false =>
      left
      intro rest
      rw [List.cons_append, Recognizer.one, hpc]
      rfl
    | true =>
      rcases h s hb.tail with hn | ⟨a, hs⟩
      · left
        intro rest
        rw [List.cons_append, Recognizer.one, hpc, if_pos rfl, hn rest]
      · right
        refine ⟨(c, a), fun rest => ?_⟩
        rw [List.cons_append, Recognizer.one, hpc, if_pos rfl, hs rest]
        rfl

theorem Bounded.most {p : Char → Bool} (hp : d.Within p) (h : Bounded d next) :
    Bounded d (most p next) := by
  intro body
  induction body with
  | nil =>
    intro hb
    obtain ⟨c, cs, hc⟩ := List.exists_cons_of_ne_nil d.right_ne_nil
    have hpc : p c = false := hp c (by simp [hc])
    have hstop : ∀ rest, Recognizer.most p next ([] ++ (d.right ++ rest)) =
        next.map (([], ·)) ([] ++ (d.right ++ rest)) := by
      intro rest
      rw [List.nil_append, hc, List.cons_append, Recognizer.most, hpc]
      rfl
    rcases (h [] hb).map (f := fun a => (([] : Text), a)) with hn | ⟨a, hs⟩
    · exact .inl fun rest => by rw [hstop, hn rest]
    · exact .inr ⟨a, fun rest => by rw [hstop, hs rest]⟩
  | cons c s ih =>
    intro hb
    have hstop := (h (c :: s) hb).map (f := fun a => (([] : Text), a))
    rcases Decided.guard (p c) fun _ => ih hb.tail with hn | ⟨⟨taken, a⟩, hs⟩
    · rcases hstop with hn' | ⟨a, hs'⟩
      · left
        intro rest
        have := hn' rest
        rw [List.cons_append] at this ⊢
        rw [Recognizer.most, hn rest, this]
      · right
        refine ⟨a, fun rest => ?_⟩
        have := hs' rest
        rw [List.cons_append] at this ⊢
        rw [Recognizer.most, hn rest, this]
    · right
      refine ⟨(c :: taken, a), fun rest => ?_⟩
      rw [List.cons_append, Recognizer.most, hs rest]
      rfl

/-- Taking as little as possible stops at the right delimiter, if what follows accepts it. -/
theorem Bounded.fewest {p : Char → Bool} {a : α} (h : Bounded d next)
    (hstop : ∀ rest, next (d.right ++ rest) = some (d.right, a)) : Bounded d (fewest p next) := by
  intro body
  induction body with
  | nil =>
    intro _
    right
    refine ⟨([], a), fun rest => ?_⟩
    obtain ⟨c, cs, hc⟩ := List.exists_cons_of_ne_nil d.right_ne_nil
    have := hstop rest
    rw [hc, List.cons_append] at this
    rw [List.nil_append, hc, List.cons_append, Recognizer.fewest, this]
    rfl
  | cons c s ih =>
    intro hb
    rcases h (c :: s) hb with hn | ⟨a, hs⟩
    · rcases Decided.guard (p c) fun _ => ih hb.tail with hn' | ⟨⟨taken, a⟩, hs'⟩
      · left
        intro rest
        have := hn rest
        rw [List.cons_append] at this ⊢
        rw [Recognizer.fewest, this, hn' rest]
      · right
        refine ⟨(c :: taken, a), fun rest => ?_⟩
        have := hn rest
        rw [List.cons_append] at this ⊢
        rw [Recognizer.fewest, this, hs' rest]
        rfl
    · right
      refine ⟨([], a), fun rest => ?_⟩
      have := hs rest
      rw [List.cons_append] at this ⊢
      rw [Recognizer.fewest, this]

theorem Bounded.wordEnd (hd : d.Apart) (h : Bounded d next) : Bounded d (wordEnd next) := by
  intro body hb
  obtain ⟨r, rs, hr, hrt⟩ := hd.right_eq
  have hrw : isWordChar r = false := by
    simp only [isTagChar, Bool.or_eq_false_iff] at hrt
    exact hrt.1.1.1.1.1.1.1
  have hhead : ∀ rest, (body ++ (d.right ++ rest)).head?.any isWordChar =
      body.head?.any isWordChar := by
    intro rest
    cases body with
    | nil => simp [hr, hrw]
    | cons c s => rfl
  cases hc : body.head?.any isWordChar with
  | true =>
    left
    intro rest
    rw [Recognizer.wordEnd, hhead rest, hc, if_pos rfl]
  | false =>
    have hgo : ∀ rest, Recognizer.wordEnd next (body ++ (d.right ++ rest)) =
        next (body ++ (d.right ++ rest)) := by
      intro rest
      rw [Recognizer.wordEnd, hhead rest, hc]
      rfl
    rcases h body hb with hn | ⟨a, hs⟩
    · exact .inl fun rest => by rw [hgo, hn rest]
    · exact .inr ⟨a, fun rest => by rw [hgo, hs rest]⟩

/-! ## Paths -/

/-- A path goes on with a name character, or with a separator and a name character. -/
def pathStep : Text → Option (Text × Text)
  | '.' :: c :: s => if isNameChar c then some (['.', c], s) else none
  | '-' :: '>' :: c :: s => if isNameChar c then some (['-', '>', c], s) else none
  | c :: s => if isNameChar c then some ([c], s) else none
  | [] => none

theorem pathRest_eq (next : Recognizer α) (s : Text) :
    pathRest next s =
      match pathStep s with
      | some (w, t) =>
        match pathRest next t with
        | some (lexeme, taken, a) => some (w ++ lexeme, w ++ taken, a)
        | none => next.map (([], ·)) s
      | none => next.map (([], ·)) s := by
  fun_cases pathStep s with
  | case1 c s h =>
    rw [pathRest, if_pos h]
    cases hr : pathRest next s <;> simp [hr]
  | case2 c s h => rw [pathRest, if_neg h]
  | case3 c s h =>
    rw [pathRest, if_pos h]
    cases hr : pathRest next s <;> simp [hr]
  | case4 c s h => rw [pathRest, if_neg h]
  | case5 c s h1 h2 h =>
    rw [pathRest.eq_3 next c s h1 h2, if_pos h]
    cases hr : pathRest next s <;> simp [hr]
  | case6 c s h1 h2 h => rw [pathRest.eq_3 next c s h1 h2, if_neg h]
  | case7 => rw [pathRest]

theorem pathStep_cons {c : Char} {s : Text} (hdot : c ≠ '.') (hdash : c ≠ '-') :
    pathStep (c :: s) = if isNameChar c then some ([c], s) else none :=
  pathStep.eq_3 c s (fun _ _ h _ => hdot h) (fun _ _ h _ => hdash h)

/-- A step along a path does not reach into the right delimiter. -/
theorem pathStep_append (hd : d.Apart) (body rest : Text) :
    pathStep (body ++ (d.right ++ rest)) =
      (pathStep body).map fun x => (x.1, x.2 ++ (d.right ++ rest)) := by
  obtain ⟨r, rs, hr, hrt⟩ := hd.right_eq
  have hrn : isNameChar r = false := isNameChar_eq_false_of_isTagChar hrt
  have hrgt : r ≠ '>' := by rintro rfl; simp [isTagChar] at hrt
  have hrdot : r ≠ '.' := by rintro rfl; simp [isTagChar] at hrt
  have hrdash : r ≠ '-' := by rintro rfl; simp [isTagChar] at hrt
  have hdotn : isNameChar '.' = false := by decide
  have hdashn : isNameChar '-' = false := by decide
  rw [hr, List.cons_append]
  cases body with
  | nil =>
    rw [List.nil_append, pathStep_cons hrdot hrdash, hrn]
    rfl
  | cons c s =>
    by_cases hdot : c = '.'
    · subst hdot
      cases s with
      | nil => simp [pathStep, hrn, hdotn]
      | cons c s =>
        simp only [List.cons_append, pathStep]
        split <;> simp
    · by_cases hdash : c = '-'
      · subst hdash
        match s with
        | [] => simp [pathStep, hrgt, hdashn]
        | [c] => by_cases hgt : c = '>' <;> simp [pathStep, hgt, hrn, hdashn]
        | c :: c' :: s =>
          by_cases hgt : c = '>'
          · subst hgt
            simp only [List.cons_append, pathStep]
            split <;> simp
          · simp [pathStep, hgt, hdashn]
      · simp only [List.cons_append, pathStep_cons hdot hdash]
        split <;> simp

theorem pathStep_eq_some {s w t : Text} (h : pathStep s = some (w, t)) :
    s = w ++ t ∧ t.length < s.length := by
  fun_cases pathStep s with
  | case1 c s hc =>
    obtain ⟨rfl, rfl⟩ : ['.', c] = w ∧ s = t := by simpa [pathStep, hc] using h
    exact ⟨rfl, by simp only [List.length_cons]; omega⟩
  | case2 c s hc => simp [pathStep, hc] at h
  | case3 c s hc =>
    obtain ⟨rfl, rfl⟩ : ['-', '>', c] = w ∧ s = t := by simpa [pathStep, hc] using h
    exact ⟨rfl, by simp only [List.length_cons]; omega⟩
  | case4 c s hc => simp [pathStep, hc] at h
  | case5 c s hdot hdash hc =>
    rw [pathStep.eq_3 c s hdot hdash, if_pos hc] at h
    obtain ⟨rfl, rfl⟩ : [c] = w ∧ s = t := by simpa using h
    exact ⟨rfl, by simp⟩
  | case6 c s hdot hdash hc =>
    rw [pathStep.eq_3 c s hdot hdash, if_neg hc] at h
    exact absurd h (by simp)
  | case7 => simp [pathStep] at h

theorem Bounded.pathRest (hd : d.Apart) (h : Bounded d next) : Bounded d (pathRest next) := by
  intro body hb
  have hstop := (h body hb).map (f := fun a => (([] : Text), a))
  have hstep := pathStep_append hd body
  cases hs : pathStep body with
  | none =>
    have hgo : ∀ rest, Recognizer.pathRest next (body ++ (d.right ++ rest)) =
        next.map (([], ·)) (body ++ (d.right ++ rest)) := by
      intro rest
      rw [pathRest_eq, hstep, hs]
      rfl
    rcases hstop with hn | ⟨x, hs⟩
    · exact .inl fun rest => by rw [hgo, hn rest]
    · exact .inr ⟨x, fun rest => by rw [hgo, hs rest]⟩
  | some x =>
    obtain ⟨w, t⟩ := x
    obtain ⟨hbody, hlt⟩ := pathStep_eq_some hs
    have hgo : ∀ rest, Recognizer.pathRest next (body ++ (d.right ++ rest)) =
        match Recognizer.pathRest next (t ++ (d.right ++ rest)) with
        | some (lexeme, taken, a) => some (w ++ lexeme, w ++ taken, a)
        | none => next.map (([], ·)) (body ++ (d.right ++ rest)) := by
      intro rest
      rw [pathRest_eq, hstep, hs]
      rfl
    have ht : d.Free t := (free_append.mp (hbody ▸ hb)).2
    rcases Bounded.pathRest hd h t ht with hn | ⟨⟨taken, a⟩, hs⟩
    · rcases hstop with hn' | ⟨x, hs'⟩
      · exact .inl fun rest => by rw [hgo, hn rest, hn' rest]
      · exact .inr ⟨x, fun rest => by rw [hgo, hn rest, hs' rest]⟩
    · right
      refine ⟨(w ++ taken, a), fun rest => ?_⟩
      rw [hgo, hs rest, hbody]
      simp
termination_by body => body.length

theorem Bounded.leading {p q : Char → Bool} (hp : d.Within p) (hq : d.Within q)
    (h : Bounded d next) : Bounded d (leading p q next) :=
  ((h.most hq).one hp).map

theorem Bounded.blanks (hd : d.Apart) (h : Bounded d next) : Bounded d (blanks next) :=
  (h.most hd.within_blank).map

/-! ## Whole tags -/

/-- A recognizer that reads tags: it starts with the left delimiter, and the body settles what it
finds. -/
structure Delimited (d : Delimiters) (r : Recognizer α) : Prop where
  /-- A tag starts with the left delimiter. -/
  left : ∀ {s : Text} {x : Text × α}, r s = some x → d.left <+: s
  /-- Nothing behind the tag counts. -/
  decided : ∀ body, d.Free body →
    (∀ rest, r (d.enclose body ++ rest) = none) ∨
      ∃ a, ∀ rest, r (d.enclose body ++ rest) = some (d.enclose body, a)

theorem Delimited.map {f : α → β} (h : Delimited d r) : Delimited d (r.map f) where
  left := by
    intro s x hx
    rw [Recognizer.map] at hx
    cases hr : r s with
    | none => rw [hr] at hx; exact absurd hx (by simp)
    | some y => exact h.left hr
  decided := by
    intro body hb
    rcases h.decided body hb with hn | ⟨a, hs⟩
    · exact .inl fun rest => by rw [Recognizer.map, hn rest]
    · exact .inr ⟨f a, fun rest => by rw [Recognizer.map, hs rest]⟩

/-- What a recognizer makes of the body of a tag. -/
def reading (d : Delimiters) (r : Recognizer α) (body : Text) : Option α :=
  (r (d.enclose body)).map (·.2)

theorem reading_map (d : Delimiters) (f : α → β) (r : Recognizer α) (body : Text) :
    reading d (r.map f) body = (reading d r body).map f := by
  unfold reading Recognizer.map
  cases r (d.enclose body) <;> rfl

theorem Delimited.eq_reading (h : Delimited d r) (hb : d.Free body) (rest : Text) :
    r (d.enclose body ++ rest) = (reading d r body).map fun a => (d.enclose body, a) := by
  unfold reading
  rcases h.decided body hb with hn | ⟨a, hs⟩
  · have := hn []
    rw [List.append_nil] at this
    rw [hn rest, this]
    rfl
  · have := hs []
    rw [List.append_nil] at this
    rw [hs rest, this]
    rfl

theorem Bounded.opened (hd : d.Apart) (h : Bounded d next) : Delimited d (d.opened next) where
  left := by
    intro s x hx
    rcases Decidable.em (d.left <+: s) with hp | hp
    · exact hp
    · rw [Delimiters.opened, literal_eq_none hp] at hx
      exact absurd hx (by simp)
  decided := by
    intro body hb
    rcases h.blanks hd body hb with hn | ⟨a, hs⟩
    · left
      intro rest
      rw [Delimiters.opened, enclose, List.append_assoc, List.append_assoc, literal_append, hn rest]
      rfl
    · right
      refine ⟨a, fun rest => ?_⟩
      rw [Delimiters.opened, enclose, List.append_assoc, List.append_assoc, literal_append, hs rest]
      rfl

end Recognizer

namespace Delimiters

open Recognizer

variable {d : Delimiters}

/-! ## Every grammar -/

theorem closed_right (hd : d.Apart) (rest : Text) :
    d.closed (d.right ++ rest) = some (d.right, ()) := by
  obtain ⟨r, rs, hr, hrt⟩ := hd.right_eq
  have hblank : isBlank r = false := hd.within_blank r (by simp [hr])
  have hlit : literal d.right (done ()) (r :: (rs ++ rest)) = some (d.right, ()) := by
    have := literal_append d.right (done ()) rest
    rw [hr, List.cons_append] at this
    rw [hr, this]
    simp [done]
  rw [closed, blanks, Recognizer.map, hr, List.cons_append, most, hblank]
  rw [hr] at hlit
  simp [Recognizer.map, hlit]

theorem bounded_closed (hd : d.Apart) : Bounded d d.closed := by
  refine Bounded.blanks hd ?_
  intro body hb
  cases body with
  | nil =>
    right
    refine ⟨(), fun rest => ?_⟩
    rw [List.nil_append, literal_append]
    simp [done]
  | cons c s =>
    left
    intro rest
    apply literal_eq_none
    rintro ⟨t, ht⟩
    obtain ⟨r, rs, hr⟩ := List.exists_cons_of_ne_nil d.right_ne_nil
    rw [hr] at ht
    have hc : r = c := (List.cons.inj ht).1
    exact hb.head.2 (by simp [hr, hc])

variable {α : Type} {next : Recognizer α}

theorem bounded_someBlanks (hd : d.Apart) (h : Bounded d next) : Bounded d (someBlanks next) :=
  (h.leading hd.within_blank hd.within_blank).map

theorem bounded_path (hd : d.Apart) (h : Bounded d next) : Bounded d (path next) :=
  ((h.pathRest hd).one hd.within_nameStart).map

theorem bounded_keyword (hd : d.Apart) {word : Text} (hw : word.all isTagChar = true) :
    Bounded d (d.keyword word) := by
  refine (Bounded.literal (hd.not_mem_right hw) (.wordEnd hd (.blanks hd ?_))).map
  exact (bounded_closed hd).fewest (closed_right hd)

theorem delimited_variableTag (hd : d.Apart) : Delimited d d.variableTag := by
  have hclosed := bounded_closed hd
  have hchain : Bounded d d.chain := (Bounded.blanks hd (hclosed.fewest (closed_right hd))).map
  refine (Bounded.opened hd (bounded_path hd (.blanks hd (.orElse ?_ hclosed.map)))).map
  exact (hchain.literal (hd.not_mem_right (by decide))).map

theorem delimited_conditionalTag (hd : d.Apart) : Delimited d d.conditionalTag := by
  refine Bounded.opened hd (.orElse ?_ (.orElse ?_ (.orElse ?_ ?_)))
  all_goals exact (bounded_keyword hd (by decide)).map

theorem delimited_loopOpening (hd : d.Apart) : Delimited d d.loopOpening := by
  refine (Bounded.opened hd (.leading hd.within_nameStart hd.within_word ?_)).map
  refine bounded_someBlanks hd (.literal (hd.not_mem_right (by decide)) ?_)
  exact bounded_someBlanks hd (bounded_path hd (bounded_closed hd))

theorem delimited_loopClosing (hd : d.Apart) : Delimited d d.loopClosing := by
  refine (Bounded.opened hd (.literal (hd.not_mem_right (by decide)) ?_)).map
  exact bounded_someBlanks hd (bounded_path hd (bounded_closed hd))

theorem delimited_legacyOpening (hd : d.Apart) : Delimited d d.legacyOpening :=
  (Bounded.opened hd (bounded_path hd (bounded_closed hd))).map

theorem delimited_legacyClosing (hd : d.Apart) : Delimited d d.legacyClosing := by
  refine (Bounded.opened hd (.literal (hd.not_mem_right (by decide)) ?_)).map
  exact .blanks hd (bounded_path hd (bounded_closed hd))

theorem Apart.within_blockName (hd : d.Apart) : d.Within isBlockNameChar := by
  intro c hc
  have h := hd.right_tag c hc
  simp only [isTagChar, Bool.or_eq_false_iff, decide_eq_false_iff_not] at h
  simp [isBlockNameChar, h]

theorem Apart.within_templateName (hd : d.Apart) : d.Within isTemplateNameChar := by
  intro c hc
  have h := hd.right_tag c hc
  simp only [isTagChar, Bool.or_eq_false_iff, decide_eq_false_iff_not] at h
  simp [isTemplateNameChar, h]

theorem bounded_blockName (hd : d.Apart) : Bounded d (oneOrMore isBlockNameChar d.closed) :=
  (bounded_closed hd).leading hd.within_blockName hd.within_blockName

theorem delimited_blockOpening (hd : d.Apart) : Delimited d d.blockOpening := by
  refine (Bounded.opened hd (.literal (hd.not_mem_right (by decide)) ?_)).map
  exact bounded_someBlanks hd (bounded_blockName hd)

theorem delimited_blockClosing (hd : d.Apart) : Delimited d d.blockClosing := by
  refine Bounded.opened hd (.literal (hd.not_mem_right (by decide)) (.orElse ?_ ?_))
  · exact bounded_someBlanks hd (bounded_blockName hd).map
  · exact bounded_closed hd

theorem bounded_templateName (hd : d.Apart) : Bounded d d.templateName := by
  refine (Bounded.blanks hd (.literal (hd.not_mem_right (by decide)) (.blanks hd ?_))).map
  exact (bounded_closed hd).leading hd.within_templateName hd.within_templateName

theorem delimited_baseTag (hd : d.Apart) : Delimited d d.baseTag := by
  refine Bounded.opened hd (.literal (hd.not_mem_right (by decide)) (.orElse ?_ ?_))
  · exact (bounded_templateName hd).literal (hd.not_mem_right (by decide))
  · exact bounded_templateName hd

theorem delimited_includeTag (hd : d.Apart) : Delimited d d.includeTag :=
  Bounded.opened hd ((bounded_templateName hd).literal (hd.not_mem_right (by decide)))

end Delimiters

end Stencil
