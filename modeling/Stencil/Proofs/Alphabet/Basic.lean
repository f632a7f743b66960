import Stencil.Proofs.Alphabet.Neutral
import Stencil.Proofs.Protection.Regions

/-!
# Alphabets

What a render may put into its output is best said of the parts that texts are spelled with: single
glyphs, and whole placeholders. A text may be cut wherever no placeholder is cut, and what is put
together from spelled texts is spelled. A pass keeps a text spelled if it cuts at tags only, because
no placeholder goes across the end of a tag.

An alphabet without placeholders is a class of characters.
-/

namespace Stencil

open ProtectedRegions

/-- The characters that placeholders are written with. -/
def placeholderChars : Text := [opener, closer] ++ "noparse:0123456789".toList

/-- A character that placeholders are written with. -/
def isPlaceholderChar (c : Char) : Bool := placeholderChars.contains c

theorem isPlaceholderChar_iff {c : Char} : isPlaceholderChar c = true ↔ c ∈ placeholderChars := by
  rw [isPlaceholderChar, List.contains_eq_mem, decide_eq_true_eq]

theorem isPlaceholderChar_of_isDigit {c : Char} (h : c.isDigit = true) :
    isPlaceholderChar c = true := by
  have hdigits : ∀ n < 58, 48 ≤ n → isPlaceholderChar (Char.ofNat n) = true := by decide
  simp only [Char.isDigit, Bool.and_eq_true, decide_eq_true_eq] at h
  obtain ⟨hlow, hhigh⟩ := h
  have := hdigits c.toNat (Nat.lt_succ_of_le hhigh) hlow
  rwa [Char.ofNat_toNat] at this

theorem isPlaceholderChar_of_mem {n : Nat} {c : Char} (h : c ∈ placeholder n) :
    isPlaceholderChar c = true := by
  have hword : ∀ x ∈ opener :: closer :: "noparse:".toList, isPlaceholderChar x = true := by decide
  simp only [placeholder, List.mem_cons, List.mem_append, List.not_mem_nil, or_false] at h
  rcases h with rfl | (h | h) | rfl
  · exact hword _ (by simp)
  · exact hword _ (List.mem_cons_of_mem _ (List.mem_cons_of_mem _ h))
  · exact isPlaceholderChar_of_isDigit (Decimal.isDigit_of_mem_natText h)
  · exact hword _ (by simp)

theorem placeholder_subset (n : Nat) : placeholder n ⊆ placeholderChars := fun _ hc =>
  isPlaceholderChar_iff.mp (isPlaceholderChar_of_mem hc)

theorem placeholderRest_subset (n : Nat) : placeholderRest n ⊆ placeholderChars := fun _ hc =>
  placeholder_subset n (by simp [placeholder_eq, hc])

/-- What texts may be spelled with. -/
structure Alphabet where
  /-- The single characters. -/
  glyph : Char → Prop
  /-- The numbers of the placeholders. -/
  shelf : Nat → Prop
  /-- Neutral characters are always allowed. -/
  neutral : ∀ c, isNeutral c = true → glyph c
  /-- What opens a placeholder opens nothing else. -/
  apart : ∀ n, shelf n → ¬ glyph opener

namespace Alphabet

variable {A B : Alphabet} {s t u v : Text} {c : Char}

/-- A text without placeholders. -/
def Bare (A : Alphabet) (s : Text) : Prop := ∀ c ∈ s, A.glyph c

/-- A text of glyphs and placeholders. -/
inductive Spelled (A : Alphabet) : Text → Prop where
  /-- Nothing is spelled with nothing. -/
  | nil : Spelled A []
  /-- A glyph in front. -/
  | glyph {c : Char} {s : Text} : A.glyph c → Spelled A s → Spelled A (c :: s)
  /-- A placeholder in front. -/
  | shelved {n : Nat} {s : Text} : A.shelf n → Spelled A s → Spelled A (placeholder n ++ s)

/-- A character that no placeholder of the alphabet is written with. -/
def Foreign (A : Alphabet) (c : Char) : Prop := ∀ n, A.shelf n → isPlaceholderChar c = false

theorem bare_append : A.Bare (s ++ t) ↔ A.Bare s ∧ A.Bare t := List.forall_mem_append

theorem Bare.of_subset (h : A.Bare s) (hsub : t ⊆ s) : A.Bare t := fun c hc => h c (hsub hc)

/-- Texts of neutral characters are in every alphabet. -/
theorem bare_of_neutral (h : ∀ c ∈ s, isNeutral c = true) :
    A.Bare s := fun c hc => A.neutral c (h c hc)

theorem Bare.spelled (h : A.Bare s) : A.Spelled s := by
  induction s with
  | nil => exact .nil
  | cons c s ih => exact .glyph (h c (by simp)) (ih fun x hx => h x (by simp [hx]))

namespace Spelled

theorem append (hs : A.Spelled s) (ht : A.Spelled t) : A.Spelled (s ++ t) := by
  induction hs with
  | nil => exact ht
  | glyph hc _ ih => exact .glyph hc ih
  | shelved hn _ ih =>
    rw [List.append_assoc]
    exact .shelved hn ih

theorem flatMap {β : Type} {xs : List β} {f : β → Text} (h : ∀ x ∈ xs, A.Spelled (f x)) :
    A.Spelled (xs.flatMap f) := by
  induction xs with
  | nil => exact .nil
  | cons x xs ih => exact (h x (by simp)).append (ih fun y hy => h y (by simp [hy]))

theorem mono (h : A.Spelled s) (hglyph : ∀ c, A.glyph c → B.glyph c)
    (hshelf : ∀ n, A.shelf n → B.shelf n) : B.Spelled s := by
  induction h with
  | nil => exact .nil
  | glyph hc _ ih => exact .glyph (hglyph _ hc) ih
  | shelved hn _ ih => exact .shelved (hshelf _ hn) ih

/-- A text without openers is bare. -/
theorem bare (h : A.Spelled s) (ho : opener ∉ s) : A.Bare s := by
  induction h with
  | nil => exact fun c hc => absurd hc (by simp)
  | glyph hc _ ih => exact List.forall_mem_cons.mpr ⟨hc, ih fun h => ho (by simp [h])⟩
  | shelved => exact absurd (by simp [placeholder_eq]) ho

/-- A text is bare where there are no placeholders. -/
theorem bare_of_no_shelf (h : A.Spelled s) (hA : ∀ n, ¬ A.shelf n) : A.Bare s := by
  induction h with
  | nil => exact fun c hc => absurd hc (by simp)
  | glyph hc _ ih => exact List.forall_mem_cons.mpr ⟨hc, ih⟩
  | shelved hn => exact absurd hn (hA _)

/-- A spelled text starts with a glyph or with a placeholder. -/
theorem front (h : A.Spelled (c :: s)) :
    (A.glyph c ∧ A.Spelled s) ∨
      ∃ n t, A.shelf n ∧ c = opener ∧ s = placeholderRest n ++ t ∧ A.Spelled t := by
  generalize hcs : c :: s = cs at h
  cases h with
  | nil => exact absurd hcs (by simp)
  | glyph hc hs =>
    obtain ⟨rfl, rfl⟩ := List.cons.inj hcs
    exact .inl ⟨hc, hs⟩
  | @shelved n t hn ht =>
    rw [placeholder_eq, List.cons_append] at hcs
    obtain ⟨rfl, rfl⟩ := List.cons.inj hcs
    exact .inr ⟨n, t, hn, rfl, rfl, ht⟩

/-- What is left when a spelled text is taken off the front is spelled. -/
theorem rest (hu : A.Spelled u) (h : A.Spelled (u ++ v)) : A.Spelled v := by
  induction hu with
  | nil => exact h
  | glyph hc _ ih =>
    rcases h.front with ⟨-, h⟩ | ⟨n, t, hn, rfl, -⟩
    · exact ih h
    · exact absurd hc (A.apart n hn)
  | @shelved n u hn _ ih =>
    rw [List.append_assoc, placeholder_eq, List.cons_append] at h
    rcases h.front with ⟨hc, -⟩ | ⟨m, t, -, -, heq, ht⟩
    · exact absurd hc (A.apart n hn)
    · -- no placeholder is the beginning of another
      have hmn : m = n := placeholder_unique (t := u ++ v)
        ⟨t, by rw [placeholder_eq, placeholder_eq, List.cons_append, List.cons_append, heq]⟩
      subst hmn
      rw [List.append_cancel_left heq] at ih
      exact ih ht

/-- A spelled text may be cut in front of a character that placeholders are not written with. -/
theorem cut (h : A.Spelled (u ++ c :: v)) (hc : A.Foreign c) :
    A.Spelled u ∧ A.Spelled (c :: v) := by
  generalize hs : u ++ c :: v = s at h
  induction h generalizing u with
  | nil => exact absurd hs (by simp)
  | @glyph x s hx hrest ih =>
    cases u with
    | nil =>
      rw [show c :: v = x :: s from hs]
      exact ⟨.nil, .glyph hx hrest⟩
    | cons y u =>
      simp only [List.cons_append, List.cons.injEq] at hs
      obtain ⟨rfl, hs⟩ := hs
      exact ⟨.glyph hx (ih hs).1, (ih hs).2⟩
  | @shelved n s hn hrest ih =>
    rcases List.append_eq_append_iff.mp hs with ⟨w, hw, hcv⟩ | ⟨w, rfl, hw⟩
    · -- the cut would be inside the placeholder
      cases w with
      | nil =>
        rw [List.append_nil] at hw
        rw [List.nil_append] at hcv
        rw [← hw, hcv]
        exact ⟨by simpa using Spelled.shelved hn .nil, hrest⟩
      | cons y w =>
        obtain ⟨rfl, -⟩ := List.cons.inj hcv
        have hmem : c ∈ placeholder n := by simp [hw]
        exact absurd (hc n hn) (by simp [isPlaceholderChar_of_mem hmem])
    · obtain ⟨hw, hcv⟩ := ih hw.symm
      exact ⟨.shelved hn hw, hcv⟩

/-- A foreign character of a spelled text is a glyph. -/
theorem glyph_of_foreign (h : A.Spelled (c :: v)) (hc : A.Foreign c) : A.glyph c ∧ A.Spelled v := by
  rcases h.front with h | ⟨n, t, hn, rfl, -⟩
  · exact h
  · exact absurd (hc n hn) (by decide)

/-- A spelled text may be cut on both sides of a foreign character. -/
theorem around (h : A.Spelled (u ++ c :: v)) (hc : A.Foreign c) :
    A.Spelled u ∧ A.glyph c ∧ A.Spelled v :=
  ⟨(h.cut hc).1, (h.cut hc).2.glyph_of_foreign hc⟩

/-- A row of foreign characters may be taken off the front. -/
theorem drop_foreign (h : A.Spelled (u ++ v)) (hu : ∀ c ∈ u, A.Foreign c) :
    A.Bare u ∧ A.Spelled v := by
  induction u with
  | nil => exact ⟨fun c hc => absurd hc (by simp), h⟩
  | cons c u ih =>
    obtain ⟨hc, h⟩ := h.glyph_of_foreign (hu c (by simp))
    obtain ⟨hu, hv⟩ := ih h fun x hx => hu x (by simp [hx])
    exact ⟨List.forall_mem_cons.mpr ⟨hc, hu⟩, hv⟩

/-- A row of foreign characters may be cut off, wherever it stands. -/
theorem before_foreign (h : A.Spelled (u ++ v)) (hv : ∀ c ∈ v, A.Foreign c) :
    A.Spelled u ∧ A.Bare v := by
  cases v with
  | nil => exact ⟨by simpa using h, fun c hc => absurd hc (by simp)⟩
  | cons c v =>
    obtain ⟨hu, hcv⟩ := h.cut (hv c (by simp))
    exact ⟨hu, (drop_foreign (v := []) (by simpa using hcv) hv).1⟩

/-- Rewriting character by character keeps a text spelled if placeholders stay as they are. -/
theorem flatMap_char {f : Char → Text} (h : A.Spelled s) (hglyph : ∀ c, A.glyph c → A.Spelled (f c))
    (hkeep : ∀ c ∈ placeholderChars, f c = [c]) : A.Spelled (s.flatMap f) := by
  induction h with
  | nil => exact .nil
  | glyph hc _ ih => exact (hglyph _ hc).append ih
  | @shelved n s hn _ ih =>
    have hfix : ∀ w : Text, w ⊆ placeholderChars → w.flatMap f = w := by
      intro w hw
      induction w with
      | nil => rfl
      | cons c w ihw =>
        obtain ⟨hc, hw⟩ := List.cons_subset.mp hw
        rw [List.flatMap_cons, hkeep c hc, ihw hw]
        rfl
    rw [List.flatMap_append, hfix _ (placeholder_subset n)]
    exact .shelved hn ih

end Spelled

/-! ## Cutting at positions -/

/-- A position where a text may be cut. -/
def Seam (A : Alphabet) (s : Text) (p : Nat) : Prop := A.Spelled (s.take p) ∧ A.Spelled (s.drop p)

theorem seam_zero (h : A.Spelled s) : A.Seam s 0 := ⟨.nil, h⟩

theorem seam_length (h : A.Spelled s) : A.Seam s s.length := by
  unfold Seam
  rw [List.take_length, List.drop_length]
  exact ⟨h, .nil⟩

/-- What is between two seams is spelled. -/
theorem Seam.slice {p q : Nat} (hp : A.Seam s p) (hq : A.Seam s q) : A.Spelled (s.slice p q) := by
  unfold Text.slice
  by_cases hpq : p ≤ q
  · have hsplit : s.take q = s.take p ++ (s.drop p).take (q - p) := by
      rw [← List.take_add, Nat.add_sub_cancel' hpq]
    exact hp.1.rest (hsplit ▸ hq.1)
  · rw [Nat.sub_eq_zero_of_le (by omega), List.take_zero]
    exact .nil

/-- No placeholder of the alphabet has a character of the delimiters. -/
def Spares (A : Alphabet) (d : Delimiters) : Prop := ∀ c ∈ d.left ++ d.right, A.Foreign c

variable {α : Type} {d : Delimiters} {r : Recognizer α} {tag : Tag α}

/-- A text may be cut where a tag starts. -/
theorem seam_start (hd : A.Spares d) (hr : d.Encloses r) (h : A.Spelled s)
    (ht : Tag.Stands r s tag) :
    A.Seam s tag.start := by
  obtain ⟨body, rest, hlex, hdrop⟩ := hr _ _ _ ht
  obtain ⟨c, left, hleft⟩ := List.exists_cons_of_ne_nil d.left_ne_nil
  have hfront : s.drop tag.start = c :: (left ++ (body ++ d.right) ++ rest) := by
    rw [hdrop, hlex, Delimiters.enclose, hleft]
    simp
  have hs : A.Spelled (s.take tag.start ++ c :: (left ++ (body ++ d.right) ++ rest)) := by
    rwa [← hfront, List.take_append_drop]
  have hcut := hs.cut (hd c (by simp [hleft]))
  rw [← hfront] at hcut
  exact hcut

/-- A text may be cut where a tag stops. -/
theorem seam_stop (hd : A.Spares d) (hr : d.Encloses r) (h : A.Spelled s)
    (ht : Tag.Stands r s tag) :
    A.Seam s tag.stop := by
  obtain ⟨body, rest, hlex, hdrop⟩ := hr _ _ _ ht
  obtain ⟨htake, hlater⟩ := seam_start hd hr h ht
  -- the cut is made behind the last character of the delimiter, which is foreign
  have hright : d.right = d.right.dropLast ++ [d.right.getLast d.right_ne_nil] :=
    (List.dropLast_concat_getLast d.right_ne_nil).symm
  have htag : A.Spelled (tag.lexeme ++ rest) := hdrop ▸ hlater
  have hforeign := hd (d.right.getLast d.right_ne_nil) (by simp)
  rw [hlex, Delimiters.enclose, hright, ← List.append_assoc, ← List.append_assoc, List.append_assoc,
    List.singleton_append] at htag
  obtain ⟨hfront, hlast, hrest⟩ := htag.around hforeign
  have hlexeme : A.Spelled tag.lexeme := by
    rw [hlex, Delimiters.enclose, hright, ← List.append_assoc, ← List.append_assoc]
    exact hfront.append (.glyph hlast .nil)
  have htake' : s.take tag.stop = s.take tag.start ++ tag.lexeme := by
    rw [Tag.stop, List.take_add, hdrop, List.take_left]
  have hdrop' : s.drop tag.stop = rest := by
    rw [Tag.stop, ← List.drop_drop, hdrop, List.drop_left]
  exact ⟨htake' ▸ htake.append hlexeme, hdrop' ▸ hrest⟩

/-- A tag of a spelled text is spelled. -/
theorem spelled_lexeme (hd : A.Spares d) (hr : d.Encloses r) (h : A.Spelled s)
    (ht : Tag.Stands r s tag) : A.Spelled tag.lexeme := by
  obtain ⟨body, rest, -, hdrop⟩ := hr _ _ _ ht
  have hslice := (seam_start hd hr h ht).slice (seam_stop hd hr h ht)
  rwa [Text.slice, hdrop, Tag.stop, Nat.add_sub_cancel_left, List.take_left] at hslice

end Alphabet

/-! ## Edits -/

namespace Alphabet

variable {A : Alphabet} {s w : Text} {es : List Edit}

/-- What is kept between edits at seams is cut out at seams. -/
theorem seams_of_mem_kept (h : A.Spelled s) (hord : Edit.Ordered 0 es)
    (hseam : ∀ e ∈ es, A.Seam s e.start ∧ A.Seam s e.stop) (hw : w ∈ Text.kept 0 s es) :
    ∃ a b, w = s.slice a b ∧ A.Seam s a ∧ A.Seam s b ∧ ∀ e ∈ es, b ≤ e.start ∨ e.stop ≤ a := by
  obtain ⟨a, b, hw, ha, hb, -, hbeside⟩ := Text.mem_kept hord hw
  refine ⟨a, b, hw, ?_, ?_, hbeside⟩
  · rcases ha with rfl | ⟨e, he, rfl⟩
    · exact seam_zero h
    · exact (hseam e he).2
  · rcases hb with rfl | ⟨e, he, rfl⟩
    · exact seam_length h
    · exact (hseam e he).1

/-- Edits between seams keep a text spelled. -/
theorem Spelled.splice (h : A.Spelled s) (hord : Edit.Ordered 0 es)
    (hseam : ∀ e ∈ es, A.Seam s e.start ∧ A.Seam s e.stop)
    (hnew : ∀ e ∈ es, A.Spelled e.replacement) : A.Spelled (s.splice es) := by
  rw [Text.splice, Text.spliceFrom_eq_interlace]
  refine Text.interlace_of .nil Spelled.append (fun w hw => ?_) (List.forall_mem_map.mpr hnew)
  obtain ⟨a, b, rfl, ha, hb, -⟩ := seams_of_mem_kept h hord hseam hw
  exact ha.slice hb

/-- Edits that each take the place of something found in the text. -/
theorem Spelled.splice_map {β : Type} {xs : List β} {f : β → Edit} (h : A.Spelled s)
    (hord : Edit.Ordered 0 (xs.map f))
    (hedit : ∀ x ∈ xs, (A.Seam s (f x).start ∧ A.Seam s (f x).stop) ∧ A.Spelled (f x).replacement) :
    A.Spelled (s.splice (xs.map f)) :=
  h.splice hord (List.forall_mem_map.mpr fun x hx => (hedit x hx).1)
    (List.forall_mem_map.mpr fun x hx => (hedit x hx).2)

end Alphabet

/-! ## Private characters -/

/-- The texts in which private characters stand in placeholders only. -/
def Alphabet.ordinary : Alphabet where
  glyph c := c ≠ opener ∧ c ≠ closer
  shelf _ := True
  neutral c h := by
    simp only [isNeutral, Bool.and_eq_true, decide_eq_true_eq] at h
    exact ⟨h.1.2, h.2⟩
  apart _ _ h := h.1 rfl

/-- A text without private characters. -/
def Text.Ordinary (s : Text) : Prop := opener ∉ s ∧ closer ∉ s

namespace Alphabet

theorem bare_ordinary {s : Text} : ordinary.Bare s ↔ s.Ordinary := by
  constructor
  · exact fun h => ⟨fun hc => (h _ hc).1 rfl, fun hc => (h _ hc).2 rfl⟩
  · rintro ⟨hopener, hcloser⟩ c hc
    exact ⟨fun heq => hopener (heq ▸ hc), fun heq => hcloser (heq ▸ hc)⟩

end Alphabet

end Stencil
