import Stencil.Proofs.Decimal.Layout
import Stencil.Proofs.Json.Strings

/-!
# JSON text is unambiguous

Values whose numbers are all finite have the same text only if they are the same. Behind a value
stands the end of the text, a comma or a closing bracket, and no number, word or string could go on
with one of these; so the text of a list falls into the texts of its items in one way only.
-/

namespace Stencil.Json

mutual

/-- No number in the value is an infinity or not a number. -/
def isFinite : Json → Bool
  | .float f => f.isFinite
  | .arr items => itemsFinite items
  | .obj members => membersFinite members
  | _ => true

/-- The same for every item. -/
def itemsFinite : List Json → Bool
  | [] => true
  | v :: rest => v.isFinite && itemsFinite rest

/-- The same for every member. -/
def membersFinite : List (String × Json) → Bool
  | [] => true
  | (_, v) :: rest => v.isFinite && membersFinite rest

end

/-! ## Words and numbers -/

/-- The value is written as a word or as a number. -/
def isPlain : Json → Bool
  | .null | .bool _ | .int _ | .float _ => true
  | _ => false

/-- The characters of words and numbers. -/
def isPlainChar (c : Char) : Bool := Decimal.isDecimalChar c || isLetter c

variable {a b : Json} {s t : Text}

theorem floatText_eq {f : Float} (hf : f.isFinite = true) :
    floatText f = Decimal.Layout.interchange.floatText f := if_pos hf

theorem all_floatText {f : Float} (hf : f.isFinite = true) :
    (floatText f).all Decimal.isDecimalChar = true := by
  obtain ⟨b, m, q, hb⟩ := Decimal.Binary.isFinite_iff.mp hf
  rw [floatText_eq hf, Decimal.Layout.floatText_finite hb]
  exact Decimal.all_decimalText Decimal.Layout.marks_interchange b _

/-- An integer and a double never have the same text. -/
theorem intText_ne_floatText (n : Int) {f : Float} (hf : f.isFinite = true) :
    Decimal.intText n ≠ floatText f := by
  intro h
  obtain ⟨b, m, q, hb⟩ := Decimal.Binary.isFinite_iff.mp hf
  rw [floatText_eq hf, Decimal.Layout.floatText_finite hb] at h
  obtain ⟨hpoint, hexp⟩ := Decimal.unmarked_intText n
  rcases Decimal.marked_decimalText b (if m = 0 then ⟨0, 0⟩ else Decimal.shortest m q) with hm | hm
  · exact hpoint (h ▸ hm)
  · exact hexp (h ▸ hm)

theorem all_text_of_isPlain (ha : a.isPlain = true) (hf : a.isFinite = true) :
    a.text.all isPlainChar = true := by
  have hdecimal : ∀ {u : Text}, u.all Decimal.isDecimalChar = true → u.all isPlainChar = true :=
    fun hu => List.all_eq_true.mpr fun c hc => by
      rw [isPlainChar, List.all_eq_true.mp hu c hc, Bool.true_or]
  cases a with
  | null => decide
  | bool v => cases v <;> decide
  | int n => exact hdecimal (Decimal.all_intText n)
  | float f => exact hdecimal (all_floatText hf)
  | str k => cases ha
  | arr items => cases ha
  | obj members => cases ha

/-- A word or a number is known by its text. -/
theorem eq_of_text_of_isPlain (ha : a.isPlain = true) (hb : b.isPlain = true)
    (hfa : a.isFinite = true) (hfb : b.isFinite = true) (h : a.text = b.text) : a = b := by
  -- no word is spelled with the characters of numbers
  have hint : ∀ n, (text (.int n)).all Decimal.isDecimalChar = true := Decimal.all_intText
  have hfloat : ∀ {f : Float}, f.isFinite = true →
      (text (.float f)).all Decimal.isDecimalChar = true := all_floatText
  have hnull : (text .null).all Decimal.isDecimalChar = false := by decide
  have hbool : ∀ v, (text (.bool v)).all Decimal.isDecimalChar = false := by decide
  have hword : ∀ {x y : Json}, x.text.all Decimal.isDecimalChar = false →
      y.text.all Decimal.isDecimalChar = true → x.text ≠ y.text := fun hx hy hxy => by
    rw [hxy, hy] at hx
    cases hx
  cases a with
  | null =>
    cases b with
    | null => rfl
    | bool v => cases v <;> exact absurd h (by decide)
    | int n => exact absurd h (hword hnull (hint n))
    | float f => exact absurd h (hword hnull (hfloat hfb))
    | str k => cases hb
    | arr items => cases hb
    | obj members => cases hb
  | bool v =>
    cases b with
    | null => cases v <;> exact absurd h (by decide)
    | bool w => cases v <;> cases w <;> first | rfl | exact absurd h (by decide)
    | int n => exact absurd h (hword (hbool v) (hint n))
    | float f => exact absurd h (hword (hbool v) (hfloat hfb))
    | str k => cases hb
    | arr items => cases hb
    | obj members => cases hb
  | int n =>
    cases b with
    | null => exact absurd h.symm (hword hnull (hint n))
    | bool w => exact absurd h.symm (hword (hbool w) (hint n))
    | int m => rw [Decimal.intText_injective h]
    | float f => exact absurd h (intText_ne_floatText n hfb)
    | str k => cases hb
    | arr items => cases hb
    | obj members => cases hb
  | float f =>
    cases b with
    | null => exact absurd h.symm (hword hnull (hfloat hfa))
    | bool w => exact absurd h.symm (hword (hbool w) (hfloat hfa))
    | int n => exact absurd h.symm (intText_ne_floatText n hfa)
    | float g =>
      change floatText f = floatText g at h
      rw [floatText_eq hfa, floatText_eq hfb] at h
      rw [Decimal.Layout.floatText_injective Decimal.Layout.marks_interchange hfa hfb h]
    | str k => cases hb
    | arr items => cases hb
    | obj members => cases hb
  | str k => cases ha
  | arr items => cases ha
  | obj members => cases ha

/-! ## Where a value ends -/

/-- The text can stand behind a value: it is empty or starts with a comma or a closing bracket. -/
def Ends (s : Text) : Prop := ∀ c ∈ s.head?, c = ',' ∨ c = ']' ∨ c = '\x7d'

theorem ends_nil : Ends [] := fun _ h => nomatch h

theorem Ends.not_isPlainChar (hs : Ends s) : ∀ c ∈ s.head?, isPlainChar c = false := by
  intro c hc
  rcases hs c hc with rfl | rfl | rfl <;> decide

/-- Words and numbers go on as far as they can. -/
theorem append_inj_of_isPlain (ha : a.isPlain = true) (hb : b.isPlain = true)
    (hfa : a.isFinite = true) (hfb : b.isFinite = true) (hs : Ends s) (ht : Ends t)
    (h : a.text ++ s = b.text ++ t) : a = b ∧ s = t := by
  have hspan := Decimal.span_append (all_text_of_isPlain ha hfa) hs.not_isPlainChar
  have hspan' := Decimal.span_append (all_text_of_isPlain hb hfb) ht.not_isPlainChar
  rw [h, hspan'.1, hspan'.2] at hspan
  exact ⟨(eq_of_text_of_isPlain hb ha hfb hfa hspan.1).symm, hspan.2.symm⟩

/-- The quote or bracket that opens a value; words and numbers have none. -/
def opening? : Json → Option Char
  | .str _ => some '"'
  | .arr _ => some '['
  | .obj _ => some '\x7b'
  | _ => none

theorem isPlain_of_opening? (h : a.opening? = none) : a.isPlain = true := by
  cases a <;> first | rfl | cases h

/-- The first character of a text tells how the value opens. -/
theorem exists_text_eq_cons (hf : a.isFinite = true) :
    ∃ c r, a.text = c :: r ∧ a.opening? = if isPlainChar c then none else some c := by
  have hplain : a.isPlain = true → a.opening? = none → a.text ≠ [] →
      ∃ c r, a.text = c :: r ∧ a.opening? = if isPlainChar c then none else some c := by
    intro ha hopen hne
    obtain ⟨c, r, hcr⟩ := List.exists_cons_of_ne_nil hne
    have hc := List.all_eq_true.mp (all_text_of_isPlain ha hf) c (by simp [hcr])
    exact ⟨c, r, hcr, by rw [hopen, if_pos hc]⟩
  cases a with
  | null => exact hplain rfl rfl (by decide)
  | bool v => exact hplain rfl rfl (by cases v <;> decide)
  | int n =>
    refine hplain rfl rfl ?_
    cases n with
    | ofNat n => exact Decimal.natText_ne_nil n
    | negSucc n => exact List.cons_ne_nil _ _
  | float f =>
    refine hplain rfl rfl fun hnil => ?_
    obtain ⟨b, m, q, hb⟩ := Decimal.Binary.isFinite_iff.mp hf
    change floatText f = [] at hnil
    rw [floatText_eq hf, Decimal.Layout.floatText_finite hb] at hnil
    rcases Decimal.marked_decimalText b (if m = 0 then ⟨0, 0⟩ else Decimal.shortest m q) with
      hm | hm <;> rw [hnil] at hm <;> cases hm
  | str k => exact ⟨_, _, rfl, (if_neg (by decide)).symm⟩
  | arr items => exact ⟨_, _, rfl, (if_neg (by decide)).symm⟩
  | obj members => exact ⟨_, _, rfl, (if_neg (by decide)).symm⟩

theorem opening?_eq (hfa : a.isFinite = true) (hfb : b.isFinite = true)
    (h : a.text ++ s = b.text ++ t) : a.opening? = b.opening? := by
  obtain ⟨c, r, hcr, hc⟩ := exists_text_eq_cons hfa
  obtain ⟨d, u, hdu, hd⟩ := exists_text_eq_cons hfb
  rw [hcr, hdu] at h
  rw [hc, hd, (List.cons.inj h).1]

/-! ## Lists and objects -/

/-- What stands behind an item: the other items and the closing bracket. -/
def afterItem (rest : List Json) (s : Text) : Text :=
  match rest with
  | [] => ']' :: s
  | w :: rest => ',' :: (itemsText (w :: rest) ++ ']' :: s)

theorem itemsText_cons (v : Json) (rest : List Json) (s : Text) :
    itemsText (v :: rest) ++ ']' :: s = v.text ++ afterItem rest s := by
  cases rest <;> simp [itemsText, afterItem]

theorem ends_afterItem (rest : List Json) (s : Text) : Ends (afterItem rest s) := by
  cases rest <;> simp [afterItem, Ends]

/-- What stands behind a member: the other members and the closing brace. -/
def afterMember (rest : List (String × Json)) (s : Text) : Text :=
  match rest with
  | [] => '\x7d' :: s
  | m :: rest => ',' :: (membersText (m :: rest) ++ '\x7d' :: s)

theorem membersText_cons (k : String) (v : Json) (rest : List (String × Json)) (s : Text) :
    membersText ((k, v) :: rest) ++ '\x7d' :: s =
      stringText k ++ ':' :: (v.text ++ afterMember rest s) := by
  cases rest <;> simp [membersText, afterMember]

theorem ends_afterMember (rest : List (String × Json)) (s : Text) : Ends (afterMember rest s) := by
  cases rest <;> simp [afterMember, Ends]

/-- An item does not start with the closing bracket. -/
theorem closing_ne_itemsText {v : Json} {rest : List Json} (hf : v.isFinite = true) :
    ']' :: s ≠ itemsText (v :: rest) ++ ']' :: t := by
  intro h
  obtain ⟨c, r, hcr, hc⟩ := exists_text_eq_cons hf
  rw [itemsText_cons, hcr, List.cons_append] at h
  rw [← (List.cons.inj h).1, if_neg (by decide)] at hc
  cases v <;> exact absurd hc (by simp [opening?])

theorem closing_ne_membersText {m : String × Json} {rest : List (String × Json)} :
    '\x7d' :: s ≠ membersText (m :: rest) ++ '\x7d' :: t := by
  obtain ⟨k, v⟩ := m
  intro h
  rw [membersText_cons] at h
  exact absurd (List.cons.inj h).1 (by decide)

mutual

/-- A finite value is known by its text, whatever stands behind. -/
theorem text_append_inj : ∀ (a b : Json) (s t : Text), a.isFinite = true → b.isFinite = true →
    Ends s → Ends t → a.text ++ s = b.text ++ t → a = b ∧ s = t
  | .str k, b, s, t, _, hfb, _, _, h => by
    have hopen := opening?_eq rfl hfb h
    cases b with
    | str l =>
      obtain ⟨rfl, hrest⟩ := stringText_append_inj h
      exact ⟨rfl, hrest⟩
    | null | bool _ | int _ | float _ | arr _ | obj _ => exact absurd hopen (by simp [opening?])
  | .arr items, b, s, t, hfa, hfb, _, _, h => by
    have hopen := opening?_eq hfa hfb h
    cases b with
    | arr others =>
      simp only [text, List.cons_append, List.append_assoc] at h
      obtain ⟨rfl, hrest⟩ :=
        itemsText_append_inj items others s t hfa hfb (List.cons.inj h).2
      exact ⟨rfl, hrest⟩
    | null | bool _ | int _ | float _ | str _ | obj _ => exact absurd hopen (by simp [opening?])
  | .obj members, b, s, t, hfa, hfb, _, _, h => by
    have hopen := opening?_eq hfa hfb h
    cases b with
    | obj others =>
      simp only [text, List.cons_append, List.append_assoc] at h
      obtain ⟨rfl, hrest⟩ :=
        membersText_append_inj members others s t hfa hfb (List.cons.inj h).2
      exact ⟨rfl, hrest⟩
    | null | bool _ | int _ | float _ | str _ | arr _ => exact absurd hopen (by simp [opening?])
  | .null, b, s, t, hfa, hfb, hs, ht, h =>
    append_inj_of_isPlain rfl (isPlain_of_opening? (opening?_eq hfa hfb h).symm) hfa hfb hs ht h
  | .bool _, b, s, t, hfa, hfb, hs, ht, h =>
    append_inj_of_isPlain rfl (isPlain_of_opening? (opening?_eq hfa hfb h).symm) hfa hfb hs ht h
  | .int _, b, s, t, hfa, hfb, hs, ht, h =>
    append_inj_of_isPlain rfl (isPlain_of_opening? (opening?_eq hfa hfb h).symm) hfa hfb hs ht h
  | .float _, b, s, t, hfa, hfb, hs, ht, h =>
    append_inj_of_isPlain rfl (isPlain_of_opening? (opening?_eq hfa hfb h).symm) hfa hfb hs ht h

/-- The items of a list are known by their text. -/
theorem itemsText_append_inj : ∀ (xs ys : List Json) (s t : Text), itemsFinite xs = true →
    itemsFinite ys = true → itemsText xs ++ ']' :: s = itemsText ys ++ ']' :: t → xs = ys ∧ s = t
  | [], [], s, t, _, _, h => ⟨rfl, (List.cons.inj h).2⟩
  | [], w :: ys, s, t, _, hfy, h => by
    simp only [itemsFinite, Bool.and_eq_true] at hfy
    exact absurd h (closing_ne_itemsText hfy.1)
  | v :: xs, [], s, t, hfx, _, h => by
    simp only [itemsFinite, Bool.and_eq_true] at hfx
    exact absurd h.symm (closing_ne_itemsText hfx.1)
  | v :: xs, w :: ys, s, t, hfx, hfy, h => by
    simp only [itemsFinite, Bool.and_eq_true] at hfx hfy
    rw [itemsText_cons, itemsText_cons] at h
    obtain ⟨rfl, hafter⟩ := text_append_inj v w _ _ hfx.1 hfy.1 (ends_afterItem _ _)
      (ends_afterItem _ _) h
    cases xs with
    | nil =>
      cases ys with
      | nil => exact ⟨rfl, (List.cons.inj hafter).2⟩
      | cons _ _ => exact absurd (List.cons.inj hafter).1 (by decide)
    | cons x xs =>
      cases ys with
      | nil => exact absurd (List.cons.inj hafter).1 (by decide)
      | cons y ys =>
        obtain ⟨hrest, hst⟩ :=
          itemsText_append_inj (x :: xs) (y :: ys) s t hfx.2 hfy.2 (List.cons.inj hafter).2
        exact ⟨by rw [hrest], hst⟩

/-- The members of an object are known by their text. -/
theorem membersText_append_inj : ∀ (xs ys : List (String × Json)) (s t : Text),
    membersFinite xs = true → membersFinite ys = true →
    membersText xs ++ '\x7d' :: s = membersText ys ++ '\x7d' :: t → xs = ys ∧ s = t
  | [], [], s, t, _, _, h => ⟨rfl, (List.cons.inj h).2⟩
  | [], m :: ys, s, t, _, _, h => absurd h closing_ne_membersText
  | m :: xs, [], s, t, _, _, h => absurd h.symm closing_ne_membersText
  | (k, v) :: xs, (l, w) :: ys, s, t, hfx, hfy, h => by
    simp only [membersFinite, Bool.and_eq_true] at hfx hfy
    rw [membersText_cons, membersText_cons] at h
    obtain ⟨rfl, hvalue⟩ := stringText_append_inj h
    obtain ⟨rfl, hafter⟩ := text_append_inj v w _ _ hfx.1 hfy.1 (ends_afterMember _ _)
      (ends_afterMember _ _) (List.cons.inj hvalue).2
    cases xs with
    | nil =>
      cases ys with
      | nil => exact ⟨rfl, (List.cons.inj hafter).2⟩
      | cons _ _ => exact absurd (List.cons.inj hafter).1 (by decide)
    | cons x xs =>
      cases ys with
      | nil => exact absurd (List.cons.inj hafter).1 (by decide)
      | cons y ys =>
        obtain ⟨hrest, hst⟩ :=
          membersText_append_inj (x :: xs) (y :: ys) s t hfx.2 hfy.2 (List.cons.inj hafter).2
        exact ⟨by rw [hrest], hst⟩

end

/-- A finite value is known by its text. -/
theorem text_injective {a b : Json} (hfa : a.isFinite = true) (hfb : b.isFinite = true)
    (h : a.text = b.text) : a = b :=
  (text_append_inj a b [] [] hfa hfb ends_nil ends_nil (by rw [h])).1

/-! ## Control characters -/

theorem le_of_isPlainChar {c : Char} (h : isPlainChar c = true) : 0x20 ≤ c.toNat := by
  by_contra hlow
  have hall : ∀ n < 0x20, isPlainChar (Char.ofNat n) = false := by decide
  have := hall c.toNat (by omega)
  rw [Char.ofNat_toNat, h] at this
  cases this

mutual

/-- No control character stands in the text of a value. -/
theorem le_of_mem_text : ∀ (a : Json), a.isFinite = true → ∀ c ∈ a.text, 0x20 ≤ c.toNat
  | .str _, _, _, hc => le_of_mem_stringText hc
  | .arr items, hf, c, hc => by
    simp only [text, List.cons_append, List.mem_cons, List.mem_append, List.not_mem_nil,
      or_false] at hc
    rcases hc with rfl | hc | rfl
    · decide
    · exact le_of_mem_itemsText items hf c hc
    · decide
  | .obj members, hf, c, hc => by
    simp only [text, List.cons_append, List.mem_cons, List.mem_append, List.not_mem_nil,
      or_false] at hc
    rcases hc with rfl | hc | rfl
    · decide
    · exact le_of_mem_membersText members hf c hc
    · decide
  | .null, hf, c, hc => le_of_isPlainChar (List.all_eq_true.mp (all_text_of_isPlain rfl hf) c hc)
  | .bool _, hf, c, hc => le_of_isPlainChar (List.all_eq_true.mp (all_text_of_isPlain rfl hf) c hc)
  | .int _, hf, c, hc => le_of_isPlainChar (List.all_eq_true.mp (all_text_of_isPlain rfl hf) c hc)
  | .float _, hf, c, hc =>
    le_of_isPlainChar (List.all_eq_true.mp (all_text_of_isPlain rfl hf) c hc)

theorem le_of_mem_itemsText : ∀ (xs : List Json), itemsFinite xs = true →
    ∀ c ∈ itemsText xs, 0x20 ≤ c.toNat
  | [], _, _, hc => nomatch hc
  | [v], hf, c, hc => by
    simp only [itemsFinite, Bool.and_eq_true] at hf
    exact le_of_mem_text v hf.1 c hc
  | v :: w :: rest, hf, c, hc => by
    rw [itemsFinite, Bool.and_eq_true] at hf
    simp only [itemsText, List.mem_append, List.mem_cons] at hc
    rcases hc with hc | rfl | hc
    · exact le_of_mem_text v hf.1 c hc
    · decide
    · exact le_of_mem_itemsText (w :: rest) hf.2 c hc

theorem le_of_mem_membersText : ∀ (xs : List (String × Json)), membersFinite xs = true →
    ∀ c ∈ membersText xs, 0x20 ≤ c.toNat
  | [], _, _, hc => nomatch hc
  | [(k, v)], hf, c, hc => by
    simp only [membersFinite, Bool.and_eq_true] at hf
    simp only [membersText, List.mem_append, List.mem_cons] at hc
    rcases hc with hc | rfl | hc
    · exact le_of_mem_stringText hc
    · decide
    · exact le_of_mem_text v hf.1 c hc
  | (k, v) :: m :: rest, hf, c, hc => by
    rw [membersFinite, Bool.and_eq_true] at hf
    simp only [membersText, List.append_assoc, List.cons_append, List.mem_append,
      List.mem_cons] at hc
    rcases hc with hc | rfl | hc | rfl | hc
    · exact le_of_mem_stringText hc
    · decide
    · exact le_of_mem_text v hf.1 c hc
    · decide
    · exact le_of_mem_membersText (m :: rest) hf.2 c hc

end

end Stencil.Json
