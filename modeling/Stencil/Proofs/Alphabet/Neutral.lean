import Stencil.Calendar.Writer
import Stencil.Proofs.Json.Text
import Stencil.Sha256
import Stencil.Template.Protection
import Stencil.Text.Case

/-!
# Neutral texts

Numbers, dates, digests and the images of case mappings are written with characters that have no
part in markup and do not end placeholders.
-/

namespace Stencil

open ProtectedRegions

/-- A character with a part neither in markup nor in the ends of placeholders. -/
def isNeutral (c : Char) : Bool := c ≠ '<' && c ≠ '>' && c ≠ opener && c ≠ closer

/-- A text of neutral characters. -/
def Neutral (s : Text) : Prop := ∀ c ∈ s, isNeutral c = true

/-- What is asked of the characters of a text is decided one by one, and not for all characters
there are. -/
instance (priority := 2000) decidableForallMemText (s : Text) (p : Char → Prop) [DecidablePred p] :
    Decidable (∀ c ∈ s, p c) :=
  List.decidableBAll p s

instance (s : Text) : Decidable (Neutral s) := inferInstanceAs (Decidable (∀ c ∈ s, _))

theorem neutral_append {s t : Text} : Neutral (s ++ t) ↔ Neutral s ∧ Neutral t :=
  List.forall_mem_append

theorem neutral_cons {c : Char} {s : Text} (hc : isNeutral c = true) (hs : Neutral s) :
    Neutral (c :: s) :=
  List.forall_mem_cons.mpr ⟨hc, hs⟩

theorem neutral_take {s : Text} (h : Neutral s) (n : Nat) : Neutral (s.take n) :=
  fun c hc => h c (List.mem_of_mem_take hc)

/-! ## Numbers and digests -/

theorem isNeutral_of_isDigit {c : Char} (h : isDigit c = true) : isNeutral c = true := by
  cases hn : isNeutral c with
  | true => rfl
  | false =>
    simp only [isNeutral, Bool.and_eq_false_iff, decide_eq_false_iff_not, not_not] at hn
    rcases hn with ((rfl | rfl) | rfl) | rfl
    all_goals exact absurd h (by decide)

theorem neutral_of_isDecimalChar {s : Text} (h : s.all Decimal.isDecimalChar = true) :
    Neutral s := by
  intro c hc
  have hd := List.all_eq_true.mp h c hc
  rw [Decimal.isDecimalChar, Bool.or_eq_true] at hd
  rcases hd with hd | hd
  · exact isNeutral_of_isDigit hd
  · have hmarks : ∀ x ∈ ['.', 'e', '+', '-'], isNeutral x = true := by decide
    exact hmarks c (by simpa using hd)

theorem neutral_natText (n : Nat) : Neutral (Decimal.natText n) := fun c hc =>
  isNeutral_of_isDigit (List.all_eq_true.mp (Decimal.all_isDigit_natText n) c hc)

theorem neutral_intText (n : Int) : Neutral (Decimal.intText n) :=
  neutral_of_isDecimalChar (Decimal.all_intText n)

theorem neutral_floatText {l : Decimal.Layout} (hl : l.Marks) (f : Float) :
    Neutral (l.floatText f) := by
  unfold Decimal.Layout.floatText
  split
  · decide
  · split <;> decide
  · exact neutral_of_isDecimalChar (Decimal.all_decimalText hl _ _)
  · exact neutral_of_isDecimalChar (Decimal.all_decimalText hl _ _)

theorem neutral_digitChar (n : Nat) : isNeutral (Nat.digitChar n) = true := by
  have hsmall : ∀ n < 16, isNeutral (Nat.digitChar n) = true := by decide
  by_cases hn : n < 16
  · exact hsmall n hn
  · have hstar : Nat.digitChar n = '*' := by
      unfold Nat.digitChar
      repeat rw [if_neg (by omega)]
    rw [hstar]
    decide

theorem neutral_hexDigest (message : List UInt8) : Neutral (Sha256.hexDigest message).toList := by
  rw [Sha256.hexDigest, String.toList_ofList]
  intro c hc
  obtain ⟨w, -, hc⟩ := List.mem_flatMap.mp hc
  obtain ⟨i, -, rfl⟩ := List.mem_map.mp hc
  exact neutral_digitChar _

/-! ## Letter case -/

namespace Text

theorem isNeutral_ofNat {n : Nat} (h : n ≠ 0x3C ∧ n ≠ 0x3E ∧ n ≠ 0xE000 ∧ n ≠ 0xE001) :
    isNeutral (Char.ofNat n) = true := by
  have hne : ∀ c : Char, c.toNat ≠ 0 → n ≠ c.toNat → Char.ofNat n ≠ c := by
    rintro c h0 hn rfl
    unfold Char.ofNat at h0 hn
    by_cases hvalid : n.isValidChar
    · rw [dif_pos hvalid] at hn
      exact hn rfl
    · rw [dif_neg hvalid] at h0
      exact h0 rfl
  simp only [isNeutral, Bool.and_eq_true, decide_eq_true_eq]
  exact ⟨⟨⟨hne '<' (by decide) h.1, hne '>' (by decide) h.2.1⟩, hne opener (by decide) h.2.2.1⟩,
    hne closer (by decide) h.2.2.2⟩

/-- Every image of a run lies above the ASCII punctuation, and on one side of the private ends of
placeholders. -/
def CaseRun.avoids (run : CaseRun) : Bool :=
  0x3E < run.first + run.shift && (run.last + run.shift < 0xE000 || 0xE001 < run.first + run.shift)

theorem CaseRun.isNeutral_image {run : CaseRun} (h : run.avoids = true) {n : Nat} {c : Char}
    (hc : run.image? n = some c) : isNeutral c = true := by
  simp only [avoids, Bool.and_eq_true, Bool.or_eq_true, decide_eq_true_eq] at h
  unfold image? at hc
  split at hc
  · rename_i hn
    simp only [Bool.and_eq_true, decide_eq_true_eq] at hn
    obtain rfl := Option.some.inj hc
    exact isNeutral_ofNat (by omega)
  · exact absurd hc (by simp)

/-- Case mappings beyond ASCII lead to neutral characters, or nowhere. -/
theorem mapCase_cases {runs : List CaseRun} {expansions : List (Nat × List Nat)}
    (hruns : runs.all CaseRun.avoids = true)
    (hexpansions : expansions.all (fun e => e.2.all fun n => isNeutral (Char.ofNat n)) = true)
    (c : Char) :
    mapCase runs expansions c = [c] ∨ Neutral (mapCase runs expansions c) := by
  unfold mapCase
  split
  · rename_i image himage
    refine .inr fun x hx => ?_
    obtain ⟨n, hn, rfl⟩ := List.mem_map.mp hx
    have hmem : (c.toNat, image) ∈ expansions := by
      obtain ⟨l₁, l₂, rfl, -⟩ := List.lookup_eq_some_iff.mp himage
      simp
    exact List.all_eq_true.mp (List.all_eq_true.mp hexpansions _ hmem) n hn
  · cases himage : runs.findSome? (·.image? c.toNat) with
    | none => exact .inl rfl
    | some x =>
      obtain ⟨run, hrun, hx⟩ := List.exists_of_findSome?_eq_some himage
      refine .inr fun y hy => ?_
      obtain rfl : y = x := by simpa using hy
      exact run.isNeutral_image (List.all_eq_true.mp hruns run hrun) hx

theorem upperChar_cases (c : Char) : upperChar c = [c] ∨ Neutral (upperChar c) := by
  have hascii : ∀ n < 0x80, upperChar (Char.ofNat n) = [Char.ofNat n] ∨
      Neutral (upperChar (Char.ofNat n)) := by
    decide +kernel
  by_cases hc : c.toNat < 0x80
  · have := hascii c.toNat hc
    rwa [Char.ofNat_toNat] at this
  · rw [upperChar, if_neg hc]
    exact mapCase_cases (by decide +kernel) (by decide +kernel) c

theorem lowerChar_cases (c : Char) : lowerChar c = [c] ∨ Neutral (lowerChar c) := by
  have hascii : ∀ n < 0x80, lowerChar (Char.ofNat n) = [Char.ofNat n] ∨
      Neutral (lowerChar (Char.ofNat n)) := by
    decide +kernel
  by_cases hc : c.toNat < 0x80
  · have := hascii c.toNat hc
    rwa [Char.ofNat_toNat] at this
  · rw [lowerChar, if_neg hc]
    exact mapCase_cases (by decide +kernel) (by decide +kernel) c

end Text

/-! ## Dates -/

namespace Calendar

theorem neutral_padded (width n : Nat) : Neutral (Decimal.padded width n) := by
  refine neutral_append.mpr ⟨fun c hc => ?_, neutral_natText n⟩
  rw [List.eq_of_mem_replicate hc]
  decide

theorem neutral_yearText (year : Int) : Neutral (yearText year) := by
  unfold yearText
  split
  · exact neutral_padded 4 _
  · refine neutral_cons ?_ (neutral_padded 4 _)
    split <;> decide

theorem neutral_dateText (d : Date) : Neutral (dateText d) := by
  have hmonth := neutral_cons (c := '-') (by decide) (neutral_padded 2 d.month)
  have hday := neutral_cons (c := '-') (by decide) (neutral_padded 2 d.day)
  exact neutral_append.mpr ⟨neutral_append.mpr ⟨neutral_yearText d.year, hmonth⟩, hday⟩

theorem neutral_clockText (t : DateTime) : Neutral (clockText t) := by
  have hminute := neutral_cons (c := ':') (by decide) (neutral_padded 2 t.minute)
  have hsecond := neutral_cons (c := ':') (by decide) (neutral_padded 2 t.clockSecond)
  exact neutral_append.mpr ⟨neutral_append.mpr ⟨neutral_padded 2 t.hour, hminute⟩, hsecond⟩

theorem neutral_plainText (t : DateTime) : Neutral (plainText t) :=
  neutral_append.mpr ⟨neutral_dateText t.date, neutral_cons (by decide) (neutral_clockText t)⟩

theorem neutral_stampText (t : DateTime) : Neutral (stampText t) :=
  neutral_append.mpr ⟨neutral_append.mpr
    ⟨neutral_dateText t.date, neutral_cons (by decide) (neutral_clockText t)⟩, by decide⟩

/-- The names of a table are neutral if all its entries are. -/
theorem neutral_getD {names : List String} (h : ∀ name ∈ names, Neutral name.toList) (n : Nat) :
    Neutral (names.getD n "").toList := by
  rw [List.getD_eq_getElem?_getD]
  cases hn : names[n]? with
  | none => decide
  | some name => exact h name (List.mem_of_getElem? hn)

theorem neutral_weekdayName (n : Nat) : Neutral (weekdayName n) := neutral_getD (by decide) n

theorem neutral_monthName (n : Nat) : Neutral (monthName n) := neutral_getD (by decide) (n - 1)

theorem neutral_mailText (t : DateTime) : Neutral (mailText t) := by
  have hday := neutral_cons (c := ' ') (by decide) (neutral_take (neutral_monthName t.date.month) 3)
  have hyear := neutral_cons (c := ' ') (by decide) (neutral_yearText t.date.year)
  have hclock := neutral_cons (c := ' ') (by decide) (neutral_clockText t)
  have hfront := neutral_append.mpr ⟨neutral_take (neutral_weekdayName t.date.weekday) 3,
    show Neutral ", ".toList by decide⟩
  exact neutral_append.mpr ⟨neutral_append.mpr ⟨neutral_append.mpr ⟨neutral_append.mpr
    ⟨neutral_append.mpr ⟨hfront, neutral_padded 2 _⟩, hday⟩, hyear⟩, hclock⟩, by decide⟩

/-- A character of a format stands for neutral text, or for itself. -/
theorem formatField_cases (t : DateTime) (c : Char) :
    Neutral (formatField t c) ∨ formatField t c = [c] := by
  unfold formatField
  dsimp only
  split
  · exact .inl (neutral_padded 2 _)
  · exact .inl (neutral_take (neutral_weekdayName _) 3)
  · exact .inl (neutral_natText _)
  · exact .inl (neutral_weekdayName _)
  · exact .inl (neutral_natText _)
  · exact .inl (neutral_natText _)
  · exact .inl (neutral_natText _)
  · exact .inl (neutral_padded 2 _)
  · exact .inl (neutral_monthName _)
  · exact .inl (neutral_padded 2 _)
  · exact .inl (neutral_take (neutral_monthName _) 3)
  · exact .inl (neutral_natText _)
  · exact .inl (neutral_natText _)
  · exact .inl (by split <;> decide)
  · exact .inl (neutral_intText _)
  · exact .inl (neutral_padded 2 _)
  · exact .inl (by split <;> decide)
  · exact .inl (by split <;> decide)
  · exact .inl (neutral_natText _)
  · exact .inl (neutral_natText _)
  · exact .inl (neutral_padded 2 _)
  · exact .inl (neutral_padded 2 _)
  · exact .inl (neutral_padded 2 _)
  · exact .inl (neutral_padded 2 _)
  · exact .inl (neutral_intText _)
  · exact .inl (neutral_stampText t)
  · exact .inl (neutral_mailText t)
  · exact .inr rfl

/-- What a date is written with is neutral, or stands in the format. -/
theorem mem_write {t : DateTime} {format : Text} {c : Char} (h : c ∈ write t format) :
    c ∈ format ∨ isNeutral c = true := by
  fun_induction write t format with
  | case1 => exact absurd h (by simp)
  | case2 x format ih =>
    rcases List.mem_cons.mp h with rfl | h
    · exact .inl (by simp)
    · exact (ih h).imp_left fun h => by simp [h]
  | case3 format _ ih => exact (ih h).imp_left fun h => by simp [h]
  | case4 x format _ _ ih =>
    rcases List.mem_append.mp h with h | h
    · rcases formatField_cases t x with hx | hx
      · exact .inr (hx c h)
      · rw [hx, List.mem_singleton] at h
        exact .inl (by simp [h])
    · exact (ih h).imp_left fun h => by simp [h]

end Calendar

end Stencil
