import Stencil.Proofs.Decimal.Shortest

/-!
# Number text reads back

Whatever the layout of a decimal, reading the text gives the number back: zeros that are dropped or
added move the exponent only. So the text of a finite double, by its sign and its shortest decimal,
is the text of that double alone.
-/

namespace Stencil.Decimal

/-- Whole numbers are marked by nothing, or by a fraction of zero. -/
def Layout.Marks (l : Layout) : Prop := l.wholeMark = [] ∨ l.wholeMark = ['.', '0']

theorem Layout.marks_plain : Layout.plain.Marks := .inl rfl

theorem Layout.marks_interchange : Layout.interchange.Marks := .inr rfl

/-! ## Reading -/

variable {w f t : Text}

theorem readScientific?_whole (hw : w.all isDigit = true) (hne : w ≠ [])
    (ht : ∀ c ∈ t.head?, isDigit c = false ∧ c ≠ '.') :
    readScientific? (w ++ t) = (readExponent? t).map fun e => ⟨natOfDigits w, e⟩ := by
  obtain ⟨h1, h2⟩ := span_append hw fun c hc => (ht c hc).1
  have hpoint : ∀ r, t ≠ '.' :: r := by
    rintro r rfl
    exact (ht '.' rfl).2 rfl
  rw [readScientific?, h1, h2]
  split
  rename_i fraction rest hmatch
  obtain ⟨rfl, rfl⟩ : fraction = [] ∧ rest = t := by
    split at hmatch
    · exact absurd rfl (hpoint _)
    · exact ⟨(Prod.ext_iff.mp hmatch).1.symm, (Prod.ext_iff.mp hmatch).2.symm⟩
  simp [hne]

theorem readScientific?_point (hw : w.all isDigit = true) (hne : w ≠ [])
    (hf : f.all isDigit = true) (ht : ∀ c ∈ t.head?, isDigit c = false) :
    readScientific? (w ++ '.' :: (f ++ t)) =
      (readExponent? t).map fun e => ⟨natOfDigits (w ++ f), e - f.length⟩ := by
  obtain ⟨h1, h2⟩ := span_append (t := '.' :: (f ++ t)) hw (by simp; decide)
  obtain ⟨h3, h4⟩ := span_append hf ht
  rw [readScientific?, h1, h2]
  simp [h3, h4, hne]

/-- A fraction that ends the text. -/
theorem readScientific?_fraction (hw : w.all isDigit = true) (hne : w ≠ [])
    (hf : f.all isDigit = true) :
    readScientific? (w ++ '.' :: f) = some ⟨natOfDigits (w ++ f), -f.length⟩ := by
  have h := readScientific?_point (t := []) hw hne hf (by simp)
  rw [List.append_nil] at h
  rw [h]
  simp [readExponent?]

/-- A whole number that is all of the text. -/
theorem readScientific?_digits (hw : w.all isDigit = true) (hne : w ≠ []) :
    readScientific? w = some ⟨natOfDigits w, 0⟩ := by
  have h := readScientific?_whole (t := []) hw hne (by simp)
  rw [List.append_nil] at h
  rw [h]
  rfl

/-- The exponent that is written reads back. -/
theorem readExponent?_intText (e : Int) :
    readExponent? ('e' :: if 0 ≤ e then '+' :: intText e else intText e) = some e := by
  rw [readExponent?, if_pos (by decide)]
  cases e with
  | ofNat n =>
    rw [if_pos (show 0 ≤ Int.ofNat n from Int.natCast_nonneg n), intText,
      readInt?, readNat?_natText]
    rfl
  | negSucc n =>
    rw [if_neg (by omega), intText, readInt?, readNat?_natText]
    rfl

/-! ## Writing -/

namespace Scientific

/-- The exponent of the leading digit. -/
def lead (s : Scientific) : Int := s.exponent + ((natText s.digits).length - 1 : Nat)

/-- A decimal is its significant digits, counted from the leading one. -/
theorem toRat_eq_significant (s : Scientific) :
    s.toRat = natOfDigits (significant s.digits) *
      10 ^ (s.lead + 1 - (significant s.digits).length) := by
  obtain ⟨z, hz⟩ := natText_eq_significant s.digits
  have hvalue := natOfDigits_natText s.digits
  have hlen : 0 < (significant s.digits).length :=
    List.length_pos_iff.mpr (significant_ne_nil _)
  rw [hz, natOfDigits_append, natOfDigits_zeros, List.length_replicate, Nat.add_zero] at hvalue
  have hexp : s.lead + 1 - (significant s.digits).length = z + s.exponent := by
    rw [lead, hz, List.length_append, List.length_replicate]
    omega
  rw [hexp, zpow_add₀ (by norm_num), zpow_natCast, ← mul_assoc, toRat]
  congr 1
  exact_mod_cast hvalue.symm

end Scientific

variable {l : Layout}

/-- Digits written out with all zeros read back. -/
theorem readScientific?_positionalText (hl : l.Marks) {d : Text} (hd : d.all isDigit = true)
    (hne : d ≠ []) (lead : Int) :
    ∃ t, readScientific? (l.positionalText d lead) = some t ∧
      t.toRat = natOfDigits d * 10 ^ (lead + 1 - d.length) := by
  have hzeros : ∀ n, (List.replicate n '0').all isDigit = true := fun n =>
    List.all_eq_true.mpr fun c hc => by
      rw [List.eq_of_mem_replicate hc]
      decide
  have hlen : 0 < d.length := List.length_pos_iff.mpr hne
  rw [Layout.positionalText]
  split
  · -- the number starts behind the point
    rename_i hneg
    have hread := readScientific?_fraction (w := ['0'])
      (f := List.replicate (-lead - 1).toNat '0' ++ d) (by decide) (by simp)
      (by rw [List.all_append, hzeros, hd]; rfl)
    refine ⟨_, hread, ?_⟩
    have hvalue : natOfDigits (['0'] ++ (List.replicate (-lead - 1).toNat '0' ++ d)) =
        natOfDigits d := by
      rw [natOfDigits_append, natOfDigits_append, natOfDigits_zeros]
      simp [show natOfDigits ['0'] = 0 from rfl]
    rw [Scientific.toRat, hvalue, List.length_append, List.length_replicate]
    congr 2
    change -(((-lead - 1).toNat + d.length : Nat) : Int) = _
    omega
  · rename_i hneg
    simp only
    split
    · -- the number ends in front of the point
      rename_i hle
      have hall : (d ++ List.replicate (lead.toNat + 1 - d.length) '0').all isDigit = true := by
        rw [List.all_append, hd, hzeros]
        rfl
      have hvalue : natOfDigits (d ++ List.replicate (lead.toNat + 1 - d.length) '0') =
          natOfDigits d * 10 ^ (lead.toNat + 1 - d.length) := by
        rw [natOfDigits_append, natOfDigits_zeros, List.length_replicate, Nat.add_zero]
      have hexp : lead + 1 - d.length = (lead.toNat + 1 - d.length : Nat) := by omega
      rw [hexp, zpow_natCast]
      rcases hl with hmark | hmark <;> rw [hmark]
      · rw [List.append_nil]
        refine ⟨_, readScientific?_digits hall (by simp [hne]), ?_⟩
        rw [Scientific.toRat, hvalue]
        push_cast
        simp
      · refine ⟨_, readScientific?_fraction (f := ['0']) hall (by simp [hne]) (by decide), ?_⟩
        rw [Scientific.toRat, natOfDigits_append, hvalue]
        push_cast [show natOfDigits ['0'] = 0 from rfl]
        rw [List.length_singleton]
        norm_num
        ring
    · -- the point stands between two digits
      rename_i hlt
      have hsplit : (d.take (lead.toNat + 1) ++ d.drop (lead.toNat + 1)).all isDigit = true := by
        rwa [List.take_append_drop]
      rw [List.all_append, Bool.and_eq_true] at hsplit
      have hread := readScientific?_fraction hsplit.1
        (by rw [ne_eq, List.take_eq_nil_iff]; simp [hne]) hsplit.2
      refine ⟨_, hread, ?_⟩
      rw [Scientific.toRat, List.take_append_drop, List.length_drop]
      congr 2
      change -((d.length - (lead.toNat + 1) : Nat) : Int) = _
      omega

/-- Digits written with the exponent of the leading one read back. -/
theorem readScientific?_exponentText {d : Text} (hd : d.all isDigit = true) (hne : d ≠ [])
    (lead : Int) :
    ∃ t, readScientific? (exponentText d lead) = some t ∧
      t.toRat = natOfDigits d * 10 ^ (lead + 1 - d.length) := by
  obtain ⟨c, rest, rfl⟩ := List.exists_cons_of_ne_nil hne
  simp only [List.all_cons, Bool.and_eq_true] at hd
  have htext : exponentText (c :: rest) lead =
      [c] ++ ((if rest.isEmpty then [] else '.' :: rest) ++
        'e' :: if 0 ≤ lead then '+' :: intText lead else intText lead) := by
    simp [exponentText]
  rw [htext]
  cases rest with
  | nil =>
    refine ⟨⟨natOfDigits [c], lead⟩, ?_, ?_⟩
    · simp only [List.isEmpty_nil, if_true, List.nil_append]
      rw [readScientific?_whole (by simpa using hd.1) (by simp) (by simp; decide),
        readExponent?_intText]
      rfl
    · simp [Scientific.toRat]
  | cons c' rest =>
    refine ⟨⟨natOfDigits (c :: c' :: rest), lead - (c' :: rest).length⟩, ?_, ?_⟩
    · have hread := readScientific?_point (w := [c]) (f := c' :: rest)
        (t := 'e' :: if 0 ≤ lead then '+' :: intText lead else intText lead)
        (by simpa using hd.1) (by simp) hd.2 (by simp; decide)
      rw [readExponent?_intText] at hread
      exact hread
    · rw [Scientific.toRat]
      congr 2
      simp only [List.length_cons]
      omega

/-- A decimal reads back from its text, in any layout. -/
theorem readScientific?_decimalText (hl : l.Marks) (s : Scientific) :
    ∃ t, readScientific? (l.decimalText false s) = some t ∧ t.toRat = s.toRat := by
  have hd := all_isDigit_significant s.digits
  have hne := significant_ne_nil s.digits
  rw [s.toRat_eq_significant]
  change ∃ t, readScientific? (if l.positional s.lead
    then l.positionalText (significant s.digits) s.lead
    else exponentText (significant s.digits) s.lead) = some t ∧ _
  split
  · exact readScientific?_positionalText hl hd hne s.lead
  · exact readScientific?_exponentText hd hne s.lead

/-! ## Doubles -/

/-- The decimal that a finite double is written as. -/
theorem Layout.floatText_finite {f : Float} {b : Bool} {m : Nat} {q : Int}
    (h : Binary.ofFloat f = .finite b m q) :
    l.floatText f = l.decimalText b (if m = 0 then ⟨0, 0⟩ else shortest m q) := by
  rw [Layout.floatText, h]
  cases m with
  | zero => rfl
  | succ m => rfl

theorem Rounding.Contains.pos {m : Nat} {q : Int} {x : ℚ} (hm : 0 < m)
    (h : (Rounding.of m q).Contains x) : 0 < x := by
  have hlow := (h.bounds hm).1
  have hreach : (Rounding.reach m q : ℚ) ≤ 2 := by exact_mod_cast Rounding.reach_le_two m q
  have hm1 : (1 : ℚ) ≤ m := by exact_mod_cast hm
  have hu : (0 : ℚ) < 2 ^ (q - 2) := zpow_pos (by norm_num) _
  exact (div_pos_iff_of_pos_right hu).mp (by linarith)

/-- Doubles with the same decimal have the same parts. -/
theorem Canonical.eq_of_toRat {m m' : Nat} {q q' : Int} (hc : Canonical m q)
    (hc' : Canonical m' q')
    (h : Scientific.toRat (if m = 0 then ⟨0, 0⟩ else shortest m q) =
      Scientific.toRat (if m' = 0 then ⟨0, 0⟩ else shortest m' q')) :
    m = m' ∧ q = q' := by
  have hzero : Scientific.toRat ⟨0, 0⟩ = 0 := by simp [Scientific.toRat]
  by_cases hm : m = 0 <;> by_cases hm' : m' = 0
  · have := hc.normal
    have := hc'.normal
    omega
  · rw [if_pos hm, if_neg hm', hzero] at h
    have := (Rounding.contains_shortest hc' (Nat.pos_of_ne_zero hm')).pos (Nat.pos_of_ne_zero hm')
    exact absurd h this.ne
  · rw [if_neg hm, if_pos hm', hzero] at h
    have := (Rounding.contains_shortest hc (Nat.pos_of_ne_zero hm)).pos (Nat.pos_of_ne_zero hm)
    exact absurd h this.ne'
  · rw [if_neg hm, if_neg hm'] at h
    exact shortest_injective hc hc' (Nat.pos_of_ne_zero hm) (Nat.pos_of_ne_zero hm') h

theorem readScientific?_minus (s : Text) : readScientific? ('-' :: s) = none := rfl

theorem Layout.decimalText_negative (l : Layout) (s : Scientific) :
    l.decimalText true s = '-' :: l.decimalText false s := rfl

/-- The sign and the value of a decimal are in its text. -/
theorem Layout.decimalText_inj (hl : l.Marks) {b b' : Bool} {s s' : Scientific}
    (h : l.decimalText b s = l.decimalText b' s') : b = b' ∧ s.toRat = s'.toRat := by
  obtain ⟨t, hread, ht⟩ := readScientific?_decimalText hl s
  obtain ⟨t', hread', ht'⟩ := readScientific?_decimalText hl s'
  have hsame : l.decimalText false s = l.decimalText false s' → s.toRat = s'.toRat := by
    intro htext
    rw [htext, hread'] at hread
    rw [← ht, ← ht', Option.some.inj hread]
  cases b <;> cases b'
  · exact ⟨rfl, hsame h⟩
  · rw [Layout.decimalText_negative] at h
    rw [h, readScientific?_minus] at hread
    cases hread
  · rw [Layout.decimalText_negative] at h
    rw [← h, readScientific?_minus] at hread'
    cases hread'
  · rw [Layout.decimalText_negative, Layout.decimalText_negative] at h
    exact ⟨rfl, hsame (List.cons.inj h).2⟩

/-- A finite double is known by its text. -/
theorem Layout.floatText_injective (hl : l.Marks) {f g : Float} (hf : f.isFinite = true)
    (hg : g.isFinite = true) (h : l.floatText f = l.floatText g) : f = g := by
  obtain ⟨b, m, q, hb⟩ := Binary.isFinite_iff.mp hf
  obtain ⟨b', m', q', hb'⟩ := Binary.isFinite_iff.mp hg
  rw [floatText_finite hb, floatText_finite hb'] at h
  obtain ⟨rfl, hvalue⟩ := decimalText_inj hl h
  obtain ⟨rfl, rfl⟩ :=
    (Binary.ofFloat_canonical hb).eq_of_toRat (Binary.ofFloat_canonical hb') hvalue
  exact Binary.ofFloat_finite_inj hb hb'

/-! ## Characters -/

/-- The characters of decimals. -/
def isDecimalChar (c : Char) : Bool := isDigit c || ['.', 'e', '+', '-'].contains c

theorem all_isDecimalChar {d : Text} (hd : d.all isDigit = true) :
    d.all isDecimalChar = true :=
  List.all_eq_true.mpr fun c hc => by
    rw [isDecimalChar, List.all_eq_true.mp hd c hc, Bool.true_or]

theorem all_intText (e : Int) : (intText e).all isDecimalChar = true := by
  cases e with
  | ofNat n => exact all_isDecimalChar (all_isDigit_natText n)
  | negSucc n =>
    rw [intText, List.all_cons, all_isDecimalChar (all_isDigit_natText _)]
    rfl

theorem all_decimalText (hl : l.Marks) (b : Bool) (s : Scientific) :
    (l.decimalText b s).all isDecimalChar = true := by
  have hd := all_isDecimalChar (all_isDigit_significant s.digits)
  have hzeros : ∀ n, (List.replicate n '0').all isDecimalChar = true := fun n =>
    List.all_eq_true.mpr fun c hc => by
      rw [List.eq_of_mem_replicate hc]
      decide
  have hpart : ∀ n, ((significant s.digits).take n).all isDecimalChar = true ∧
      ((significant s.digits).drop n).all isDecimalChar = true := fun n => by
    rwa [← Bool.and_eq_true, ← List.all_append, List.take_append_drop]
  have hmark : l.wholeMark.all isDecimalChar = true := by
    rcases hl with h | h <;> rw [h] <;> decide
  have hbody : (l.decimalText false s).all isDecimalChar = true := by
    change (if l.positional s.lead
      then l.positionalText (significant s.digits) s.lead
      else exponentText (significant s.digits) s.lead).all isDecimalChar = true
    split
    · rw [Layout.positionalText]
      split
      · simp only [List.all_append, hd, hzeros, Bool.and_true]
        decide
      · simp only
        split
        · simp only [List.all_append, hd, hzeros, hmark, Bool.and_self]
        · rw [List.all_append, List.all_cons, (hpart _).1, (hpart _).2]
          decide
    · have hexp : (if 0 ≤ s.lead then '+' :: intText s.lead else intText s.lead).all
          isDecimalChar = true := by
        split
        · rw [List.all_cons, all_intText]
          decide
        · exact all_intText _
      simp only [exponentText, List.all_append, hexp, (hpart 1).1, Bool.and_true, Bool.true_and]
      split
      · decide
      · rw [List.all_cons, (hpart 1).2]
        decide
  cases b with
  | false => exact hbody
  | true =>
    rw [Layout.decimalText_negative, List.all_cons, hbody]
    decide

/-- A double written for interchange does not look like an integer. -/
theorem marked_decimalText (b : Bool) (s : Scientific) :
    '.' ∈ Layout.interchange.decimalText b s ∨ 'e' ∈ Layout.interchange.decimalText b s := by
  have hbody : '.' ∈ Layout.interchange.decimalText false s ∨
      'e' ∈ Layout.interchange.decimalText false s := by
    change '.' ∈ (if Layout.interchange.positional s.lead
      then Layout.interchange.positionalText (significant s.digits) s.lead
      else exponentText (significant s.digits) s.lead) ∨
      'e' ∈ (if Layout.interchange.positional s.lead
      then Layout.interchange.positionalText (significant s.digits) s.lead
      else exponentText (significant s.digits) s.lead)
    split
    · left
      rw [Layout.positionalText]
      split
      · simp
      · simp only
        split <;> simp [Layout.interchange]
    · right
      simp [exponentText]
  cases b with
  | false => exact hbody
  | true =>
    rw [Layout.decimalText_negative]
    exact hbody.imp (List.mem_cons_of_mem _) (List.mem_cons_of_mem _)

theorem unmarked_intText (e : Int) : '.' ∉ intText e ∧ 'e' ∉ intText e := by
  have hnat : ∀ n, '.' ∉ natText n ∧ 'e' ∉ natText n := fun n =>
    ⟨fun h => absurd (List.all_eq_true.mp (all_isDigit_natText n) _ h) (by decide),
      fun h => absurd (List.all_eq_true.mp (all_isDigit_natText n) _ h) (by decide)⟩
  cases e with
  | ofNat n => exact hnat n
  | negSucc n => simpa [intText] using hnat (n + 1)

/-- An integer is known by its text. -/
theorem intText_injective {e e' : Int} (h : intText e = intText e') : e = e' := by
  have hminus : ∀ n, '-' ∉ natText n := fun n hn =>
    absurd (List.all_eq_true.mp (all_isDigit_natText n) _ hn) (by decide)
  cases e <;> cases e' <;> rw [intText, intText] at h
  · rw [natText_injective h]
  · exact absurd (h ▸ List.mem_cons_self) (hminus _)
  · exact absurd (h ▸ List.mem_cons_self) (hminus _)
  · have := natText_injective (List.cons.inj h).2
    omega

end Stencil.Decimal
