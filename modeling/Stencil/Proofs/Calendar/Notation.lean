import Stencil.Calendar.Reader
import Stencil.Proofs.Calendar.Clock
import Stencil.Proofs.Calendar.Days
import Stencil.Proofs.Text.Pieces

/-!
# The plain notation reads back

What is written in the plain notation is read by the first of the lenient notations, in every year
of the calendar: a year of other than four digits carries a sign, and a signed year may have any
length. The notation of the internet timestamp is tried before, and has no offset to read.
-/

namespace Stencil.Calendar

variable {s rest : Text} {n : Nat}

/-! ## Fields -/

/-- A row of digits in front of the text ends there. -/
def StopsDigits (s : Text) : Prop := ∀ c ∈ s.head?, isDigit c = false

theorem stopsDigits_nil : StopsDigits [] := fun _ h => by cases h

theorem stopsDigits_cons {c : Char} (hc : isDigit c = false) (s : Text) : StopsDigits (c :: s) := by
  intro x hx
  obtain rfl := Option.some.inj hx
  exact hc

theorem isBlank_of_isDigit {c : Char} (h : isDigit c = true) : isBlank c = false :=
  Text.isBlank_of_isPlain (Text.isPlain_of_isDigit h)

theorem startsSolid_padded (width n : Nat) : Text.StartsSolid (Decimal.padded width n) := by
  intro c hc
  exact isBlank_of_isDigit
    (List.all_eq_true.mp (Decimal.all_isDigit_padded width n) c (List.mem_of_mem_head? hc))

theorem trimStart_padded (width n : Nat) (rest : Text) :
    (Decimal.padded width n ++ rest).trimStart = Decimal.padded width n ++ rest :=
  ((startsSolid_padded width n).append (Decimal.padded_ne_nil width n) rest).trimStart_eq

theorem readDigits_append {most : Nat} {w : Text} (hw : w.all isDigit = true) (hne : w ≠ [])
    (hmost : w.length ≤ most) (hrest : StopsDigits rest) :
    readDigits most (w ++ rest) = some (Decimal.natOfDigits w, rest) := by
  have hspan : (w ++ rest).takeWhile isDigit = w := (Decimal.span_append hw hrest).1
  unfold readDigits
  rw [hspan, List.take_of_length_le hmost]
  dsimp only
  rw [if_neg (by simp [hne]), List.drop_left]

/-- A number of two digits reads back. -/
theorem readDigits_padded (hn : n < 100) (hrest : StopsDigits rest) :
    readDigits 2 (Decimal.padded 2 n ++ rest).trimStart = some (n, rest) := by
  have hlength := Decimal.length_padded (show 0 < 2 by decide) (show n < 10 ^ 2 from hn)
  rw [trimStart_padded, readDigits_append (Decimal.all_isDigit_padded 2 n)
    (Decimal.padded_ne_nil 2 n) hlength.le hrest, Decimal.natOfDigits_padded]

/-- A year reads back, with its sign or by its four digits. -/
theorem readYear_yearText (year : Int) (hrest : StopsDigits rest) :
    readYear (yearText year ++ rest).trimStart = some (year, rest) := by
  have hdigits : ∀ {most n : Nat}, (Decimal.padded 4 n).length ≤ most →
      readDigits most (Decimal.padded 4 n ++ rest) = some (n, rest) := by
    intro most n hmost
    rw [readDigits_append (Decimal.all_isDigit_padded 4 n) (Decimal.padded_ne_nil 4 n) hmost hrest,
      Decimal.natOfDigits_padded]
  unfold yearText
  by_cases hfour : 0 ≤ year ∧ year ≤ 9999
  · have hlength := Decimal.length_padded (show 0 < 4 by decide)
      (show year.toNat < 10 ^ 4 by omega)
    have hread := hdigits hlength.le
    have hvalue : ((year.toNat : Nat) : Int) = year := by omega
    obtain ⟨c, w, hw⟩ := List.exists_cons_of_ne_nil (Decimal.padded_ne_nil 4 year.toNat)
    have hc : isDigit c = true := by
      have hall := Decimal.all_isDigit_padded 4 year.toNat
      rw [hw, List.all_cons, Bool.and_eq_true] at hall
      exact hall.1
    obtain ⟨hplus, hminus⟩ := Decimal.ne_sign_of_isDigit hc
    rw [if_pos hfour, trimStart_padded]
    rw [hw, List.cons_append] at hread ⊢
    rw [readYear.eq_3 _ (by simp [hminus]) (by simp [hplus]), hread, Option.map_some]
    exact congrArg (fun y => some (y, rest)) hvalue
  · have hmost : (Decimal.padded 4 year.natAbs).length ≤
        (Decimal.padded 4 year.natAbs ++ rest).length := by
      rw [List.length_append]
      omega
    rw [if_neg hfour]
    by_cases hneg : year < 0
    · have hvalue : -((year.natAbs : Nat) : Int) = year := by omega
      have hstart : Text.trimStart ('-' :: (Decimal.padded 4 year.natAbs ++ rest)) =
          '-' :: (Decimal.padded 4 year.natAbs ++ rest) := rfl
      rw [if_pos hneg, List.cons_append, hstart, readYear, hdigits hmost, Option.map_some]
      exact congrArg (fun y => some (y, rest)) hvalue
    · have hvalue : ((year.natAbs : Nat) : Int) = year := by omega
      have hstart : Text.trimStart ('+' :: (Decimal.padded 4 year.natAbs ++ rest)) =
          '+' :: (Decimal.padded 4 year.natAbs ++ rest) := rfl
      rw [if_neg hneg, List.cons_append, hstart, readYear, hdigits hmost, Option.map_some]
      exact congrArg (fun y => some (y, rest)) hvalue

/-! ## Whole points in time -/

/-- The plain notation with its parts in a row. -/
theorem plainText_eq (t : DateTime) : plainText t =
    yearText t.date.year ++ '-' :: (Decimal.padded 2 t.date.month ++ '-' ::
      (Decimal.padded 2 t.date.day ++ ' ' :: (Decimal.padded 2 t.hour ++ ':' ::
        (Decimal.padded 2 t.minute ++ ':' :: Decimal.padded 2 t.clockSecond)))) := by
  simp only [plainText, dateText, clockText, List.append_assoc, List.cons_append]

/-- The fields of the plain notation. -/
def plainFields (t : DateTime) : Fields :=
  ⟨t.date.year, t.date.month, t.date.day, t.hour, t.minute, t.clockSecond, 0⟩

theorem fields_lt (t : DateTime) : t.date.month < 100 ∧ t.date.day < 100 ∧ t.hour < 24 ∧
    t.minute < 60 ∧ t.secondOfMinute < 60 ∧ t.clockSecond ≤ 60 := by
  obtain ⟨hlow, hhigh⟩ := t.date.month_bounds
  obtain ⟨-, -, hday, hlast⟩ := t.date.valid
  have hlength := daysInMonth_le t.date.year t.date.month
  have hsecond := t.second_lt
  have hnano := t.nano_lt
  unfold DateTime.clockSecond DateTime.hour DateTime.minute DateTime.secondOfMinute
  omega

variable {f : Fields}

theorem read_year (year : Int) (hrest : StopsDigits rest) :
    Element.year.read f (yearText year ++ rest) = some ({ f with year := year }, rest) := by
  rw [Element.read]
  dsimp only
  rw [readYear_yearText year hrest]
  rfl

theorem dropPrefix?_mark (c : Char) (s : Text) : Text.dropPrefix? (c :: s) [c] = some s := by
  simp [Text.dropPrefix?]

theorem read_mark (c : Char) (rest : Text) :
    (Element.mark c).read f (c :: rest) = some (f, rest) := by
  rw [Element.read, dropPrefix?_mark]
  rfl

theorem read_blanks (h : Text.StartsSolid rest) :
    Element.blanks.read f (' ' :: rest) = some (f, rest) :=
  congrArg (fun s => some (f, s)) h.trimStart_eq

/-- The parts of two digits are put into their fields. -/
theorem read_two (hn : n < 100) (hrest : StopsDigits rest) :
    Element.month.read f (Decimal.padded 2 n ++ rest) = some ({ f with month := n }, rest) ∧
    Element.day.read f (Decimal.padded 2 n ++ rest) = some ({ f with day := n }, rest) ∧
    Element.hour.read f (Decimal.padded 2 n ++ rest) = some ({ f with hour := n }, rest) ∧
    Element.minute.read f (Decimal.padded 2 n ++ rest) = some ({ f with minute := n }, rest) ∧
    Element.second.read f (Decimal.padded 2 n ++ rest) = some ({ f with second := n }, rest) := by
  simp only [Element.read, readDigits_padded hn hrest, Option.map_some, and_self]

theorem readBy_cons {e : Element} {es : List Element} {g : Fields} {r : Text}
    (h : e.read f s = some (g, r)) : readBy (e :: es) f s = readBy es g r := by
  rw [readBy, h]
  rfl

/-- The first of the lenient notations reads the plain notation. -/
theorem readBy_plainText (t : DateTime) :
    readBy (dayNotation ++ [.blanks] ++ secondNotation) {} (plainText t) =
      some (plainFields t) := by
  obtain ⟨hmonth, hday, hhour, hminute, -, hsecond⟩ := fields_lt t
  have hhyphen : ∀ s, StopsDigits ('-' :: s) := stopsDigits_cons (by decide)
  have hspace : ∀ s, StopsDigits (' ' :: s) := stopsDigits_cons (by decide)
  have hcolon : ∀ s, StopsDigits (':' :: s) := stopsDigits_cons (by decide)
  have hsolid : ∀ s, Text.StartsSolid (Decimal.padded 2 t.hour ++ s) :=
    (startsSolid_padded 2 t.hour).append (Decimal.padded_ne_nil 2 t.hour)
  -- the last part is read in front of the empty text
  rw [plainText_eq, ← List.append_nil (Decimal.padded 2 t.clockSecond)]
  unfold dayNotation secondNotation minuteNotation
  simp only [List.cons_append, List.nil_append]
  rw [readBy_cons (read_year _ (hhyphen _)), readBy_cons (read_mark _ _),
    readBy_cons (read_two hmonth (hhyphen _)).1, readBy_cons (read_mark _ _),
    readBy_cons (read_two hday (hspace _)).2.1, readBy_cons (read_blanks (hsolid _)),
    readBy_cons (read_two (by omega) (hcolon _)).2.2.1, readBy_cons (read_mark _ _),
    readBy_cons (read_two (by omega) (hcolon _)).2.2.2.1, readBy_cons (read_mark _ _),
    readBy_cons (read_two (by omega) stopsDigits_nil).2.2.2.2]
  rfl

/-- The fields of the plain notation are those of the whole second. -/
theorem toDateTime?_plainFields {t : DateTime} (ht : t.OnClock) :
    (plainFields t).toDateTime? = some t.wholeSecond := by
  obtain ⟨-, -, hhour, hminute, hsecond, hclock⟩ := fields_lt t
  have hdate : Date.of? t.date.year t.date.month t.date.day = some t.date :=
    Date.of?_eq_some.mpr ⟨rfl, rfl, rfl⟩
  have hsum : 3600 * t.hour + 60 * t.minute + t.secondOfMinute = t.second := by
    unfold DateTime.hour DateTime.minute DateTime.secondOfMinute
    omega
  have hnano := t.nano_lt
  unfold Fields.toDateTime? plainFields DateTime.ofClock?
  dsimp only
  rw [hdate, Option.bind_some, if_pos ⟨hhour, hminute, hclock, by decide⟩]
  unfold DateTime.clockSecond
  by_cases hordinary : t.nano < 1000000000
  · have hfraction : t.nano / 1000000000 = 0 := Nat.div_eq_of_lt hordinary
    rw [hfraction, Nat.add_zero, if_neg (by omega), hsum]
    refine DateTime.of?_eq_some.mpr ⟨rfl, rfl, ?_⟩
    show 1000000000 * (t.nano / 1000000000) = 0
    rw [hfraction]
  · -- the last second of a minute, shown as the one after it
    have hlast : t.secondOfMinute = 59 := ht.resolve_left hordinary
    have hfraction : t.nano / 1000000000 = 1 := by omega
    rw [hfraction, hlast, if_pos rfl, ← hlast, hsum]
    refine DateTime.of?_eq_some.mpr ⟨rfl, rfl, ?_⟩
    show 1000000000 * (t.nano / 1000000000) = 0 + 1000000000
    rw [hfraction]

theorem readFixed_padded {width : Nat} (hwidth : 0 < width) (hn : n < 10 ^ width) (rest : Text) :
    readFixed width (Decimal.padded width n ++ rest) = some (n, rest) := by
  have hlength := Decimal.length_padded hwidth hn
  unfold readFixed
  dsimp only
  rw [List.take_left' hlength, List.drop_left' hlength, Decimal.natOfDigits_padded]
  simp [hlength, Decimal.all_isDigit_padded]

theorem readFixed_two {n : Nat} (hn : n < 100) (rest : Text) :
    readFixed 2 (Decimal.padded 2 n ++ rest) = some (n, rest) :=
  readFixed_padded (by decide) hn rest

theorem readFixed_eq_none {width : Nat} {c : Char} (hwidth : 0 < width) (hc : isDigit c = false)
    (s : Text) : readFixed width (c :: s) = none := by
  obtain ⟨k, rfl⟩ : ∃ k, width = k + 1 := ⟨width - 1, by omega⟩
  unfold readFixed
  simp [hc]

theorem bind_of_eq_some {α β : Type} {x : Option α} {a : α} (h : x = some a) (f : α → Option β) :
    (x >>= f) = f a := by
  rw [h]
  rfl

/-- An internet timestamp has an offset, and its year no sign. -/
theorem readStamp_plainText (t : DateTime) : readStamp (plainText t) = none := by
  obtain ⟨hmonth, hday, hhour, hminute, -, hsecond⟩ := fields_lt t
  have hblank : ∀ s : Text, (Text.dropPrefix? (' ' :: s) ['T']).or
      ((Text.dropPrefix? (' ' :: s) ['t']).or (Text.dropPrefix? (' ' :: s) [' '])) = some s :=
    fun s => by simp [Text.dropPrefix?]
  rw [plainText_eq, ← List.append_nil (Decimal.padded 2 t.clockSecond)]
  unfold yearText readStamp
  by_cases hfour : 0 ≤ t.date.year ∧ t.date.year ≤ 9999
  · have hyear : t.date.year.toNat < 10 ^ 4 := by omega
    rw [if_pos hfour, bind_of_eq_some (readFixed_padded (by decide) hyear _)]
    dsimp only
    rw [bind_of_eq_some (dropPrefix?_mark _ _), bind_of_eq_some (readFixed_two hmonth _)]
    dsimp only
    rw [bind_of_eq_some (dropPrefix?_mark _ _), bind_of_eq_some (readFixed_two hday _)]
    dsimp only
    rw [bind_of_eq_some (hblank _), bind_of_eq_some (readFixed_two (by omega) _)]
    dsimp only
    rw [bind_of_eq_some (dropPrefix?_mark _ _), bind_of_eq_some (readFixed_two (by omega) _)]
    dsimp only
    rw [bind_of_eq_some (dropPrefix?_mark _ _), bind_of_eq_some (readFixed_two (by omega) _)]
    -- nothing is left for the offset
    rfl
  · have hsign : isDigit (if t.date.year < 0 then '-' else '+') = false := by split <;> rfl
    rw [if_neg hfour, List.cons_append, readFixed_eq_none (by decide) hsign]
    rfl

/-- **The plain notation reads back as the whole second.** -/
theorem read?_plainText {t : DateTime} (ht : t.OnClock) :
    read? (plainText t) = some t.wholeSecond := by
  unfold read? notations
  rw [readStamp_plainText, Option.bind_none]
  dsimp only
  rw [List.findSome?_cons, readBy_plainText, Option.bind_some, toDateTime?_plainFields ht]

/-- The plain notation has no blank around it. -/
theorem trim_plainText (t : DateTime) : (plainText t).trim = plainText t := by
  refine Text.trim_eq_self_iff.mpr ⟨?_, ?_⟩
  · have hyear : Text.StartsSolid (yearText t.date.year) ∧ yearText t.date.year ≠ [] := by
      unfold yearText
      split
      · exact ⟨startsSolid_padded 4 _, Decimal.padded_ne_nil 4 _⟩
      · refine ⟨fun c hc => ?_, List.cons_ne_nil _ _⟩
        obtain rfl := Option.some.inj hc
        split <;> rfl
    rw [plainText_eq]
    exact hyear.1.append hyear.2 _
  · have hsecond : Text.EndsSolid (Decimal.padded 2 t.clockSecond) := fun c hc =>
      isBlank_of_isDigit (List.all_eq_true.mp (Decimal.all_isDigit_padded 2 t.clockSecond) c
        (List.mem_of_getLast? hc))
    have hsplit : plainText t = (dateText t.date ++ ' ' :: (Decimal.padded 2 t.hour ++
        ':' :: Decimal.padded 2 t.minute ++ [':'])) ++ Decimal.padded 2 t.clockSecond := by
      simp only [plainText, clockText, List.append_assoc, List.cons_append, List.nil_append]
    rw [hsplit]
    exact hsecond.of_append (Decimal.padded_ne_nil 2 _) _

/-! ## What is read is on the clock -/

theorem onClock_of_toDateTime? {f : Fields} {t : DateTime} (h : f.toDateTime? = some t) :
    t.OnClock := by
  obtain ⟨date, -, h⟩ := Option.bind_eq_some_iff.mp h
  unfold DateTime.ofClock? at h
  split at h
  · split at h
    · obtain ⟨-, hsecond, -⟩ := DateTime.of?_eq_some.mp h
      refine .inr ?_
      unfold DateTime.secondOfMinute
      omega
    · obtain ⟨-, -, hnano⟩ := DateTime.of?_eq_some.mp h
      exact .inl (by omega)
  · cases h

theorem onClock_of_read? {t : DateTime} (h : read? s = some t) : t.OnClock := by
  unfold read? at h
  split at h
  · rename_i u hu
    obtain rfl := Option.some.inj h
    obtain ⟨stamp, -, ht⟩ := Option.bind_eq_some_iff.mp hu
    exact onClock_of_toDateTime? ht
  · obtain ⟨elements, -, hread⟩ := List.exists_of_findSome?_eq_some h
    obtain ⟨f, -, ht⟩ := Option.bind_eq_some_iff.mp hread
    exact onClock_of_toDateTime? ht

end Stencil.Calendar
