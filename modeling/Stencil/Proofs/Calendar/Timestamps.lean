import Stencil.Proofs.Calendar.Notation

/-!
# Timestamps

The seconds of the calendar have no gaps either: every timestamp from that of the first midnight to
that of the last second of the last day is that of one point in time, and no other timestamp is. A
timestamp that is written in digits is never taken for one of the notations of dates, all of which
have a hyphen behind the year.
-/

namespace Stencil

open Calendar

namespace Date

/-- The first day of the calendar. -/
def first : Date := ⟨minYear, 1, 1, by decide⟩

/-- The last day of the calendar. -/
def last : Date := ⟨maxYear, 12, 31, by decide⟩

/-- No day comes before the first day of its year or after the last. -/
theorem dayNumber_bounds (d : Date) : daysBeforeYear d.year - daysBeforeYear 1970 ≤ d.dayNumber ∧
    d.dayNumber < daysBeforeYear (d.year + 1) - daysBeforeYear 1970 := by
  have hday := d.dayOfYear_lt
  have hsucc := daysBeforeYear_succ d.year
  unfold dayNumber
  omega

/-- **The days of the calendar are those from its first to its last.** -/
theorem exists_ofDayNumber?_iff {n : Int} :
    (∃ d, ofDayNumber? n = some d) ↔ first.dayNumber ≤ n ∧ n ≤ last.dayNumber := by
  have hfirst : first.dayNumber = daysBeforeYear minYear - daysBeforeYear 1970 := by decide
  have hlast : last.dayNumber = daysBeforeYear (maxYear + 1) - daysBeforeYear 1970 - 1 := by decide
  constructor
  · rintro ⟨d, hd⟩
    obtain ⟨hlow, hhigh⟩ := d.dayNumber_bounds
    obtain ⟨hmin, hmax, -, -⟩ := d.valid
    have hfront := daysBeforeYear_mono hmin
    have hback := daysBeforeYear_mono (show d.year + 1 ≤ maxYear + 1 by omega)
    rw [← dayNumber_of_ofDayNumber? hd]
    omega
  · rintro ⟨hlow, hhigh⟩
    obtain ⟨hsum, hlt⟩ := yearOfDays_spec (n + daysBeforeYear 1970)
    unfold ofDayNumber?
    generalize yearOfDays (n + daysBeforeYear 1970) = found at hsum hlt ⊢
    obtain ⟨year, day⟩ := found
    dsimp only at hsum hlt ⊢
    have hsucc := daysBeforeYear_succ year
    have hmin : minYear ≤ year := by
      by_contra hyear
      have := daysBeforeYear_mono (show year + 1 ≤ minYear by omega)
      omega
    have hmax : year ≤ maxYear := by
      by_contra hyear
      have := daysBeforeYear_mono (show maxYear + 1 ≤ year by omega)
      omega
    -- the day of the year lies in one of its months
    have hmonth := monthOfDays_spec year 11 1 day le_rfl (by
      rw [daysBeforeMonth_end]
      show 0 + day < yearLength year
      omega)
    exact exists_of?_iff.mpr ⟨hmin, hmax, hmonth.2.2.1, hmonth.2.2.2.1⟩

end Date

namespace DateTime

/-- The start of the first day of the calendar. -/
def first : DateTime := .midnight .first

/-- The last second of the last day of the calendar. -/
def last : DateTime := { midnight .last with second := 86399, second_lt := by decide }

variable {t : DateTime} {seconds : Int} {nano : Nat}

/-- A point in time is that of its timestamp and its nanoseconds, and of no others. -/
theorem ofTimestamp?_eq_some :
    ofTimestamp? seconds nano = some t ↔ t.timestamp = seconds ∧ t.nano = nano := by
  have hsecond := t.second_lt
  unfold ofTimestamp? timestamp
  rw [Option.bind_eq_some_iff]
  constructor
  · rintro ⟨date, hdate, ht⟩
    obtain ⟨rfl, hclock, hnano⟩ := of?_eq_some.mp ht
    have hnumber := Date.dayNumber_of_ofDayNumber? hdate
    exact ⟨by omega, hnano⟩
  · rintro ⟨hsum, hnano⟩
    have hnumber : seconds / 86400 = t.date.dayNumber := by omega
    have hclock : t.second = (seconds % 86400).toNat := by omega
    rw [hnumber]
    exact ⟨t.date, t.date.ofDayNumber?_dayNumber, of?_eq_some.mpr ⟨rfl, hclock, hnano⟩⟩

/-- **The timestamps of the calendar are those from its first second to its last.** -/
theorem exists_ofTimestamp?_iff :
    (∃ t, ofTimestamp? seconds 0 = some t) ↔ first.timestamp ≤ seconds ∧
    seconds ≤ last.timestamp := by
  have hfirst : first.timestamp = 86400 * Date.first.dayNumber := by decide
  have hlast : last.timestamp = 86400 * Date.last.dayNumber + 86399 := by decide
  have hdays : (Date.first.dayNumber ≤ seconds / 86400 ∧ seconds / 86400 ≤ Date.last.dayNumber) ↔
      first.timestamp ≤ seconds ∧ seconds ≤ last.timestamp := by omega
  rw [← hdays, ← Date.exists_ofDayNumber?_iff]
  constructor
  · rintro ⟨t, ht⟩
    obtain ⟨date, hdate, -⟩ := Option.bind_eq_some_iff.mp ht
    exact ⟨date, hdate⟩
  · rintro ⟨date, hdate⟩
    have hsecond : (seconds % 86400).toNat < 86400 := by omega
    refine ⟨⟨date, (seconds % 86400).toNat, 0, hsecond, by decide⟩, ?_⟩
    unfold ofTimestamp?
    rw [hdate, Option.bind_some]
    exact of?_eq_some.mpr ⟨rfl, rfl, rfl⟩

/-- The range in numbers. -/
example : first.timestamp = -8334601228800 ∧ last.timestamp = 8210266876799 := by decide

end DateTime

namespace Calendar

variable {s rest : Text}

/-! ## Digits are no notation -/

theorem suffix_of_readDigits {most n : Nat} (h : readDigits most s = some (n, rest)) :
    rest <:+ s.tail := by
  unfold readDigits at h
  dsimp only at h
  split at h
  · cases h
  · rename_i hdigits
    obtain ⟨-, rfl⟩ := Prod.mk.inj (Option.some.inj h)
    obtain ⟨k, hk⟩ : ∃ k, ((s.takeWhile isDigit).take most).length = k + 1 :=
      Nat.exists_eq_succ_of_ne_zero (by simpa using hdigits)
    rw [hk, ← List.drop_tail]
    exact List.drop_suffix k s.tail

/-- A year takes at least one character. -/
theorem suffix_of_readYear {n : Int} (h : readYear s = some (n, rest)) : rest <:+ s.tail := by
  unfold readYear at h
  split at h
  all_goals
    obtain ⟨⟨m, r⟩, hread, heq⟩ := Option.map_eq_some_iff.mp h
    obtain ⟨-, rfl⟩ := Prod.mk.inj heq
    have hsuffix := suffix_of_readDigits hread
  · exact hsuffix.trans (List.tail_suffix _)
  · exact hsuffix.trans (List.tail_suffix _)
  · exact hsuffix

/-- No hyphen stands behind a text that has none. -/
theorem dropPrefix?_hyphen (hrest : rest <:+ s.tail) (h : '-' ∉ s.tail) :
    rest.dropPrefix? ['-'] = none := by
  by_contra hsome
  obtain ⟨r, hr⟩ := Option.ne_none_iff_exists'.mp hsome
  rw [Text.dropPrefix?_eq_some.mp hr] at hrest
  exact h (hrest.subset (by simp))

theorem readBy_year_eq_none {es : List Element} {f : Fields} (hsolid : Text.StartsSolid s)
    (h : '-' ∉ s.tail) : readBy (.year :: .mark '-' :: es) f s = none := by
  rw [readBy, Element.read]
  dsimp only
  rw [hsolid.trimStart_eq, Option.bind_eq_none_iff]
  rintro ⟨g, rest⟩ hread
  obtain ⟨⟨n, r⟩, hyear, heq⟩ := Option.map_eq_some_iff.mp hread
  obtain ⟨-, rfl⟩ := Prod.mk.inj heq
  rw [readBy, Element.read]
  dsimp only
  rw [dropPrefix?_hyphen (suffix_of_readYear hyear) h]
  rfl

theorem readStamp_eq_none (h : '-' ∉ s.tail) : readStamp s = none := by
  unfold readStamp
  rw [Option.bind_eq_bind, Option.bind_eq_none_iff]
  rintro ⟨year, rest⟩ hread
  have hrest : rest <:+ s.tail := by
    unfold readFixed at hread
    dsimp only at hread
    split at hread
    · obtain ⟨-, rfl⟩ := Prod.mk.inj (Option.some.inj hread)
      rw [← List.drop_tail]
      exact List.drop_suffix 3 s.tail
    · cases hread
  dsimp only
  rw [dropPrefix?_hyphen hrest h]
  rfl

/-- **Every notation of dates has a hyphen behind its first character.** -/
theorem read?_eq_none (hsolid : Text.StartsSolid s) (h : '-' ∉ s.tail) : read? s = none := by
  have hyear : ∀ n ∈ notations, ∃ es, n = .year :: .mark '-' :: es := by
    simp [notations, dayNotation]
  unfold read?
  rw [readStamp_eq_none h, Option.bind_none]
  refine List.findSome?_eq_none_iff.mpr fun n hn => ?_
  obtain ⟨es, rfl⟩ := hyear n hn
  rw [readBy_year_eq_none hsolid h, Option.bind_none]

/-- An integer has no blank in it. -/
theorem trim_intText (n : Int) : Text.trim (Decimal.intText n) = Decimal.intText n := by
  have hsolid : ∀ c ∈ Decimal.intText n, isBlank c = false := by
    obtain ⟨c, w, hcw, hdigits, hc⟩ := Decimal.intText_eq_cons n
    rw [hcw]
    rintro d (_ | ⟨_, hd⟩)
    · rcases hc with hc | ⟨rfl, -⟩
      · exact isBlank_of_isDigit hc
      · decide
    · exact isBlank_of_isDigit (List.all_eq_true.mp hdigits d hd)
  exact Text.trim_eq_self_iff.mpr ⟨fun c hc => hsolid c (List.mem_of_mem_head? hc),
    fun c hc => hsolid c (List.mem_of_getLast? hc)⟩

/-- **An integer is no notation of a date.** -/
theorem read?_intText (n : Int) : read? (Decimal.intText n) = none := by
  obtain ⟨hsolid, -⟩ := Text.trim_eq_self_iff.mp (trim_intText n)
  obtain ⟨c, w, hcw, hdigits, -⟩ := Decimal.intText_eq_cons n
  refine read?_eq_none hsolid fun hmem => ?_
  rw [hcw] at hmem
  exact absurd (List.all_eq_true.mp hdigits '-' hmem) (by decide)

end Calendar

end Stencil
