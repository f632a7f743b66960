import Stencil.Calendar.Writer
import Stencil.Proofs.Calendar.Days
import Stencil.Proofs.Calendar.Moves

/-!
# Shifting by months

A shift by months counts months from the start of the year zero. The day is kept unless the month is
too short for it, and the length of a month that decides this is the one that a date format prints,
although the format finds it by another way: from the day before the first of the next month.
-/

namespace Stencil

open Calendar

namespace Date

/-! ## The length of a month -/

/-- The first of the next month follows the last of a month. -/
theorem dayNumber_next {last next : Date} (hlast : last.day = daysInMonth last.year last.month)
    (hfirst : next.day = 1)
    (hnext : next.year = last.year ∧ next.month = last.month + 1 ∨
      next.year = last.year + 1 ∧ next.month = 1 ∧ last.month = 12) :
    next.dayNumber = last.dayNumber + 1 := by
  have hsucc := daysBeforeMonth_succ last.year last.month_bounds.1
  have hday := last.valid.2.2.1
  unfold dayNumber dayOfYear
  rcases hnext with ⟨hyear, hmonth⟩ | ⟨hyear, hmonth, hdecember⟩
  · rw [hyear, hmonth]
    omega
  · have hjanuary : daysBeforeMonth next.year 1 = 0 := rfl
    rw [hdecember, daysBeforeMonth_end] at hsucc
    rw [hmonth, hjanuary, hyear, daysBeforeYear_succ, hdecember]
    rw [hdecember] at hlast
    omega

/-- **The day before the first of the next month is the last of the month**, and the month without a
next has the length that it is given. -/
theorem monthLength_eq {year : Int} {month : Nat} (hmin : minYear ≤ year) (hmax : year ≤ maxYear)
    (hlow : 1 ≤ month) (hhigh : month ≤ 12) : monthLength year month = daysInMonth year month := by
  have hlength := le_daysInMonth year hlow hhigh
  let last : Date := ⟨year, month, daysInMonth year month, hmin, hmax, by omega, le_rfl⟩
  have hprevious : ∀ next : Date, next.dayNumber = last.dayNumber + 1 →
      next.previous? = some last := by
    intro next hnumber
    unfold previous?
    rw [hnumber, Int.add_sub_cancel, ofDayNumber?_dayNumber]
  unfold monthLength
  dsimp only
  by_cases hdecember : month = 12
  · rw [if_pos hdecember]
    by_cases hend : year = maxYear
    · -- there is no next year
      subst hdecember hend
      rfl
    · have hvalid : Valid (year + 1) 1 1 :=
        ⟨by omega, by omega, le_rfl, le_trans (by decide) (le_daysInMonth _ le_rfl (by decide))⟩
      have hnext : of? (year + 1) 1 1 = some ⟨year + 1, 1, 1, hvalid⟩ := dif_pos hvalid
      rw [hnext, Option.bind_some,
        hprevious ⟨_, _, _, hvalid⟩ (dayNumber_next rfl rfl (.inr ⟨rfl, rfl, hdecember⟩))]
  · have hvalid : Valid year (month + 1) 1 :=
      ⟨hmin, hmax, le_rfl, le_trans (by decide) (le_daysInMonth _ (by omega) (by omega))⟩
    have hnext : of? year (month + 1) 1 = some ⟨year, month + 1, 1, hvalid⟩ := dif_pos hvalid
    rw [if_neg hdecember, hnext, Option.bind_some,
      hprevious ⟨_, _, _, hvalid⟩ (dayNumber_next rfl rfl (.inl ⟨rfl, rfl⟩))]

/-! ## Counting months -/

/-- The months up to that of the date, from the start of the year zero. -/
def monthCount (d : Date) : Int := 12 * d.year + d.month

/-- Months are added to the count of months. -/
theorem addMonths?_eq_some {d e : Date} {n : Int} : d.addMonths? n = some e ↔
    e.monthCount = d.monthCount + n ∧ e.day = min d.day (daysInMonth e.year e.month) := by
  obtain ⟨hlow, hhigh⟩ := d.month_bounds
  obtain ⟨helow, hehigh⟩ := e.month_bounds
  unfold addMonths? monthCount
  dsimp only
  rw [of?_eq_some]
  constructor
  · rintro ⟨hyear, hmonth, hday⟩
    rw [← hyear, ← hmonth] at hday
    exact ⟨by omega, hday⟩
  · rintro ⟨hcount, hday⟩
    have hyear : e.year = (12 * d.year + (d.month - 1 : Nat) + n) / 12 := by omega
    have hmonth : e.month = ((12 * d.year + (d.month - 1 : Nat) + n) % 12).toNat + 1 := by omega
    rw [← hyear, ← hmonth]
    exact ⟨rfl, rfl, hday⟩

/-- The calendar has every month of its years. -/
theorem exists_addMonths?_iff {d : Date} {n : Int} : (∃ e, d.addMonths? n = some e) ↔
    12 * minYear + 1 ≤ d.monthCount + n ∧ d.monthCount + n ≤ 12 * maxYear + 12 := by
  obtain ⟨hlow, hhigh⟩ := d.month_bounds
  unfold addMonths? monthCount
  dsimp only
  obtain ⟨year, hyear⟩ : ∃ y, (12 * d.year + (d.month - 1 : Nat) + n) / 12 = y := ⟨_, rfl⟩
  obtain ⟨month, hmonth⟩ :
      ∃ m, ((12 * d.year + (d.month - 1 : Nat) + n) % 12).toNat + 1 = m := ⟨_, rfl⟩
  have hlength := le_daysInMonth year (show 1 ≤ month by omega) (by omega)
  have hday := d.valid.2.2.1
  rw [hyear, hmonth, exists_of?_iff]
  constructor
  · rintro ⟨hmin, hmax, -, -⟩
    omega
  · rintro ⟨hmin, hmax⟩
    exact ⟨by omega, by omega, by omega, min_le_right _ _⟩

/-- The count of months has a range. -/
theorem monthCount_bounds (d : Date) :
    12 * minYear + 1 ≤ d.monthCount ∧ d.monthCount ≤ 12 * maxYear + 12 := by
  obtain ⟨hlow, hhigh⟩ := d.month_bounds
  obtain ⟨hmin, hmax, -, -⟩ := d.valid
  unfold monthCount
  omega

end Date

theorem DateTime.addMonths?_eq_some {t u : DateTime} {n : Int} : t.addMonths? n = some u ↔
    t.date.addMonths? n = some u.date ∧ u.second = t.second ∧ u.nano = t.nano := by
  unfold addMonths?
  rw [Option.map_eq_some_iff]
  constructor
  · rintro ⟨date, hdate, rfl⟩
    exact ⟨hdate, rfl, rfl⟩
  · rintro ⟨hdate, hsecond, hnano⟩
    refine ⟨u.date, hdate, ?_⟩
    cases u
    subst hsecond hnano
    rfl

namespace Calendar

/-- A date format prints the length of the month. -/
theorem write_monthLength (t : DateTime) :
    write t ['t'] = Decimal.natText (daysInMonth t.date.year t.date.month) := by
  obtain ⟨hlow, hhigh⟩ := t.date.month_bounds
  rw [← Date.monthLength_eq t.date.valid.1 t.date.valid.2.1 hlow hhigh]
  exact List.append_nil _

/-! ## Modifiers in months and years -/

/-- A number of months or years is added as one number of months. -/
theorem add?_months_eq_some {t u : DateTime} {amount n : Int} :
    (Unit.months n).add? t amount = some u ↔
      u.date.monthCount = t.date.monthCount + amount * n ∧
        u.date.day = min t.date.day (daysInMonth u.date.year u.date.month) ∧
        u.second = t.second ∧ u.nano = t.nano := by
  have hbounds := t.date.monthCount_bounds
  have hbounds' := u.date.monthCount_bounds
  unfold Unit.add?
  rw [Option.bind_eq_some_iff]
  constructor
  · rintro ⟨m, hm, hu⟩
    obtain ⟨rfl, -⟩ := (total?_eq_some (by decide)).mp hm
    obtain ⟨hdate, hclock⟩ := DateTime.addMonths?_eq_some.mp hu
    obtain ⟨hcount, hday⟩ := Date.addMonths?_eq_some.mp hdate
    exact ⟨hcount, hday, hclock⟩
  · rintro ⟨hcount, hday, hclock⟩
    -- months that lead to another month of the calendar are within the limit
    have hmost : (amount * n).natAbs ≤ maxMonths := by
      have hmost : maxMonths = 4294967295 := rfl
      unfold minYear maxYear at hbounds hbounds'
      omega
    exact ⟨amount * n, (total?_eq_some (by decide)).mpr ⟨rfl, hmost⟩,
      DateTime.addMonths?_eq_some.mpr ⟨Date.addMonths?_eq_some.mpr ⟨hcount, hday⟩, hclock⟩⟩

theorem exists_add?_months_iff {t : DateTime} {amount n : Int} :
    (∃ u, (Unit.months n).add? t amount = some u) ↔
      12 * minYear + 1 ≤ t.date.monthCount + amount * n ∧
        t.date.monthCount + amount * n ≤ 12 * maxYear + 12 := by
  constructor
  · rintro ⟨u, hu⟩
    rw [← (add?_months_eq_some.mp hu).1]
    exact u.date.monthCount_bounds
  · intro h
    obtain ⟨e, he⟩ := Date.exists_addMonths?_iff.mpr h
    obtain ⟨hcount, hday⟩ := Date.addMonths?_eq_some.mp he
    exact ⟨{ t with date := e }, add?_months_eq_some.mpr ⟨hcount, hday, rfl, rfl⟩⟩

theorem named_month {name : String} (h : name ∈ ["month", "months"]) :
    (Unit.months 1).Named name := by
  rcases List.mem_pair.mp h with rfl | rfl <;> exact ⟨by decide, by decide, by decide⟩

theorem named_year {name : String} (h : name ∈ ["year", "years"]) :
    (Unit.months 12).Named name := by
  rcases List.mem_pair.mp h with rfl | rfl <;> exact ⟨by decide, by decide, by decide⟩

/-- **Months are counted exactly, and the day is cut to the month.** A modifier of a number of
months succeeds if the calendar has the month that is so many months away, and then gives the day in
that month which is the day it started from or the last one, at the same time of day. Years are
twelve months each and fail where so many months would not have 64 bits. -/
theorem modify_months (t : DateTime) {n : Int64} {amount month year : String}
    (hn : Decimal.readInt64? amount.toList = some n) (hmonth : month ∈ ["month", "months"])
    (hyear : year ∈ ["year", "years"]) :
    ((∃ u, modify t (amount ++ " " ++ month) = .ok u) ↔
      12 * minYear + 1 ≤ t.date.monthCount + n.toInt ∧
        t.date.monthCount + n.toInt ≤ 12 * maxYear + 12) ∧
    (∀ u, modify t (amount ++ " " ++ month) = .ok u →
      u.date.monthCount = t.date.monthCount + n.toInt ∧
        (∃ length, write u ['t'] = Decimal.natText length ∧ u.date.day = min t.date.day length) ∧
        u.second = t.second ∧ u.nano = t.nano) ∧
    (∀ (m : Int64) (amount' : String), Decimal.readInt64? amount'.toList = some m →
      m.toInt = 12 * n.toInt →
      (modify t (amount ++ " " ++ year)).toOption =
        (modify t (amount' ++ " " ++ month)).toOption) ∧
    (¬ (Int64.minValue.toInt ≤ 12 * n.toInt ∧ 12 * n.toInt ≤ Int64.maxValue.toInt) →
      modify t (amount ++ " " ++ year) = .error (.shiftOutOfRange n.toInt year)) ∧
    ∀ u : DateTime, write u ['t'] = Decimal.natText (daysInMonth u.date.year u.date.month) := by
  have hmonths := named_month hmonth
  have hyears := named_year hyear
  refine ⟨?_, ?_, ?_, ?_, write_monthLength⟩
  · simp only [modify_amount_eq_ok hn hmonths]
    rw [exists_add?_months_iff, mul_one]
  · intro u hu
    obtain ⟨hcount, hday, hclock⟩ :=
      add?_months_eq_some.mp ((modify_amount_eq_ok hn hmonths).mp hu)
    rw [mul_one] at hcount
    exact ⟨hcount, ⟨_, write_monthLength u, hday⟩, hclock⟩
  · intro m amount' hm hproduct
    have hsame : (Unit.months 12).add? t n.toInt = (Unit.months 1).add? t m.toInt := by
      rw [Unit.add?, Unit.add?, total?_congr (show n.toInt * 12 = m.toInt * 1 by omega)]
    rw [toOption_modify_amount hn hyears, toOption_modify_amount hm hmonths, hsame]
  · intro hrange
    rw [modify_amount hn hyears]
    cases hu : (Unit.months 12).add? t n.toInt with
    | none => rfl
    | some u =>
      -- the months to another month of the calendar have far less than 64 bits
      have hbounds := exists_add?_months_iff.mp ⟨u, hu⟩
      have hcount := t.date.monthCount_bounds
      rw [Int64.toInt_minValue, Int64.toInt_maxValue] at hrange
      unfold minYear maxYear at hbounds hcount
      omega

/-- A month after the last of January lies in February, and a year is twelve months. -/
theorem modify_months_january :
    let t : DateTime := ⟨⟨2024, 1, 31, by decide⟩, 45000, 5, by decide, by decide⟩
    (∃ u, modify t ("+1" ++ " " ++ "month") = .ok u ∧ u.date.monthCount = 12 * 2024 + 2 ∧
      (∃ length, write u ['t'] = Decimal.natText length ∧ u.date.day = min 31 length) ∧
      u.second = 45000 ∧ u.nano = 5) ∧
    (modify t ("+1" ++ " " ++ "years")).toOption =
    (modify t ("12" ++ " " ++ "month")).toOption := by
  intro t
  have hn : Decimal.readInt64? "+1".toList = some 1 := by decide
  have hm : Decimal.readInt64? "12".toList = some 12 := by decide
  have hcount : t.date.monthCount = 12 * 2024 + 1 := rfl
  obtain ⟨hrange, hshifted, hyears, -, -⟩ := modify_months t hn
    (show "month" ∈ ["month", "months"] by decide) (show "years" ∈ ["year", "years"] by decide)
  obtain ⟨u, hu⟩ := hrange.mpr (by rw [hcount]; decide)
  obtain ⟨hmonths, hday, hclock⟩ := hshifted u hu
  exact ⟨⟨u, hu, hmonths, hday, hclock⟩, hyears 12 "12" hm (by decide)⟩

end Calendar

end Stencil
