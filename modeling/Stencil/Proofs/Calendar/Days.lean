import Stencil.Calendar.Date
import Mathlib.Data.Int.Init
import Mathlib.Order.Basic
import Mathlib.Tactic.IntervalCases

/-!
# Days in a row

Days are numbered without gaps: a year has as many days as lie between its first day and that of the
next, and so has a month. So the way from a date to its number and the way back undo each other.
-/

namespace Stencil

namespace Calendar

variable {year : Int} {month : Nat}

/-- The number of days of a year. -/
def yearLength (year : Int) : Nat := if isLeap year then 366 else 365

theorem isLeap_iff : isLeap year = true ↔ year % 4 = 0 ∧ (year % 100 ≠ 0 ∨ year % 400 = 0) := by
  simp [isLeap]

/-! ## Years -/

theorem daysBeforeYear_eq (year : Int) : daysBeforeYear year =
    365 * (year - 1) + (year - 1) / 4 - (year - 1) / 100 + (year - 1) / 400 := rfl

/-- A year follows the one before without a gap. -/
theorem daysBeforeYear_succ (year : Int) :
    daysBeforeYear (year + 1) = daysBeforeYear year + yearLength year := by
  rw [daysBeforeYear_eq, daysBeforeYear_eq]
  unfold yearLength
  by_cases h : isLeap year = true
  · rw [if_pos h]
    rw [isLeap_iff] at h
    omega
  · rw [if_neg h]
    rw [isLeap_iff] at h
    omega

theorem daysBeforeYear_mono {year' : Int} (h : year ≤ year') :
    daysBeforeYear year ≤ daysBeforeYear year' := by
  induction year', h using Int.leInduction with
  | base => exact Int.le_refl _
  | succ y _ ih =>
    have hsucc := daysBeforeYear_succ y
    omega

/-- A day lies in one year only. -/
theorem year_unique {year' : Int} {day day' : Nat} (hday : day < yearLength year)
    (hday' : day' < yearLength year')
    (h : daysBeforeYear year + day = daysBeforeYear year' + day') : year = year' ∧ day = day' := by
  have hsucc := daysBeforeYear_succ year
  have hsucc' := daysBeforeYear_succ year'
  have hyear : year = year' := by
    rcases lt_trichotomy year year' with hlt | heq | hgt
    · have hmono := daysBeforeYear_mono (show year + 1 ≤ year' by omega)
      omega
    · exact heq
    · have hmono := daysBeforeYear_mono (show year' + 1 ≤ year by omega)
      omega
  subst hyear
  exact ⟨rfl, by omega⟩

/-- The year of a day is the one in which it lies. -/
theorem yearOfDays_spec (days : Int) :
    daysBeforeYear (yearOfDays days).1 + (yearOfDays days).2 = days ∧
      (yearOfDays days).2 < yearLength (yearOfDays days).1 := by
  obtain ⟨era, r, hr, rfl⟩ : ∃ (era : Int) (r : Nat), r < 146097 ∧ days = 146097 * era + r :=
    ⟨days / 146097, (days % 146097).toNat, by omega, by omega⟩
  have hera : (146097 * era + r) / 146097 = era := by omega
  have hrest : ((146097 * era + r) % 146097).toNat = r := by omega
  obtain ⟨c, hc⟩ : ∃ c, min (r / 36524) 3 = c := ⟨_, rfl⟩
  obtain ⟨l, hl⟩ : ∃ l, (r - 36524 * c) / 1461 = l := ⟨_, rfl⟩
  obtain ⟨y, hy⟩ : ∃ y, min ((r - 36524 * c - 1461 * l) / 365) 3 = y := ⟨_, rfl⟩
  have hvalue : yearOfDays (146097 * era + r) =
      (400 * era + (100 * c + 4 * l + y + 1 : Nat), r - 36524 * c - 1461 * l - 365 * y) := by
    unfold yearOfDays
    simp only [hera, hrest, hc, hl, hy]
  -- the last century of an era and the last year of a leap cycle are a day longer
  have hc3 : c ≤ 3 ∧ 36524 * c ≤ r ∧ (c < 3 → r < 36524 * (c + 1)) := by omega
  have hl24 : 1461 * l ≤ r - 36524 * c ∧ r - 36524 * c < 1461 * (l + 1) ∧ l ≤ 24 := by omega
  have hy3 : y ≤ 3 ∧ 365 * y ≤ r - 36524 * c - 1461 * l ∧
      (y < 3 → r - 36524 * c - 1461 * l < 365 * (y + 1)) := by omega
  obtain ⟨p, hp⟩ : ∃ p : Int, 400 * era + 100 * c + 4 * l + y = p := ⟨_, rfl⟩
  have hyear : (400 * era + (100 * c + 4 * l + y + 1 : Nat) : Int) = p + 1 := by omega
  have h4 : p / 4 = 100 * era + 25 * c + l := by omega
  have h100 : p / 100 = 4 * era + c := by omega
  have h400 : p / 400 = era := by omega
  rw [hvalue, hyear]
  refine ⟨?_, ?_⟩
  · rw [daysBeforeYear_eq, Int.add_sub_cancel, h4, h100, h400]
    omega
  · dsimp only
    unfold yearLength
    split
    · omega
    · rename_i hleap
      rw [isLeap_iff] at hleap
      omega

theorem yearOfDays_eq {day : Nat} (hday : day < yearLength year) :
    yearOfDays (daysBeforeYear year + day) = (year, day) := by
  obtain ⟨hsum, hlt⟩ := yearOfDays_spec (daysBeforeYear year + day)
  obtain ⟨hyear, hrest⟩ := year_unique hlt hday hsum
  exact Prod.ext hyear hrest

/-! ## Months -/

/-- Outside the year there are no months. -/
theorem daysInMonth_eq_zero (year : Int) (h : month = 0 ∨ 12 < month) :
    daysInMonth year month = 0 := by
  unfold daysInMonth
  split <;> omega

theorem daysInMonth_february (year : Int) :
    daysInMonth year 2 = if isLeap year then 29 else 28 := rfl

/-- No month is shorter than four weeks. -/
theorem le_daysInMonth (year : Int) (hlow : 1 ≤ month) (hhigh : month ≤ 12) :
    28 ≤ daysInMonth year month := by
  by_cases hfebruary : month = 2
  · subst hfebruary
    rw [daysInMonth_february]
    split <;> omega
  · interval_cases month <;>
      first
      | exact absurd rfl hfebruary
      | exact Nat.le_of_ble_eq_true rfl

theorem daysInMonth_le (year : Int) (month : Nat) : daysInMonth year month ≤ 31 := by
  unfold daysInMonth
  split
  case h_2 => split <;> decide
  all_goals decide

/-- A month follows the one before without a gap. -/
theorem daysBeforeMonth_succ (year : Int) (hmonth : 1 ≤ month) :
    daysBeforeMonth year (month + 1) = daysBeforeMonth year month + daysInMonth year month := by
  obtain ⟨m, rfl⟩ : ∃ m, month = m + 1 := ⟨month - 1, by omega⟩
  unfold daysBeforeMonth
  rw [Nat.add_sub_cancel, Nat.add_sub_cancel, List.range_succ, List.foldl_append]
  rfl

/-- The months fill the year. -/
theorem daysBeforeMonth_end (year : Int) : daysBeforeMonth year 13 = yearLength year := by
  have hsum : daysBeforeMonth year 13 = 337 + daysInMonth year 2 := by
    unfold daysBeforeMonth
    simp only [List.range_succ, List.foldl_append, List.foldl_cons, List.foldl_nil, List.range_zero]
    simp only [daysInMonth]
    omega
  rw [hsum, daysInMonth_february]
  unfold yearLength
  split <;> rfl

theorem daysBeforeMonth_mono (year : Int) {month' : Nat} (hfront : 1 ≤ month)
    (hle : month ≤ month') :
    daysBeforeMonth year month ≤ daysBeforeMonth year month' := by
  induction month', hle using Nat.le_induction with
  | base => exact le_rfl
  | succ m hm ih =>
    rw [daysBeforeMonth_succ year (by omega)]
    omega

/-- Going through the months from one of them on, a day is found in its own. -/
theorem monthOfDays_eq {day : Nat} (hday : 1 ≤ day) (hlast : day ≤ daysInMonth year month) :
    ∀ (months front : Nat), 1 ≤ front → front ≤ month → month ≤ front + months →
      monthOfDays year front months
        (daysBeforeMonth year month - daysBeforeMonth year front + (day - 1)) = (month, day)
  | 0, front, hfront, hle, hmonth => by
    obtain rfl : month = front := by omega
    unfold monthOfDays
    rw [Nat.sub_self, Nat.zero_add, Nat.sub_add_cancel hday]
  | months + 1, front, hfront, hle, hmonth => by
    have hsucc := daysBeforeMonth_succ year hfront
    unfold monthOfDays
    by_cases heq : month = front
    · subst heq
      rw [Nat.sub_self, Nat.zero_add, if_pos (by omega), Nat.sub_add_cancel hday]
    · -- the whole first month stands in front of the day
      have hmono := daysBeforeMonth_mono year (show 1 ≤ front + 1 by omega)
        (show front + 1 ≤ month by omega)
      have hrest := monthOfDays_eq hday hlast months (front + 1) (by omega) (by omega) (by omega)
      rw [if_neg (by omega), ← hrest]
      congr 1
      omega

/-- A day of the year lies in one of its months. -/
theorem monthOfDays_spec (year : Int) : ∀ (months front days : Nat), 1 ≤ front →
    daysBeforeMonth year front + days < daysBeforeMonth year (front + months + 1) →
    let found := monthOfDays year front months days
    front ≤ found.1 ∧ found.1 ≤ front + months ∧ 1 ≤ found.2 ∧
      found.2 ≤ daysInMonth year found.1 ∧
      daysBeforeMonth year found.1 + found.2 = daysBeforeMonth year front + days + 1
  | 0, front, days, hfront, hdays => by
    rw [daysBeforeMonth_succ year (by omega)] at hdays
    unfold monthOfDays
    dsimp only [Nat.add_zero] at hdays ⊢
    omega
  | months + 1, front, days, hfront, hdays => by
    have hsucc := daysBeforeMonth_succ year hfront
    unfold monthOfDays
    by_cases hlt : days < daysInMonth year front
    · rw [if_pos hlt]
      dsimp only
      omega
    · have hrest :=
        monthOfDays_spec year months (front + 1) (days - daysInMonth year front) (by omega)
        (by rw [show front + 1 + months + 1 = front + (months + 1) + 1 by omega]; omega)
      rw [if_neg hlt]
      dsimp only at hrest ⊢
      omega

end Calendar

open Calendar

namespace Date

theorem month_bounds (d : Date) : 1 ≤ d.month ∧ d.month ≤ 12 := by
  obtain ⟨-, -, hday, hlast⟩ := d.valid
  by_contra hmonth
  have := daysInMonth_eq_zero d.year (show d.month = 0 ∨ 12 < d.month by omega)
  omega

theorem eq_of_parts {d e : Date} (hyear : d.year = e.year) (hmonth : d.month = e.month)
    (hday : d.day = e.day) : d = e := by
  cases d
  cases e
  subst hyear hmonth hday
  rfl

theorem of?_eq_some {year : Int} {month day : Nat} {d : Date} :
    of? year month day = some d ↔ d.year = year ∧ d.month = month ∧ d.day = day := by
  unfold of?
  constructor
  · intro h
    split at h
    · obtain rfl := Option.some.inj h
      exact ⟨rfl, rfl, rfl⟩
    · cases h
  · rintro ⟨rfl, rfl, rfl⟩
    rw [dif_pos d.valid]

/-- The calendar has the dates of the years within its bounds. -/
theorem exists_of?_iff {year : Int} {month day : Nat} :
    (∃ d, of? year month day = some d) ↔ Valid year month day := by
  unfold of?
  constructor
  · rintro ⟨d, hd⟩
    split at hd
    · assumption
    · cases hd
  · intro h
    exact ⟨_, dif_pos h⟩

theorem dayOfYear_lt (d : Date) : d.dayOfYear < yearLength d.year := by
  obtain ⟨hlow, hhigh⟩ := d.month_bounds
  obtain ⟨-, -, hday, hlast⟩ := d.valid
  have hsucc := daysBeforeMonth_succ d.year hlow
  have hmono := daysBeforeMonth_mono d.year (show 1 ≤ d.month + 1 by omega)
    (show d.month + 1 ≤ 13 by omega)
  rw [daysBeforeMonth_end] at hmono
  unfold dayOfYear
  omega

/-- **A date is the date of its number.** -/
theorem ofDayNumber?_dayNumber (d : Date) : ofDayNumber? d.dayNumber = some d := by
  obtain ⟨hlow, hhigh⟩ := d.month_bounds
  obtain ⟨-, -, hday, hlast⟩ := d.valid
  have hnumber : d.dayNumber + daysBeforeYear 1970 = daysBeforeYear d.year + d.dayOfYear := by
    unfold dayNumber
    omega
  have hmonth := monthOfDays_eq hday hlast 11 1 le_rfl hlow (by omega)
  have hdays : daysBeforeMonth d.year d.month - daysBeforeMonth d.year 1 + (d.day - 1) =
      d.dayOfYear := by
    have : daysBeforeMonth d.year 1 = 0 := rfl
    unfold dayOfYear
    omega
  rw [hdays] at hmonth
  unfold ofDayNumber?
  rw [hnumber, yearOfDays_eq d.dayOfYear_lt]
  dsimp only
  rw [hmonth]
  exact of?_eq_some.mpr ⟨rfl, rfl, rfl⟩

/-- The date of a number has that number. -/
theorem dayNumber_of_ofDayNumber? {n : Int} {d : Date} (h : ofDayNumber? n = some d) :
    d.dayNumber = n := by
  obtain ⟨hsum, hlt⟩ := yearOfDays_spec (n + daysBeforeYear 1970)
  unfold ofDayNumber? at h
  dsimp only at h
  obtain ⟨hyear, hmonth, hday⟩ := of?_eq_some.mp h
  -- the day of the year lies before the end of the twelfth month
  rw [← daysBeforeMonth_end] at hlt
  have hfound := monthOfDays_spec (yearOfDays (n + daysBeforeYear 1970)).1 11 1
    (yearOfDays (n + daysBeforeYear 1970)).2 le_rfl (by
      show 0 + _ < daysBeforeMonth _ 13
      omega)
  dsimp only at hfound
  rw [← hmonth, ← hday, ← hyear] at hfound
  rw [← hyear] at hsum
  have hone : daysBeforeMonth d.year 1 = 0 := rfl
  unfold dayNumber dayOfYear
  omega

end Date

end Stencil
