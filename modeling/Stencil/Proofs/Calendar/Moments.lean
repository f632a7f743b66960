import Stencil.Calendar.Writer
import Stencil.Proofs.Calendar.Notation

/-!
# Moments

A notation with an offset shows what a clock somewhere shows, and how far that clock is from
universal time; the two together name an instant. Here are the two notations of this kind, the
internet timestamp and that of mail headers, each as the texts that state a moment. The reader of
dates takes every internet timestamp and keeps what the clock shows; the writer states that as if it
were universal time.
-/

namespace Stencil.Calendar

/-- How far a clock is from universal time. -/
structure Offset where
  /-- Whether the clock is ahead. -/
  ahead : Bool
  /-- The hours between them. -/
  hours : Nat
  /-- The minutes beyond full hours. -/
  minutes : Nat
  /-- The hours are less than a day. -/
  hours_lt : hours < 24
  /-- The minutes are less than an hour. -/
  minutes_lt : minutes < 60

namespace Offset

/-- The offset in minutes. -/
def total (o : Offset) : Int :=
  if o.ahead then 60 * o.hours + o.minutes else -(60 * o.hours + o.minutes)

/-- No offset. -/
def zero : Offset := ⟨true, 0, 0, by decide, by decide⟩

/-- The sign of the offset. -/
def sign (o : Offset) : Char := if o.ahead then '+' else '-'

theorem ahead_eq {o o' : Offset} (h : o.sign = o'.sign) : o.ahead = o'.ahead := by
  unfold sign at h
  revert h
  cases o.ahead <;> cases o'.ahead <;> decide

/-- How an internet timestamp states an offset. -/
inductive Spelled (o : Offset) : Text → Prop
  /-- In hours and minutes. -/
  | numeric : Spelled o (o.sign :: (Decimal.padded 2 o.hours ++ ':' :: Decimal.padded 2 o.minutes))
  /-- By a letter, if there is none. -/
  | letter {c : Char} (hc : c = 'Z' ∨ c = 'z') (hzero : o.total = 0) : Spelled o [c]

end Offset

/-- What a clock shows on a day, and how far the clock is from universal time. -/
structure Moment where
  /-- The date. -/
  date : Date
  /-- The hour of the day. -/
  hour : Nat
  /-- The minute of the hour. -/
  minute : Nat
  /-- The second of the minute. -/
  second : Nat
  /-- The offset of the clock. -/
  offset : Offset
  /-- The hour is one of the day. -/
  hour_lt : hour < 24
  /-- The minute is one of the hour. -/
  minute_lt : minute < 60
  /-- The second is one of the minute, and no leap second. -/
  second_lt : second < 60

/-- The fraction of a second in an internet timestamp. -/
inductive Fraction : Text → Prop
  /-- There may be none. -/
  | none : Fraction []
  /-- It has any number of digits, but at least one. -/
  | digits {w : Text} (hw : w.all isDigit = true) (hne : w ≠ []) : Fraction ('.' :: w)

/-- The days of the week in mail headers. -/
def mailDays : List String := ["Mon", "Tue", "Wed", "Thu", "Fri", "Sat", "Sun"]

/-- The months in mail headers. -/
def mailMonths : List String :=
  ["Jan", "Feb", "Mar", "Apr", "May", "Jun", "Jul", "Aug", "Sep", "Oct", "Nov", "Dec"]

namespace Moment

/-- The seconds from the start of 1970 to the instant. -/
def unixTime (m : Moment) : Int :=
  86400 * m.date.dayNumber + (3600 * m.hour + 60 * m.minute + m.second : Nat) - 60 * m.offset.total

/-- The moment at which a clock of universal time shows the same. -/
def universal (m : Moment) : Moment := { m with offset := .zero }

/-- A clock that is ahead shows everything earlier. -/
theorem unixTime_universal (m : Moment) :
    m.universal.unixTime = m.unixTime + 60 * m.offset.total := by
  have hzero : Offset.zero.total = 0 := rfl
  unfold unixTime universal
  dsimp only
  omega

/-- What the clock shows. -/
def clock (m : Moment) : Text :=
  Decimal.padded 2 m.hour ++ ':' :: (Decimal.padded 2 m.minute ++ ':' :: Decimal.padded 2 m.second)

/-- The internet timestamps of a moment. They have years of four digits. -/
inductive Stamped (m : Moment) : Text → Prop
  /-- Date, time and offset are stated in this order. -/
  | intro {separator : Char} {fraction zone : Text}
    (hyear : 0 ≤ m.date.year ∧ m.date.year ≤ 9999)
    (hseparator : separator = 'T' ∨ separator = 't' ∨ separator = ' ')
    (hfraction : Fraction fraction) (hzone : m.offset.Spelled zone) :
    Stamped m (Decimal.padded 4 m.date.year.toNat ++ '-' :: (Decimal.padded 2 m.date.month ++
      '-' :: (Decimal.padded 2 m.date.day ++ separator :: (m.clock ++ (fraction ++ zone)))))

/-- The text of a moment in a mail header. It has a year of four digits too. -/
structure Mailed (m : Moment) (s : Text) : Prop where
  /-- The year has four digits. -/
  year : 0 ≤ m.date.year ∧ m.date.year ≤ 9999
  /-- The date is followed by the time and the offset. -/
  text : s = (mailDays.getD m.date.weekday "").toList ++ ',' :: ' ' ::
    (Decimal.padded 2 m.date.day ++ ' ' :: ((mailMonths.getD (m.date.month - 1) "").toList ++
      ' ' :: (Decimal.padded 4 m.date.year.toNat ++ ' ' :: (m.clock ++ ' ' :: m.offset.sign ::
        (Decimal.padded 2 m.offset.hours ++ Decimal.padded 2 m.offset.minutes)))))

end Moment

variable {m : Moment} {o : Offset} {s rest zone fraction : Text}

/-! ## Reading -/

theorem Offset.Spelled.readOffset_eq (h : o.Spelled zone) : readOffset zone = some o.total := by
  cases h with
  | numeric =>
    have hhours := o.hours_lt
    have hminutes := o.minutes_lt
    have hletter : ¬ (o.sign = 'Z' || o.sign = 'z') = true := by
      unfold Offset.sign
      split <;> decide
    have hsign : (o.sign = '+' || o.sign = '-' || o.sign = minusSign) = true := by
      unfold Offset.sign
      split <;> decide
    rw [← List.append_nil (Decimal.padded 2 o.minutes), readOffset, if_neg hletter, if_pos hsign,
      bind_of_eq_some (readFixed_two (by omega) _)]
    dsimp only
    rw [bind_of_eq_some (dropPrefix?_mark _ _), bind_of_eq_some (readFixed_two (by omega) _)]
    dsimp only
    rw [if_pos (by simp [hhours, hminutes])]
    unfold Offset.total Offset.sign
    cases o.ahead <;> rfl
  | letter hc hzero =>
    rw [hzero]
    rcases hc with rfl | rfl <;> rfl

/-- An offset ends the fraction in front of it. -/
theorem Offset.Spelled.head (h : o.Spelled zone) :
    ∃ c w, zone = c :: w ∧ isDigit c = false ∧ c ≠ '.' := by
  cases h with
  | numeric =>
    refine ⟨_, _, rfl, ?_⟩
    unfold Offset.sign
    split <;> decide
  | letter hc _ => rcases hc with rfl | rfl <;> exact ⟨_, _, rfl, by decide, by decide⟩

/-- The digits of a fraction of a second after the ninth do not count. -/
theorem Fraction.readNano_eq (h : Fraction fraction) {c : Char} (hc : isDigit c = false)
    (hpoint : c ≠ '.') (s : Text) :
    ∃ nano < 1000000000, readNano (fraction ++ c :: s) = some (nano, c :: s) := by
  cases h with
  | none => exact ⟨0, by decide, by simp [readNano, hpoint]⟩
  | @digits w hw hne =>
    obtain ⟨htake, hdrop⟩ := Decimal.span_append (t := c :: s) hw (by simp [hc])
    refine ⟨Decimal.natOfDigits (w.take 9) * Nat.pow 10 (9 - (w.take 9).length), ?_, ?_⟩
    · have hvalue := Decimal.natOfDigits_lt (s := w.take 9)
        (List.all_eq_true.mpr fun d hd => List.all_eq_true.mp hw d (List.mem_of_mem_take hd))
      have hlength : (w.take 9).length ≤ 9 := List.length_take_le 9 w
      calc Decimal.natOfDigits (w.take 9) * Nat.pow 10 (9 - (w.take 9).length)
          < 10 ^ (w.take 9).length * 10 ^ (9 - (w.take 9).length) :=
            Nat.mul_lt_mul_of_pos_right hvalue (Nat.pow_pos (by decide))
        _ = 1000000000 := by rw [← Nat.pow_add, Nat.add_sub_cancel' hlength]
    · rw [List.cons_append, readNano, htake, hdrop, if_neg (by simpa using hne)]

/-- **An internet timestamp is read as what the clock shows and the offset.** -/
theorem Moment.Stamped.readStamp_eq (h : m.Stamped s) : ∃ nano < 1000000000,
    readStamp s = some (⟨m.date.year, m.date.month, m.date.day, m.hour, m.minute, m.second, nano⟩,
      m.offset.total) := by
  obtain ⟨hyear, hseparator, hfraction, hzone⟩ := h
  rename_i separator fraction zone
  obtain ⟨c, w, rfl, hc, hpoint⟩ := hzone.head
  obtain ⟨nano, hnano, hread⟩ := hfraction.readNano_eq hc hpoint w
  obtain ⟨hlow, hhigh⟩ := m.date.month_bounds
  obtain ⟨-, -, -, hlast⟩ := m.date.valid
  have hlength := daysInMonth_le m.date.year m.date.month
  have hhour := m.hour_lt
  have hminute := m.minute_lt
  have hsecond := m.second_lt
  have hfour : m.date.year.toNat < 10 ^ 4 := by omega
  have hvalue : ((m.date.year.toNat : Nat) : Int) = m.date.year := by omega
  have hbreak : ∀ s : Text, (Text.dropPrefix? (separator :: s) ['T']).or
      ((Text.dropPrefix? (separator :: s) ['t']).or (Text.dropPrefix? (separator :: s) [' '])) =
        some s := by
    rcases hseparator with rfl | rfl | rfl <;> simp [Text.dropPrefix?]
  refine ⟨nano, hnano, ?_⟩
  unfold readStamp Moment.clock
  simp only [List.append_assoc, List.cons_append]
  rw [bind_of_eq_some (readFixed_padded (by decide) hfour _)]
  dsimp only
  rw [bind_of_eq_some (dropPrefix?_mark _ _), bind_of_eq_some (readFixed_two (by omega) _)]
  dsimp only
  rw [bind_of_eq_some (dropPrefix?_mark _ _), bind_of_eq_some (readFixed_two (by omega) _)]
  dsimp only
  rw [bind_of_eq_some (hbreak _), bind_of_eq_some (readFixed_two (by omega) _)]
  dsimp only
  rw [bind_of_eq_some (dropPrefix?_mark _ _), bind_of_eq_some (readFixed_two (by omega) _)]
  dsimp only
  rw [bind_of_eq_some (dropPrefix?_mark _ _), bind_of_eq_some (readFixed_two (by omega) _)]
  dsimp only
  rw [bind_of_eq_some hread]
  dsimp only
  rw [bind_of_eq_some hzone.readOffset_eq, hvalue]
  rfl

/-- A timestamp states one instant. -/
theorem Moment.Stamped.unixTime_eq {m' : Moment} (h : m.Stamped s) (h' : m'.Stamped s) :
    m'.unixTime = m.unixTime := by
  obtain ⟨nano, -, hread⟩ := h.readStamp_eq
  obtain ⟨nano', -, hread'⟩ := h'.readStamp_eq
  rw [hread, Option.some.injEq, Prod.mk.injEq, Fields.mk.injEq] at hread'
  obtain ⟨⟨hyear, hmonth, hday, hhour, hminute, hsecond, -⟩, htotal⟩ := hread'
  have hdate : m.date = m'.date := Date.eq_of_parts hyear hmonth hday
  unfold unixTime
  rw [hdate, hhour, hminute, hsecond, htotal]

/-- The point in time shows what the clock of the moment shows. -/
structure Moment.Shown (m : Moment) (t : DateTime) : Prop where
  /-- It has the same date. -/
  date : t.date = m.date
  /-- It has the same time of day. -/
  second : t.second = 3600 * m.hour + 60 * m.minute + m.second
  /-- It is in no leap second. -/
  nano : t.nano < 1000000000

/-- **What the clock shows is kept.** -/
theorem Moment.Stamped.read?_eq (h : m.Stamped s) : ∃ t, read? s = some t ∧ m.Shown t := by
  obtain ⟨nano, hnano, hread⟩ := h.readStamp_eq
  have hhour := m.hour_lt
  have hminute := m.minute_lt
  have hsecond := m.second_lt
  have hdate : Date.of? m.date.year m.date.month m.date.day = some m.date :=
    Date.of?_eq_some.mpr ⟨rfl, rfl, rfl⟩
  let t : DateTime :=
    ⟨m.date, 3600 * m.hour + 60 * m.minute + m.second, nano, by omega, by omega⟩
  have hfields : Fields.toDateTime?
      ⟨m.date.year, m.date.month, m.date.day, m.hour, m.minute, m.second, nano⟩ = some t := by
    unfold Fields.toDateTime? DateTime.ofClock?
    dsimp only
    rw [hdate, Option.bind_some, if_pos ⟨hhour, hminute, by omega, hnano⟩, if_neg (by omega)]
    exact DateTime.of?_eq_some.mpr ⟨rfl, rfl, rfl⟩
  refine ⟨t, ?_, rfl, rfl, hnano⟩
  rw [read?, hread, Option.bind_some]
  dsimp only
  rw [hfields]

theorem Moment.Stamped.trim_eq (h : m.Stamped s) : s.trim = s := by
  obtain ⟨-, -, -, hzone⟩ := h
  rename_i separator fraction zone
  have hend : Text.EndsSolid zone ∧ zone ≠ [] := by
    cases hzone with
    | numeric =>
      refine ⟨?_, List.cons_ne_nil _ _⟩
      have hminutes : Text.EndsSolid (Decimal.padded 2 m.offset.minutes) := fun c hc =>
        isBlank_of_isDigit (List.all_eq_true.mp (Decimal.all_isDigit_padded 2 _) c
          (List.mem_of_getLast? hc))
      have hsplit := hminutes.of_append (Decimal.padded_ne_nil 2 _)
        (m.offset.sign :: (Decimal.padded 2 m.offset.hours ++ [':']))
      simpa using hsplit
    | letter hc _ =>
      refine ⟨Text.endsSolid_singleton ?_, List.cons_ne_nil _ _⟩
      rcases hc with rfl | rfl <;> decide
  refine Text.trim_eq_self_iff.mpr
    ⟨(startsSolid_padded 4 _).append (Decimal.padded_ne_nil 4 _) _, ?_⟩
  have hsplit := hend.1.of_append hend.2 (Decimal.padded 4 m.date.year.toNat ++ '-' ::
    (Decimal.padded 2 m.date.month ++ '-' :: (Decimal.padded 2 m.date.day ++ separator ::
      (m.clock ++ fraction))))
  simpa using hsplit

/-! ## Writing -/

theorem weekday_lt (d : Date) : d.weekday < 7 := by
  unfold Date.weekday
  omega

namespace Moment.Shown

variable {t : DateTime}

/-- What is written counts as universal time. -/
theorem timestamp_eq (h : m.Shown t) : t.timestamp = m.universal.unixTime := by
  have hzero : m.universal.offset.total = 0 := rfl
  unfold DateTime.timestamp unixTime
  rw [hzero, h.date, h.second]
  show _ = 86400 * m.date.dayNumber + ((3600 * m.hour + 60 * m.minute + m.second : Nat) : Int) - _
  omega

theorem clockText_eq (h : m.Shown t) : clockText t = m.clock := by
  obtain ⟨-, hsecond, hnano⟩ := h
  have hhour : t.hour = m.hour := by
    have := m.minute_lt
    have := m.second_lt
    unfold DateTime.hour
    omega
  have hminute : t.minute = m.minute := by
    have := m.minute_lt
    have := m.second_lt
    unfold DateTime.minute
    omega
  have hclock : t.clockSecond = m.second := by
    have := m.second_lt
    unfold DateTime.clockSecond DateTime.secondOfMinute
    omega
  unfold clockText clock
  rw [hhour, hminute, hclock]
  simp

theorem stamped (h : m.Shown t) (hyear : 0 ≤ m.date.year ∧ m.date.year ≤ 9999) :
    m.universal.Stamped (stampText t) := by
  have hyear' : yearText t.date.year = Decimal.padded 4 m.date.year.toNat := by
    rw [h.date, yearText, if_pos hyear]
  have htext : stampText t = Decimal.padded 4 m.date.year.toNat ++ '-' ::
      (Decimal.padded 2 m.date.month ++ '-' :: (Decimal.padded 2 m.date.day ++ 'T' ::
        (m.clock ++ ([] ++ '+' :: (Decimal.padded 2 0 ++ ':' :: Decimal.padded 2 0))))) := by
    rw [stampText, dateText, hyear', h.clockText_eq, h.date]
    simp only [List.append_assoc, List.cons_append, List.nil_append]
    rfl
  rw [htext]
  exact .intro hyear (.inl rfl) .none .numeric

theorem mailed (h : m.Shown t) (hyear : 0 ≤ m.date.year ∧ m.date.year ≤ 9999) :
    m.universal.Mailed (mailText t) := by
  have hyear' : yearText t.date.year = Decimal.padded 4 m.date.year.toNat := by
    rw [h.date, yearText, if_pos hyear]
  have hday : (weekdayName m.date.weekday).take 3 =
      (mailDays.getD m.date.weekday "").toList := by
    have hlt := weekday_lt m.date
    generalize m.date.weekday = n at hlt ⊢
    decide +revert
  have hmonth : (monthName m.date.month).take 3 =
      (mailMonths.getD (m.date.month - 1) "").toList := by
    obtain ⟨hlow, hhigh⟩ := m.date.month_bounds
    generalize m.date.month = n at hlow hhigh ⊢
    interval_cases n <;> decide
  have htext : mailText t = (mailDays.getD m.date.weekday "").toList ++ ',' :: ' ' ::
      (Decimal.padded 2 m.date.day ++ ' ' :: ((mailMonths.getD (m.date.month - 1) "").toList ++
        ' ' :: (Decimal.padded 4 m.date.year.toNat ++ ' ' :: (m.clock ++ ' ' :: '+' ::
          (Decimal.padded 2 0 ++ Decimal.padded 2 0))))) := by
    rw [mailText, hyear', h.clockText_eq, h.date, hday, hmonth]
    simp only [List.append_assoc, List.cons_append]
    rfl
  exact ⟨hyear, htext⟩

end Moment.Shown

/-! ## Mail headers are unambiguous -/

theorem padded_append_inj {width n n' : Nat} {s' : Text} (hwidth : 0 < width) (hn : n < 10 ^ width)
    (hn' : n' < 10 ^ width)
    (h : Decimal.padded width n ++ s = Decimal.padded width n' ++ s') : n = n' ∧ s = s' := by
  have hlength : (Decimal.padded width n).length = (Decimal.padded width n').length := by
    rw [Decimal.length_padded hwidth hn, Decimal.length_padded hwidth hn']
  obtain ⟨hdigits, hrest⟩ := List.append_inj h hlength
  refine ⟨?_, hrest⟩
  rw [← Decimal.natOfDigits_padded width n, hdigits, Decimal.natOfDigits_padded]

/-- Names of three letters that are all different are told apart in front of a text. -/
theorem names_append_inj (names : List String) {n n' : Nat} {s' : Text}
    (hlength : ∀ k < names.length, (names.getD k "").toList.length = 3)
    (hdifferent : ∀ k < names.length, ∀ k' < names.length, names.getD k "" =
      names.getD k' "" → k = k')
    (hn : n < names.length) (hn' : n' < names.length)
    (h : (names.getD n "").toList ++ s = (names.getD n' "").toList ++ s') : n = n' ∧ s = s' := by
  obtain ⟨hname, hrest⟩ := List.append_inj h (by rw [hlength n hn, hlength n' hn'])
  exact ⟨hdifferent n hn n' hn' (String.toList_injective hname), hrest⟩

/-- The text of a mail header states one instant. -/
theorem Moment.Mailed.unixTime_eq {m' : Moment} (h : m.Mailed s) (h' : m'.Mailed s) :
    m'.unixTime = m.unixTime := by
  have hdate : ∀ d : Date, d.day < 10 ^ 2 ∧ d.month - 1 < mailMonths.length ∧ 1 ≤ d.month := by
    intro d
    obtain ⟨hlow, hhigh⟩ := d.month_bounds
    obtain ⟨-, -, -, hlast⟩ := d.valid
    have hlength := daysInMonth_le d.year d.month
    exact ⟨by omega, show d.month - 1 < 12 by omega, hlow⟩
  have hclock : ∀ m : Moment, m.hour < 10 ^ 2 ∧ m.minute < 10 ^ 2 ∧ m.second < 10 ^ 2 := by
    intro m
    have := m.hour_lt
    have := m.minute_lt
    have := m.second_lt
    omega
  have hfour : ∀ {year : Int}, 0 ≤ year ∧ year ≤ 9999 → year.toNat < 10 ^ 4 := by
    intro year hyear
    omega
  have hoffset : ∀ o : Offset, o.hours < 10 ^ 2 ∧ o.minutes < 10 ^ 2 := by
    intro o
    have := o.hours_lt
    have := o.minutes_lt
    omega
  have htext := h.text.symm.trans h'.text
  unfold Moment.clock at htext
  simp only [List.append_assoc, List.cons_append] at htext
  obtain ⟨-, htext⟩ := names_append_inj mailDays (by decide) (by decide) (weekday_lt _)
    (weekday_lt _) htext
  obtain ⟨hday, htext⟩ := padded_append_inj (by decide) (hdate _).1 (hdate _).1
    (List.cons.inj (List.cons.inj htext).2).2
  obtain ⟨hmonth, htext⟩ := names_append_inj mailMonths (by decide) (by decide)
    (hdate _).2.1 (hdate _).2.1 (List.cons.inj htext).2
  obtain ⟨hyear, htext⟩ := padded_append_inj (by decide) (hfour h.year) (hfour h'.year)
    (List.cons.inj htext).2
  obtain ⟨hhour, htext⟩ := padded_append_inj (by decide) (hclock m).1 (hclock m').1
    (List.cons.inj htext).2
  obtain ⟨hminute, htext⟩ := padded_append_inj (by decide) (hclock m).2.1 (hclock m').2.1
    (List.cons.inj htext).2
  obtain ⟨hsecond, htext⟩ := padded_append_inj (by decide) (hclock m).2.2 (hclock m').2.2
    (List.cons.inj htext).2
  obtain ⟨hsign, htext⟩ := List.cons.inj (List.cons.inj htext).2
  obtain ⟨hhours, htext⟩ := padded_append_inj (by decide) (hoffset _).1 (hoffset _).1 htext
  rw [← List.append_nil (Decimal.padded 2 m.offset.minutes),
    ← List.append_nil (Decimal.padded 2 m'.offset.minutes)] at htext
  obtain ⟨hminutes, -⟩ := padded_append_inj (by decide) (hoffset _).2 (hoffset _).2 htext
  have hday' : m.date = m'.date := by
    have hlow := (hdate m.date).2.2
    have hlow' := (hdate m'.date).2.2
    have := h.year
    have := h'.year
    exact Date.eq_of_parts (by omega) (by omega) hday
  have htotal : m.offset.total = m'.offset.total := by
    unfold Offset.total
    rw [Offset.ahead_eq hsign, hhours, hminutes]
  unfold unixTime
  rw [hday', hhour, hminute, hsecond, htotal]

end Stencil.Calendar
