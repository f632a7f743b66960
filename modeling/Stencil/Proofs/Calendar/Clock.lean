import Stencil.Calendar.Writer
import Stencil.Proofs.Calendar.Moves

/-!
# What a clock shows

The plain notation has no fractions of seconds, so a point in time comes back from it as its whole
second. Leap seconds stay: they are the last second of a minute and so on the clock. No move of a
modifier looks at the fraction, and none leads to a leap second that no clock shows.
-/

namespace Stencil

open Calendar

namespace DateTime

/-- A leap second is the last of a minute. -/
def OnClock (t : DateTime) : Prop := t.nano < 1000000000 ∨ t.secondOfMinute = 59

/-- The point in time without the fraction of its second; a leap second is kept. -/
def wholeSecond (t : DateTime) : DateTime :=
  { t with
    nano := 1000000000 * (t.nano / 1000000000)
    nano_lt := by have := t.nano_lt; omega }

variable {t u : DateTime} {n : Int}

theorem plainText_wholeSecond (t : DateTime) : plainText t.wholeSecond = plainText t := by
  have hclock : t.wholeSecond.clockSecond = t.clockSecond := by
    unfold clockSecond
    show t.secondOfMinute + 1000000000 * (t.nano / 1000000000) / 1000000000 = _
    omega
  unfold plainText clockText
  rw [hclock]
  rfl

theorem onClock_midnight (date : Date) : (midnight date).OnClock :=
  .inl (show 0 < 1000000000 by decide)

theorem wholeSecond_midnight (date : Date) : (midnight date).wholeSecond = midnight date := by
  simp [wholeSecond, midnight]

/-! ## Shifts -/

theorem of?_eq_some {date : Date} {second nano : Nat} : of? date second nano = some t ↔
    t.date = date ∧ t.second = second ∧ t.nano = nano := by
  unfold of?
  constructor
  · intro h
    split at h
    · obtain rfl := Option.some.inj h
      exact ⟨rfl, rfl, rfl⟩
    · cases h
  · rintro ⟨rfl, rfl, rfl⟩
    rw [dif_pos ⟨t.second_lt, t.nano_lt⟩]

theorem of?_wholeSecond (date : Date) (second nano : Nat) :
    of? date second (1000000000 * (nano / 1000000000)) =
      (of? date second nano).map wholeSecond := by
  unfold of?
  by_cases h : second < 86400 ∧ nano < 2000000000
  · rw [dif_pos h, dif_pos ⟨h.1, by omega⟩]
    rfl
  · rw [dif_neg h, dif_neg (by omega)]
    rfl

theorem ofTimestamp?_wholeSecond (seconds : Int) (nano : Nat) :
    ofTimestamp? seconds (1000000000 * (nano / 1000000000)) =
      (ofTimestamp? seconds nano).map wholeSecond := by
  unfold ofTimestamp?
  rw [Option.map_bind]
  congr
  funext date
  exact of?_wholeSecond date _ nano

theorem nano_of_ofTimestamp? {seconds : Int} {nano : Nat} (h : ofTimestamp? seconds nano = some t) :
    t.nano = nano := by
  obtain ⟨date, -, ht⟩ := Option.bind_eq_some_iff.mp h
  exact (of?_eq_some.mp ht).2.2

/-- Seconds are added to whole seconds. -/
theorem addSeconds?_wholeSecond (t : DateTime) (n : Int) :
    t.wholeSecond.addSeconds? n = (t.addSeconds? n).map wholeSecond := by
  have hnano := t.nano_lt
  have hwhole : t.wholeSecond.nano = 1000000000 * (t.nano / 1000000000) := rfl
  have hstamp : t.wholeSecond.timestamp = t.timestamp := rfl
  unfold addSeconds?
  rw [hstamp, hwhole]
  by_cases hzero : n = 0
  · rw [if_pos hzero, if_pos hzero]
    rfl
  rw [if_neg hzero, if_neg hzero]
  by_cases hleap : t.nano < 1000000000
  · rw [if_pos hleap, if_pos (by omega), ofTimestamp?_wholeSecond]
  -- past a leap second its fraction is one of an ordinary second
  have hrest : 1000000000 * (t.nano / 1000000000) - 1000000000 =
      1000000000 * ((t.nano - 1000000000) / 1000000000) := by omega
  rw [if_neg hleap, if_neg (by omega), hrest]
  split <;> exact ofTimestamp?_wholeSecond _ _

theorem addMonths?_wholeSecond (t : DateTime) (n : Int) :
    t.wholeSecond.addMonths? n = (t.addMonths? n).map wholeSecond := by
  unfold addMonths?
  rw [Option.map_map]
  rfl

theorem onClock_of_addSeconds? (ht : t.OnClock) (h : t.addSeconds? n = some u) : u.OnClock := by
  have hnano := t.nano_lt
  -- only adding nothing keeps a leap second
  unfold addSeconds? at h
  split at h
  · exact Option.some.inj h ▸ ht
  split at h
  · exact .inl (by rw [nano_of_ofTimestamp? h]; assumption)
  split at h
  · exact .inl (by rw [nano_of_ofTimestamp? h]; omega)
  · exact .inl (by rw [nano_of_ofTimestamp? h]; omega)

theorem onClock_of_addMonths? (ht : t.OnClock) (h : t.addMonths? n = some u) : u.OnClock := by
  obtain ⟨date, -, rfl⟩ := Option.map_eq_some_iff.mp h
  exact ht

end DateTime

namespace Calendar

variable {t u : DateTime}

/-! ## Moves -/

theorem Unit.add?_wholeSecond (t : DateTime) (amount : Int) (unit : Unit) :
    unit.add? t.wholeSecond amount = (unit.add? t amount).map DateTime.wholeSecond := by
  cases unit with
  | months n =>
    rw [Unit.add?, Unit.add?, Option.map_bind]
    congr
    funext m
    exact t.addMonths?_wholeSecond m
  | seconds n =>
    rw [Unit.add?, Unit.add?, Option.map_bind]
    congr
    funext m
    exact t.addSeconds?_wholeSecond m

theorem onClock_of_add? {unit : Unit} {amount : Int} (ht : t.OnClock)
    (h : unit.add? t amount = some u) : u.OnClock := by
  cases unit with
  | months n =>
    obtain ⟨m, -, hu⟩ := Option.bind_eq_some_iff.mp h
    exact DateTime.onClock_of_addMonths? ht hu
  | seconds n =>
    obtain ⟨m, -, hu⟩ := Option.bind_eq_some_iff.mp h
    exact DateTime.onClock_of_addSeconds? ht hu

/-- A move does not look at the fraction of the second. -/
theorem Move.run?_wholeSecond (t : DateTime) (move : Move) :
    move.run? t.wholeSecond = (move.run? t).map DateTime.wholeSecond := by
  cases move with
  | midnight =>
    rw [Move.run?, Move.run?, Option.map_some, DateTime.wholeSecond_midnight]
    rfl
  | shift amount name =>
    rw [Move.run?, Move.run?, toOption_shift, toOption_shift, Option.map_bind]
    congr
    funext unit
    exact unit.add?_wholeSecond t amount

theorem Move.onClock_of_run? {move : Move} (ht : t.OnClock) (h : move.run? t = some u) :
    u.OnClock := by
  cases move with
  | midnight => exact Option.some.inj h ▸ DateTime.onClock_midnight t.date
  | shift amount name =>
    rw [Move.run?, toOption_shift] at h
    obtain ⟨unit, -, hu⟩ := Option.bind_eq_some_iff.mp h
    exact onClock_of_add? ht hu

theorem runMoves?_wholeSecond (t : DateTime) (moves : List Move) :
    runMoves? t.wholeSecond moves = (runMoves? t moves).map DateTime.wholeSecond := by
  induction moves generalizing t with
  | nil => rfl
  | cons move moves ih =>
    rw [runMoves?_cons, runMoves?_cons, Move.run?_wholeSecond, Option.map_bind, Option.bind_map]
    congr 1
    funext s
    exact ih s

theorem onClock_of_runMoves? {moves : List Move} (ht : t.OnClock)
    (h : runMoves? t moves = some u) : u.OnClock := by
  induction moves generalizing t with
  | nil => exact Option.some.inj h ▸ ht
  | cons move moves ih =>
    obtain ⟨s, hs, hu⟩ := Option.bind_eq_some_iff.mp h
    exact ih (move.onClock_of_run? ht hs) hu

/-! ## Modifiers -/

/-- **A modifier does not look at the fraction of the second.** -/
theorem toOption_modify_wholeSecond (t : DateTime) (modifier : String) :
    (modify t.wholeSecond modifier).toOption =
      (modify t modifier).toOption.map DateTime.wholeSecond := by
  rw [toOption_modify, toOption_modify, Option.map_bind]
  congr
  funext moves
  exact runMoves?_wholeSecond t moves

theorem onClock_of_modify {modifier : String} (ht : t.OnClock) (h : modify t modifier = .ok u) :
    u.OnClock := by
  have hmoves := toOption_modify t modifier
  rw [h] at hmoves
  obtain ⟨moves, -, hu⟩ := Option.bind_eq_some_iff.mp hmoves.symm
  exact onClock_of_runMoves? ht hu

end Calendar

end Stencil
