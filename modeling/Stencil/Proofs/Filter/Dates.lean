import Stencil.Filter.Builtin
import Stencil.Proofs.Calendar.Notation

/-!
# Dates in a chain of filters

A shifted date is written in the plain notation, and the next filter of the chain reads it again. So
all that is lost between two filters is the fraction of a second, which no modifier looks at.
-/

namespace Stencil.Filter

variable {v w : Value} {t u : DateTime}

/-- A date in the plain notation. -/
def plainDate (t : DateTime) : Value := .str (String.ofList (Calendar.plainText t))

theorem plainDate_wholeSecond (t : DateTime) : plainDate t.wholeSecond = plainDate t := by
  unfold plainDate
  rw [t.plainText_wholeSecond]

/-- What is read as a date is on the clock. -/
theorem onClock_of_dateOf (h : dateOf v = .ok t) : t.OnClock := by
  have hstamp : ∀ {seconds : Int64}, dateOfTimestamp seconds = .ok t → t.OnClock := by
    intro seconds hseconds
    unfold dateOfTimestamp at hseconds
    split at hseconds
    · rename_i u hu
      obtain rfl := Except.ok.inj hseconds
      exact .inl (by rw [DateTime.nano_of_ofTimestamp? hu]; decide)
    · cases hseconds
  unfold dateOf at h
  split at h
  · exact hstamp h
  · unfold dateOfText at h
    split at h
    · rename_i u hu
      obtain rfl := Except.ok.inj h
      exact Calendar.onClock_of_read? hu
    · split at h
      · exact hstamp h
      · cases h

/-- **A date in the plain notation is read back as its whole second.** -/
theorem dateOf_plainDate (ht : t.OnClock) : dateOf (plainDate t) = .ok t.wholeSecond := by
  have htext : (plainDate t).text = Calendar.plainText t := String.toList_ofList
  have hvalue : dateOf (plainDate t) = dateOfText (plainDate t).text.trim := rfl
  unfold dateOfText at hvalue
  rw [hvalue, htext, Calendar.trim_plainText, Calendar.read?_plainText ht]

/-- A date is shifted by a modifier that is not empty. -/
theorem dateModify_eq {m : String} (hm : m ≠ "") (v : Value) :
    dateModify v [m] = do
      let t ← Calendar.modify (← dateOf v) m
      return plainDate t := by
  unfold dateModify required
  dsimp only [List.head?_cons]
  rw [if_neg hm]
  rfl

theorem toOption_dateModify {m : String} (hm : m ≠ "") (hv : dateOf v = .ok t) :
    (dateModify v [m]).toOption = (Calendar.modify t m).toOption.map plainDate := by
  rw [dateModify_eq hm, hv]
  show (Calendar.modify t m >>= fun u => .ok (plainDate u)).toOption = _
  cases Calendar.modify t m <;> rfl

theorem dateModify_eq_ok_iff {m : String} (hm : m ≠ "") : dateModify v [m] = .ok w ↔
    ∃ t u, dateOf v = .ok t ∧ Calendar.modify t m = .ok u ∧ plainDate u = w := by
  cases hv : dateOf v with
  | error e =>
    rw [dateModify_eq hm, hv]
    simp [bind, Except.bind]
  | ok t =>
    rw [dateModify_eq hm, hv]
    cases hu : Calendar.modify t m <;> simp [bind, Except.bind, pure, Except.pure, hu]

/-- **Modifiers in a chain are one modifier.** Where a date can be shifted by one modifier, shifting
the result by another is shifting the date by both with a blank between them: either both fail, or
they give the same text. What the first writes is read back as the date and time it wrote, and so is
every point in time of the calendar. -/
theorem dateModify_chains {m₁ m₂ : String} (h₁ : m₁ ≠ "") (h₂ : m₂ ≠ "")
    (h : dateModify v [m₁] = .ok w) :
    (dateModify w [m₂]).toOption = (dateModify v [m₁ ++ " " ++ m₂]).toOption ∧
      (∃ t u, dateOf v = .ok t ∧ Calendar.modify t m₁ = .ok u ∧
        w = .str (String.ofList (Calendar.plainText u)) ∧ dateOf w = .ok u.wholeSecond) ∧
      ∀ u : DateTime, u.OnClock →
        dateOf (.str (String.ofList (Calendar.plainText u))) = .ok u.wholeSecond := by
  obtain ⟨t, u, hv, hu, rfl⟩ := (dateModify_eq_ok_iff h₁).mp h
  have hclock : u.OnClock := Calendar.onClock_of_modify (onClock_of_dateOf hv) hu
  have hback := dateOf_plainDate hclock
  have hboth : m₁ ++ " " ++ m₂ ≠ "" := by
    intro hempty
    simpa using congrArg String.toList hempty
  refine ⟨?_, ⟨t, u, hv, hu, rfl, hback⟩, fun u hu => dateOf_plainDate hu⟩
  calc (dateModify (plainDate u) [m₂]).toOption
      = (Calendar.modify u.wholeSecond m₂).toOption.map plainDate := toOption_dateModify h₂ hback
    _ = ((Calendar.modify u m₂).toOption.map DateTime.wholeSecond).map plainDate := by
        rw [Calendar.toOption_modify_wholeSecond]
    _ = (Calendar.modify u m₂).toOption.map plainDate := by
        rw [Option.map_map]
        exact congrArg (fun f => (Calendar.modify u m₂).toOption.map f)
          (funext plainDate_wholeSecond)
    _ = (Calendar.modify t (m₁ ++ " " ++ m₂)).toOption.map plainDate := by
        rw [Calendar.toOption_modify_append hu]
    _ = (dateModify v [m₁ ++ " " ++ m₂]).toOption := (toOption_dateModify hboth hv).symm

/-- A day after the start of 1970, and an hour after that. -/
theorem dateModify_chains_tomorrow :
    let tomorrow : DateTime := .midnight ⟨1970, 1, 2, by decide⟩
    ("tomorrow" ≠ "" ∧ "+1 hour" ≠ "" ∧
      dateModify (.int 0) ["tomorrow"] = .ok (plainDate tomorrow)) ∧
      (dateModify (plainDate tomorrow) ["+1 hour"]).toOption =
        (dateModify (.int 0) ["tomorrow" ++ " " ++ "+1 hour"]).toOption := by
  intro tomorrow
  have hstart : dateOf (.int 0) = .ok (.midnight ⟨1970, 1, 1, by decide⟩) := by
    rfl
  have hday : Calendar.modify (.midnight ⟨1970, 1, 1, by decide⟩) "tomorrow" = .ok tomorrow := by
    rfl
  have h₁ : "tomorrow" ≠ "" := by decide
  have h₂ : "+1 hour" ≠ "" := by decide
  have h : dateModify (.int 0) ["tomorrow"] = .ok (plainDate tomorrow) :=
    (dateModify_eq_ok_iff h₁).mpr ⟨_, _, hstart, hday, rfl⟩
  exact ⟨⟨h₁, h₂, h⟩, (dateModify_chains h₁ h₂ h).1⟩

end Stencil.Filter
