import Stencil.Proofs.Calendar.Moments
import Stencil.Proofs.Filter.Timestamps

/-!
# Instants in the filters on dates

Points in time have no time zone. Of an internet timestamp the filters on dates keep what the clock
shows and drop its offset, and the formats that state an offset state none. So an instant is kept if
its text is in universal time, and otherwise it moves by the offset.
-/

namespace Stencil.Filter

open Calendar (Moment write stampText mailText)

variable {m : Moment} {s : Text}

/-- An internet timestamp is the point in time that its clock shows. -/
theorem dateOf_stamped (h : m.Stamped s) :
    ∃ t, dateOf (.str (String.ofList s)) = .ok t ∧ m.Shown t := by
  obtain ⟨t, hread, hshown⟩ := h.read?_eq
  have htext : (Value.str (String.ofList s)).text = s := String.toList_ofList
  refine ⟨t, ?_, hshown⟩
  show dateOfText (Value.str (String.ofList s)).text.trim = _
  unfold dateOfText
  rw [htext, h.trim_eq, hread]

/-- **Dates are shown as universal time.** Every internet timestamp is read, and what its clock
shows is written as universal time by the formats that state an instant: in seconds, as an internet
timestamp and as in mail headers. That is the instant of the text moved by its offset, and the same
instant where there is no offset. -/
theorem date_stamped (h : m.Stamped s) :
    m.universal.unixTime = m.unixTime + 60 * m.offset.total ∧
    date (.str (String.ofList s)) ["U"] = .ok (timestampText m.universal.unixTime) ∧
    (∃ c, date (.str (String.ofList s)) ["c"] = .ok (.str (String.ofList c)) ∧
      m.universal.Stamped c ∧ ∀ m', Moment.Stamped m' c → m'.unixTime = m.universal.unixTime) ∧
    ∃ r, date (.str (String.ofList s)) ["r"] = .ok (.str (String.ofList r)) ∧
      m.universal.Mailed r ∧ ∀ m', Moment.Mailed m' r → m'.unixTime = m.universal.unixTime := by
  obtain ⟨t, hdate, hshown⟩ := dateOf_stamped h
  have hyear : 0 ≤ m.date.year ∧ m.date.year ≤ 9999 := by
    obtain ⟨hyear, -, -, -⟩ := h
    exact hyear
  have hc : write t "c".toList = stampText t := List.append_nil _
  have hr : write t "r".toList = mailText t := List.append_nil _
  have hstamped := hshown.stamped hyear
  have hmailed := hshown.mailed hyear
  refine ⟨m.unixTime_universal, ?_,
    ⟨stampText t, ?_, hstamped, fun m' h' => hstamped.unixTime_eq h'⟩,
    ⟨mailText t, ?_, hmailed, fun m' h' => hmailed.unixTime_eq h'⟩⟩
  · rw [date_timestamp hdate, hshown.timestamp_eq]
  · rw [date_eq (by decide) hdate, hc]
  · rw [date_eq (by decide) hdate, hr]

/-- A quarter of a second before the year 1970 somewhere in the west, where universal time is
already in it. -/
theorem date_stamped_evening :
    let m : Moment := ⟨⟨1969, 12, 31, by decide⟩, 23, 59, 59, ⟨false, 1, 30, by decide, by decide⟩,
      by decide, by decide, by decide⟩
    m.Stamped "1969-12-31t23:59:59.75-01:30".toList ∧ m.unixTime = 5399 ∧
      date (.str "1969-12-31t23:59:59.75-01:30") ["U"] = .ok (.str "-1") := by
  intro m
  have hspelled : "1969-12-31t23:59:59.75-01:30".toList =
      Decimal.padded 4 1969 ++ '-' :: (Decimal.padded 2 12 ++ '-' :: (Decimal.padded 2 31 ++ 't' ::
        (m.clock ++ (".75".toList ++ '-' ::
          (Decimal.padded 2 1 ++ ':' :: Decimal.padded 2 30))))) := by
    decide +kernel
  have h : m.Stamped "1969-12-31t23:59:59.75-01:30".toList := by
    rw [hspelled]
    exact .intro (by decide) (.inr (.inl rfl)) (.digits (by decide) (by decide)) .numeric
  have htext : timestampText m.universal.unixTime = .str "-1" := congrArg Value.str (by decide)
  exact ⟨h, by decide, htext ▸ (date_stamped h).2.1⟩

/-- A clock that is two hours ahead: what it shows is taken for universal time, two hours after the
instant of the text. -/
theorem date_stamped_ahead :
    let m : Moment := ⟨⟨2024, 3, 5, by decide⟩, 14, 7, 9, ⟨true, 2, 0, by decide, by decide⟩,
      by decide, by decide, by decide⟩
    m.Stamped "2024-03-05T14:07:09+02:00".toList ∧ m.unixTime = 1709640429 ∧
      date (.str "2024-03-05T14:07:09+02:00") ["U"] = .ok (.str "1709647629") ∧
      date (.str "2024-03-05T14:07:09+02:00") ["c"] = .ok (.str "2024-03-05T14:07:09+00:00") ∧
      date (.str "2024-03-05T14:07:09+02:00") ["r"] =
        .ok (.str "Tue, 05 Mar 2024 14:07:09 +0000") := by
  intro m
  have hspelled : "2024-03-05T14:07:09+02:00".toList =
      Decimal.padded 4 2024 ++ '-' :: (Decimal.padded 2 3 ++ '-' :: (Decimal.padded 2 5 ++ 'T' ::
        (m.clock ++ ([] ++ '+' :: (Decimal.padded 2 2 ++ ':' :: Decimal.padded 2 0))))) := by
    decide +kernel
  have h : m.Stamped "2024-03-05T14:07:09+02:00".toList := by
    rw [hspelled]
    exact .intro (by decide) (.inl rfl) .none .numeric
  exact ⟨h, by decide, by rfl, by rfl, by rfl⟩

end Stencil.Filter
