import Stencil.Proofs.Calendar.Timestamps
import Stencil.Proofs.Filter.Chains
import Stencil.Proofs.Filter.Dates

/-!
# Timestamps in the filters on dates

A timestamp may be given as a number or in digits, and a date format gives it back: at once, or
after a shift by nothing, which writes the date in the plain notation for the next filter to read.
-/

namespace Stencil.Filter

open Calendar (write)

variable {n : Int64} {v : Value} {t : DateTime}

/-- A timestamp in digits. -/
def timestampText (n : Int) : Value := .str (String.ofList (Decimal.intText n))

theorem dateOf_int_eq_ok : dateOf (.int n) = .ok t ↔ DateTime.ofTimestamp? n.toInt 0 = some t := by
  show dateOfTimestamp n = .ok t ↔ _
  unfold dateOfTimestamp
  cases DateTime.ofTimestamp? n.toInt 0 <;> simp

/-- **A timestamp in digits is the timestamp.** -/
theorem dateOf_timestampText (n : Int64) : dateOf (timestampText n.toInt) = dateOf (.int n) := by
  have htext : (timestampText n.toInt).text = Decimal.intText n.toInt := String.toList_ofList
  show dateOfText (timestampText n.toInt).text.trim = dateOfTimestamp n
  unfold dateOfText
  rw [htext, Calendar.trim_intText, Calendar.read?_intText, Decimal.readInt64?_intText]

/-! ## Writing -/

/-- A date is written by a format that is not empty. -/
theorem date_eq {format : String} (hformat : format ≠ "") (hv : dateOf v = .ok t) :
    date v [format] = .ok (.str (String.ofList (write t format.toList))) := by
  unfold date required
  dsimp only [List.head?_cons]
  rw [if_neg hformat, hv]
  rfl

theorem date_timestamp (hv : dateOf v = .ok t) :
    date v ["U"] = .ok (timestampText t.timestamp) := by
  have hwrite : write t "U".toList = Decimal.intText t.timestamp := List.append_nil _
  rw [date_eq (by decide) hv, hwrite, timestampText]

/-- The modifier that shifts by nothing writes the date in the plain notation. -/
theorem dateModify_now (hv : dateOf v = .ok t) : dateModify v ["now"] = .ok (plainDate t) :=
  (dateModify_eq_ok_iff (by decide)).mpr ⟨t, t, hv, rfl, rfl⟩

/-- The plain notation keeps the timestamp. -/
theorem date_timestamp_plainDate (hv : dateOf v = .ok t) :
    date (plainDate t) ["U"] = .ok (timestampText t.timestamp) := by
  rw [date_timestamp (dateOf_plainDate (onClock_of_dateOf hv))]
  rfl

/-- **Timestamps survive the filters on dates.** Given as a number or in digits, a timestamp is the
same point in time, and there is one exactly if it lies in the calendar. Then the format `U` gives
the timestamp back in digits, also behind a shift by nothing, whose text is read again. -/
theorem timestamps_survive (n : Int64) :
    dateOf (timestampText n.toInt) = dateOf (.int n) ∧
    ((∃ t, dateOf (.int n) = .ok t) ↔
      DateTime.first.timestamp ≤ n.toInt ∧ n.toInt ≤ DateTime.last.timestamp) ∧
    ∀ v ∈ [.int n, timestampText n.toInt], ∀ t, dateOf v = .ok t →
      date v ["U"] = .ok (timestampText n.toInt) ∧
      (∃ w, dateModify v ["now"] = .ok w ∧ date w ["U"] = .ok (timestampText n.toInt)) ∧
      Registry.builtin.run v (Chain.parse "date_modify:now|date:U".toList) =
        timestampText n.toInt := by
  have hdigits := dateOf_timestampText n
  have hparse : Chain.parse "date_modify:now|date:U".toList =
      [⟨"date_modify", ["now"]⟩, ⟨"date", ["U"]⟩] := by decide
  refine ⟨hdigits, ?_, ?_⟩
  · simp only [dateOf_int_eq_ok]
    exact DateTime.exists_ofTimestamp?_iff
  · intro v hmem t hv
    have hint : dateOf (.int n) = .ok t := by
      rcases List.mem_pair.mp hmem with rfl | rfl
      · exact hv
      · rwa [hdigits] at hv
    obtain ⟨hstamp, -⟩ := DateTime.ofTimestamp?_eq_some.mp (dateOf_int_eq_ok.mp hint)
    have hmodify := dateModify_now hv
    have hdate := date_timestamp hv
    have hback := date_timestamp_plainDate hv
    rw [hstamp] at hdate hback
    refine ⟨hdate, ⟨_, hmodify, hback⟩, ?_⟩
    have hfirst : Registry.builtin.stage v ⟨"date_modify", ["now"]⟩ = plainDate t :=
      Registry.stage_eq (show Registry.builtin.get? "date_modify" =
        some dateModify from rfl) hmodify
    have hsecond : Registry.builtin.stage (plainDate t) ⟨"date", ["U"]⟩ = timestampText n.toInt :=
      Registry.stage_eq (show Registry.builtin.get? "date" = some date from rfl) hback
    rw [hparse, Registry.run, List.foldl_cons, hfirst, List.foldl_cons, hsecond, List.foldl_nil]

/-- The first second of the calendar, in a year that is written with a sign. -/
theorem timestamps_survive_first :
    let n : Int64 := -8334601228800
    dateOf (timestampText n.toInt) = .ok .first ∧
      Registry.builtin.run (timestampText n.toInt) (Chain.parse "date_modify:now|date:U".toList) =
        .str "-8334601228800" := by
  intro n
  have htext : timestampText n.toInt = .str "-8334601228800" := congrArg Value.str (by decide)
  obtain ⟨hdigits, -, hback⟩ := timestamps_survive n
  have hfirst : dateOf (timestampText n.toInt) = .ok .first := by
    rw [hdigits]
    exact dateOf_int_eq_ok.mpr (DateTime.ofTimestamp?_eq_some.mpr ⟨by decide, rfl⟩)
  exact ⟨hfirst, (hback _ (by simp) _ hfirst).2.2.trans htext⟩

end Stencil.Filter
