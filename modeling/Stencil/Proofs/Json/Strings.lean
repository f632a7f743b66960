import Stencil.Json.Reader
import Mathlib.Data.List.Basic

/-!
# JSON strings read back

A string is written with its quotes, backslashes and control characters escaped. Reading takes the
escapes off again and stops at the quote that ends the string, whatever stands behind it.
-/

namespace Stencil.Json

theorem hexValue?_digitChar : ∀ n < 16, hexValue? (Nat.digitChar n) = some n := by decide

/-- An escaped control character reads back. -/
theorem readString_controlEscape {c : Char} (hc : c.toNat < 0x20) (s : Text) :
    readString (controlEscape c.toNat ++ s) =
      (readString s).map fun p => (c :: p.1, p.2) := by
  have h1 := hexValue?_digitChar (c.toNat / 16) (by omega)
  have h2 := hexValue?_digitChar (c.toNat % 16) (by omega)
  have hvalue : hex4? '0' '0' (Nat.digitChar (c.toNat / 16)) (Nat.digitChar (c.toNat % 16)) =
      some c.toNat := by
    simp only [hex4?, h1, h2, show hexValue? '0' = some 0 from rfl]
    change some _ = _
    congr 1
    omega
  simp only [controlEscape, List.cons_append, List.nil_append]
  rw [readString]
  simp only [hvalue]
  rw [if_neg (by simp; omega), if_neg (by simp; omega), Char.ofNat_toNat]

/-- A character reads back from the way it is written in a string. -/
theorem readString_escapeChar (c : Char) (s : Text) :
    readString (escapeChar c ++ s) = (readString s).map fun p => (c :: p.1, p.2) := by
  have heq : ∀ {n : Nat}, c.toNat = n → c = Char.ofNat n := fun h => h ▸ (Char.ofNat_toNat c).symm
  rw [escapeChar]
  split
  · subst_vars
    simp [readString, simpleEscape?]
  split
  · subst_vars
    simp [readString, simpleEscape?]
  split
  · rename_i hquote hslash hlow
    split
    · rename_i h
      rw [heq h]
      simp [readString, simpleEscape?]
    split
    · rename_i h
      rw [heq h]
      simp [readString, simpleEscape?]
    split
    · subst_vars
      simp [readString, simpleEscape?]
    split
    · subst_vars
      simp [readString, simpleEscape?]
    split
    · subst_vars
      simp [readString, simpleEscape?]
    · exact readString_controlEscape hlow s
  · -- the character stands for itself
    rename_i hquote hslash hlow
    rw [List.singleton_append, readString]
    · rw [if_neg (by simp [hslash]; omega)]
    · simpa using hquote
    · simp [hslash]
    · simp [hslash]

/-- A string reads back, up to its closing quote. -/
theorem readString_written (cs s : Text) :
    readString (cs.flatMap escapeChar ++ '"' :: s) = some (cs, s) := by
  induction cs with
  | nil => simp [readString]
  | cons c cs ih =>
    rw [List.flatMap_cons, List.append_assoc, readString_escapeChar, ih]
    rfl

/-- A string is known by its text, whatever stands behind. -/
theorem stringText_append_inj {a b : String} {s t : Text}
    (h : stringText a ++ s = stringText b ++ t) : a = b ∧ s = t := by
  simp only [stringText, List.cons_append, List.append_assoc, List.nil_append] at h
  have hread := congrArg readString (List.cons.inj h).2
  rw [readString_written, readString_written] at hread
  obtain ⟨hchars, hrest⟩ := Prod.mk.inj (Option.some.inj hread)
  exact ⟨String.toList_inj.mp hchars, hrest⟩

/-- No control character is left in the text of a string. -/
theorem le_of_mem_escapeChar {c x : Char} (h : x ∈ escapeChar c) : 0x20 ≤ x.toNat := by
  have hlist : ∀ cs : Text, (cs.all fun y => 0x20 ≤ y.toNat) = true → x ∈ cs → 0x20 ≤ x.toNat :=
    fun cs hcs hx => by simpa using List.all_eq_true.mp hcs x hx
  have hdigit : ∀ n < 16, ([Nat.digitChar n].all fun y => 0x20 ≤ y.toNat) = true := by decide
  rw [escapeChar] at h
  split at h
  · exact hlist _ (by decide) h
  split at h
  · exact hlist _ (by decide) h
  split at h
  · rename_i hlow
    split at h
    · exact hlist _ (by decide) h
    split at h
    · exact hlist _ (by decide) h
    split at h
    · exact hlist _ (by decide) h
    split at h
    · exact hlist _ (by decide) h
    split at h
    · exact hlist _ (by decide) h
    · simp only [controlEscape, List.mem_cons, List.not_mem_nil, or_false] at h
      rcases h with rfl | rfl | rfl | rfl | h | h
      · decide
      · decide
      · decide
      · decide
      · exact hlist _ (hdigit (c.toNat / 16) (by omega)) (by simpa using h)
      · exact hlist _ (hdigit (c.toNat % 16) (by omega)) (by simpa using h)
  · rename_i hlow
    rw [List.mem_singleton] at h
    rw [h]
    omega

theorem le_of_mem_stringText {a : String} {x : Char} (h : x ∈ stringText a) : 0x20 ≤ x.toNat := by
  simp only [stringText, List.cons_append, List.mem_cons, List.mem_append, List.mem_flatMap,
    List.not_mem_nil, or_false] at h
  rcases h with rfl | ⟨c, -, hx⟩ | rfl
  · decide
  · exact le_of_mem_escapeChar hx
  · decide

end Stencil.Json
