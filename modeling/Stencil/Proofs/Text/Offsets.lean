import Stencil.Text.Basic

/-!
# Offsets and positions

Inside the library a place in a text is a position, which counts characters. To the outside it is an
offset, which counts UTF-8 bytes. Every position has an offset, further positions have greater ones,
and the offsets between them, inside a character, belong to no position.
-/

namespace Stencil.Text

@[simp] theorem utf8Size_nil : utf8Size [] = 0 := rfl

@[simp] theorem utf8Size_cons (c : Char) (s : Text) :
    utf8Size (c :: s) = c.utf8Size + utf8Size s := rfl

@[simp] theorem utf8Size_append (s t : Text) : utf8Size (s ++ t) = utf8Size s + utf8Size t := by
  induction s with
  | nil => simp
  | cons c s ih => rw [List.cons_append, utf8Size_cons, utf8Size_cons, ih, Nat.add_assoc]

theorem utf8Size_pos {s : Text} (h : s ≠ []) : 0 < utf8Size s := by
  obtain ⟨c, s, rfl⟩ := List.exists_cons_of_ne_nil h
  have := c.utf8Size_pos
  rw [utf8Size_cons]
  omega

/-- The offset of a position. -/
def offset (s : Text) (i : Nat) : Nat := utf8Size (s.take i)

variable {s : Text} {i j n : Nat}

@[simp] theorem offset_zero (s : Text) : s.offset 0 = 0 := rfl

theorem offset_length (s : Text) :
    s.offset s.length = utf8Size s := by rw [offset, List.take_length]

/-- Offsets add up along a text. -/
theorem offset_add (s : Text) (i j : Nat) :
    s.offset (i + j) = s.offset i + offset (s.drop i) j := by
  rw [offset, List.take_add, utf8Size_append, offset, offset]

theorem offset_le_offset (s : Text) (h : i ≤ j) : s.offset i ≤ s.offset j := by
  obtain ⟨k, rfl⟩ := Nat.exists_eq_add_of_le h
  rw [offset_add]
  omega

theorem offset_lt_offset (h : i < j) (hj : j ≤ s.length) : s.offset i < s.offset j := by
  obtain ⟨k, rfl⟩ := Nat.exists_eq_add_of_lt h
  have hpos : 0 < offset (s.drop i) (k + 1) := by
    refine utf8Size_pos fun hnil => ?_
    have := congrArg List.length hnil
    simp only [List.length_take, List.length_drop, List.length_nil] at this
    omega
  rw [Nat.add_assoc, offset_add]
  omega

/-- Offsets are in the order of their positions. -/
theorem offset_lt_offset_iff (hj : j ≤ s.length) : s.offset i < s.offset j ↔ i < j := by
  constructor
  · intro h
    refine Nat.lt_of_not_le fun hle => ?_
    have := s.offset_le_offset hle
    omega
  · intro h
    exact offset_lt_offset h hj

/-- The position that is found for an offset is the one that has it. -/
theorem indexOfOffset?_eq_some_iff :
    s.indexOfOffset? n = some i ↔ i ≤ s.length ∧ s.offset i = n := by
  induction s generalizing n i with
  | nil =>
    cases n with
    | zero => simp [indexOfOffset?, offset, eq_comm]
    | succ n => simp [indexOfOffset?, offset]
  | cons c s ih =>
    have hc := c.utf8Size_pos
    have hcons : ∀ i, offset (c :: s) (i + 1) = c.utf8Size + offset s i := fun i => rfl
    cases n with
    | zero =>
      cases i with
      | zero => simp [indexOfOffset?]
      | succ i =>
        rw [indexOfOffset?, hcons]
        simp only [Option.some.injEq, Nat.zero_ne_add_one, false_iff]
        omega
    | succ n =>
      rw [indexOfOffset?.eq_3 (n + 1) c s (by simp)]
      cases i with
      | zero =>
        rw [offset_zero]
        refine iff_of_false ?_ (by omega)
        split <;> simp
      | succ i =>
        rw [hcons, List.length_cons]
        split
        · rename_i hle
          rw [Option.map_eq_some_iff]
          constructor
          · rintro ⟨k, hk, hki⟩
            obtain rfl : k = i := by omega
            obtain ⟨hlen, hoff⟩ := ih.mp hk
            omega
          · rintro ⟨hlen, hoff⟩
            exact ⟨i, ih.mpr ⟨by omega, by omega⟩, rfl⟩
        · rename_i hlt
          simp only [reduceCtorEq, false_iff]
          omega

theorem indexOfOffset?_offset (h : i ≤ s.length) : s.indexOfOffset? (s.offset i) = some i :=
  indexOfOffset?_eq_some_iff.mpr ⟨h, rfl⟩

/-- There is no position for an offset that no front of the text has as its size. -/
theorem indexOfOffset?_eq_none_iff :
    s.indexOfOffset? n = none ↔ ¬ ∃ front rest, s = front ++ rest ∧ utf8Size front = n := by
  rw [Option.eq_none_iff_forall_ne_some]
  constructor
  · rintro h ⟨front, rest, rfl, rfl⟩
    refine h front.length (indexOfOffset?_eq_some_iff.mpr ⟨by simp, ?_⟩)
    rw [offset, List.take_left]
  · rintro h i hi
    obtain ⟨-, hoff⟩ := indexOfOffset?_eq_some_iff.mp hi
    exact h ⟨s.take i, s.drop i, (List.take_append_drop i s).symm, hoff⟩

end Stencil.Text
