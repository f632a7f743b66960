import Stencil.Proofs.Outline.Choices
import Stencil.Proofs.Tag.Cropped
import Stencil.Proofs.Tag.Untouched

/-!
# Resolving conditionals twice

What resolving the conditionals of a text leaves behind has no conditional in it: of its tags, those
that close stand in front of those that open, as with brackets of which all that match are struck
out. So resolving it again changes nothing, whatever the context. That asks that the parts of a text
make no new tags where they meet, which is so if the character that tags start with stands at the
start of tags of conditionals only.
-/

namespace Stencil

namespace Outline

open Recognizer

variable {P : Type} {d : Delimiters} {w : P → Text}

/-! ## Counting the tags of an outline -/

/-- Whether the tags of an outline open or close a conditional, one by one. -/
def signs (d : Delimiters) (ps : List (Piece P)) : List (Bool × Bool) :=
  ps.filterMap fun
    | .plain _ => none
    | .tag body => some (opensChoice d body, closesChoice d body)

theorem opensChoice_eq {body : Text} {c : Conditional}
    (hr : reading d d.conditionalTag body = some c) :
    opensChoice d body = c.isOpening := by
  rw [opensChoice, hr]
  cases c <;> rfl

theorem closesChoice_eq {body : Text} {c : Conditional}
    (hr : reading d d.conditionalTag body = some c) :
    closesChoice d body = c.isClosing := by
  rw [closesChoice, hr]
  cases c <;> rfl

theorem opensChoice_of_closesChoice {body : Text} (h : closesChoice d body = true) :
    opensChoice d body = false := by
  cases hr : reading d d.conditionalTag body with
  | none => rw [opensChoice, hr]
  | some c =>
    cases ho : opensChoice d body with
    | false => rfl
    | true =>
      rw [opensChoice_eq hr] at ho
      rw [closesChoice_eq hr, Conditional.isClosing_of_isOpening ho] at h
      exact absurd h (by simp)

/-- How many tags of an outline open a conditional. -/
def opened (d : Delimiters) (ps : List (Piece P)) : Nat := (signs d ps).countP (·.1)

/-- How many tags of an outline close one. -/
def closed (d : Delimiters) (ps : List (Piece P)) : Nat := (signs d ps).countP (·.2)

section

variable {body : Text} {p : P} {ps qs : List (Piece P)}

theorem signs_tag :
    signs d (.tag body :: ps) = (opensChoice d body, closesChoice d body) :: signs d ps := rfl

theorem signs_append : signs d (ps ++ qs) = signs d ps ++ signs d qs := List.filterMap_append

@[simp]
theorem opened_nil : opened (P := P) d [] = 0 := rfl

@[simp]
theorem closed_nil : closed (P := P) d [] = 0 := rfl

@[simp]
theorem opened_append : opened d (ps ++ qs) = opened d ps + opened d qs := by
  rw [opened, signs_append, List.countP_append]
  rfl

@[simp]
theorem closed_append : closed d (ps ++ qs) = closed d ps + closed d qs := by
  rw [closed, signs_append, List.countP_append]
  rfl

@[simp]
theorem opened_plain : opened d (.plain p :: ps) = opened d ps := rfl

@[simp]
theorem closed_plain : closed d (.plain p :: ps) = closed d ps := rfl

@[simp]
theorem opened_tag : opened d (.tag body :: ps) = opened d ps + (opensChoice d body).toNat := by
  rw [opened, signs_tag, List.countP_cons]
  cases opensChoice d body <;> rfl

@[simp]
theorem closed_tag : closed d (.tag body :: ps) = closed d ps + (closesChoice d body).toNat := by
  rw [closed, signs_tag, List.countP_cons]
  cases closesChoice d body <;> rfl

end

/-- Nowhere in an outline have more conditionals been closed than opened, those counted that were
open before. -/
def Held (d : Delimiters) (depth : Nat) (ps : List (Piece P)) : Prop :=
  ∀ front back, ps = front ++ back → closed d front ≤ opened d front + depth

theorem Held.cons {q : Piece P} {ps : List (Piece P)} {depth depth' : Nat} (h : Held d depth' ps)
    (hq : closed d [q] + depth' ≤ opened d [q] + depth) : Held d depth (q :: ps) := by
  intro front back heq
  cases front with
  | nil => exact Nat.zero_le _
  | cons x front =>
    obtain ⟨rfl, hps⟩ := List.cons.inj heq
    have hfront := h front back hps
    rw [← List.singleton_append, closed_append, opened_append]
    omega

theorem Held.tail {q : Piece P} {ps : List (Piece P)} {depth depth' : Nat}
    (h : Held d depth (q :: ps))
    (hq : opened d [q] + depth ≤ closed d [q] + depth') : Held d depth' ps := by
  intro front back heq
  have hfront := h (q :: front) back (by rw [heq, List.cons_append])
  rw [← List.singleton_append, closed_append, opened_append] at hfront
  omega

theorem Held.concat {q : Piece P} {ps : List (Piece P)} {depth : Nat} (h : Held d depth ps)
    (hq : closed d (ps ++ [q]) ≤ opened d (ps ++ [q]) + depth) : Held d depth (ps ++ [q]) := by
  intro front back heq
  rcases List.eq_nil_or_concat back with rfl | ⟨back, x, rfl⟩
  · rw [List.append_nil] at heq
    rw [← heq]
    exact hq
  · rw [List.concat_eq_append, ← List.append_assoc] at heq
    exact h front back (List.append_inj_left' heq rfl)

/-- An outline in which every conditional that is opened is closed, and the other way round. -/
structure Even (d : Delimiters) (ps : List (Piece P)) : Prop where
  /-- Nothing is closed that is not open. -/
  held : Held d 0 ps
  /-- Everything is closed. -/
  closed_eq : closed d ps = opened d ps

section

variable {body back : Text} {q : Piece P} {ps inside rest : List (Piece P)} {depth : Nat}

theorem held_nil : Held (P := P) d depth [] := by
  intro front back heq
  rw [(List.append_eq_nil_iff.mp heq.symm).1]
  exact Nat.zero_le _

/-- Where a split finds no closing tag, nothing is closed but what is open. -/
theorem held_of_splitClose (h : splitClose (opensChoice d) (closesChoice d) depth ps = none) :
    Held d depth ps := by
  fun_induction splitClose (opensChoice d) (closesChoice d) depth ps with
  | case1 => exact held_nil
  | case2 depth p ps ih => exact (ih (Option.map_eq_none_iff.mp h)).cons (by simp)
  | case3 body ps depth hc ho ih =>
    exact (ih (Option.map_eq_none_iff.mp h)).cons (by simp [hc, ho, Nat.add_comm])
  | case4 => exact absurd h (by simp)
  | case5 body ps depth hc ho ih =>
    exact (ih (Option.map_eq_none_iff.mp h)).cons (by simp [hc, ho, Nat.add_comm])
  | case6 body ps depth hc ho ih =>
    exact (ih (Option.map_eq_none_iff.mp h)).cons (by simp [hc, ho])
  | case7 body ps depth hc ho ih =>
    exact (ih (Option.map_eq_none_iff.mp h)).cons (by simp [hc, ho])

/-- In front of the closing tag that a split finds, what is open is closed, and nothing else. -/
theorem held_inside
    (h : splitClose (opensChoice d) (closesChoice d) depth ps = some (inside, back, rest)) :
    Held d depth inside ∧ closed d inside = opened d inside + depth := by
  -- one more piece in front
  have hstep : ∀ {q : Piece P} {x : Option (List (Piece P) × Text × List (Piece P))}
      {depth depth' : Nat}, (∀ {tail}, x = some (tail, back, rest) →
        Held d depth' tail ∧ closed d tail = opened d tail + depth') →
      closed d [q] + depth' = opened d [q] + depth →
      ∀ {inside}, x.map (fun x => (q :: x.1, x.2)) = some (inside, back, rest) →
        Held d depth inside ∧ closed d inside = opened d inside + depth := by
    intro q x depth depth' ih hq inside hx
    obtain ⟨tail, rfl, htail⟩ := cons_split hx
    obtain ⟨hheld, hclosed⟩ := ih htail
    refine ⟨hheld.cons (Nat.le_of_eq hq), ?_⟩
    rw [← List.singleton_append, closed_append, opened_append]
    omega
  fun_induction splitClose (opensChoice d) (closesChoice d) depth ps generalizing inside with
  | case1 => exact absurd h (by simp)
  | case2 depth p ps ih => exact hstep ih (by simp) h
  | case3 body ps depth hc ho ih => exact hstep ih (by simp [hc, ho, Nat.add_comm]) h
  | case4 body ps hc ho =>
    simp only [Option.some.injEq, Prod.mk.injEq] at h
    obtain ⟨rfl, -, -⟩ := h
    exact ⟨held_nil, rfl⟩
  | case5 body ps depth hc ho ih => exact hstep ih (by simp [hc, ho, Nat.add_comm]) h
  | case6 body ps depth hc ho ih => exact hstep ih (by simp [hc, ho]) h
  | case7 body ps depth hc ho ih => exact hstep ih (by simp [hc, ho]) h

end

/-! ## The branches of a conditional -/

section

variable {condition? : Option Text} {sofar ps : List (Piece P)} {depth : Nat}
  {b : Option Text × List (Piece P)}

/-- A branch is a stretch of the outline. -/
theorem isInfix_of_mem_branches (h : b ∈ branches d depth condition? sofar ps) :
    b.2 <:+: sofar ++ ps := by
  have hgrow : ∀ {sofar ps : List (Piece P)} {q : Piece P}, b.2 <:+: (sofar ++ [q]) ++ ps →
      b.2 <:+: sofar ++ q :: ps := by
    intro sofar ps q h
    rwa [List.append_assoc, List.singleton_append] at h
  fun_induction branches d depth condition? sofar ps with
  | case1 depth condition? sofar =>
    obtain rfl := List.mem_singleton.mp h
    exact (List.prefix_append sofar []).isInfix
  | case2 depth condition? sofar p ps ih => exact hgrow (ih h)
  | case3 condition? sofar body ps next? hr ih =>
    rcases List.mem_cons.mp h with rfl | h
    · exact (List.prefix_append sofar _).isInfix
    · have hrest : ps <:+ sofar ++ .tag body :: ps := ⟨sofar ++ [.tag body], by simp⟩
      exact (ih h).trans hrest.isInfix
  | case4 condition? sofar body ps condition depth hr ih => exact hgrow (ih h)
  | case5 condition? sofar body ps depth hr ih => exact hgrow (ih h)
  | case6 condition? sofar body ps next? depth hr ih => exact hgrow (ih h)
  | case7 condition? sofar body ps depth hr ih => exact hgrow (ih h)

/-- What has been read of a branch and what follows, where some inner conditionals are open. -/
structure Midway (d : Delimiters) (depth : Nat) (sofar ps : List (Piece P)) : Prop where
  /-- Nothing has been closed that was not open. -/
  held : Held d 0 sofar
  /-- That many are open. -/
  opened_eq : opened d sofar = closed d sofar + depth
  /-- Nothing else is closed. -/
  held_rest : Held d depth ps
  /-- They are all closed. -/
  closed_eq : closed d ps = opened d ps + depth

theorem Midway.step {q : Piece P} {depth' : Nat} (h : Midway d depth sofar (q :: ps))
    (hq : closed d [q] + depth' = opened d [q] + depth) : Midway d depth' (sofar ++ [q]) ps := by
  have hopen := h.opened_eq
  have hclose := h.closed_eq
  rw [← List.singleton_append, closed_append, opened_append] at hclose
  refine ⟨h.held.concat ?_, ?_, h.held_rest.tail (Nat.le_of_eq hq.symm), ?_⟩
  · rw [closed_append, opened_append]
    omega
  · rw [closed_append, opened_append]
    omega
  · omega

/-- In every branch of a conditional, every inner conditional that is opened is closed. -/
theorem even_of_mem_branches (h : b ∈ branches d depth condition? sofar ps)
    (hmid : Midway d depth sofar ps) : Even d b.2 := by
  fun_induction branches d depth condition? sofar ps with
  | case1 depth condition? sofar =>
    obtain rfl := List.mem_singleton.mp h
    obtain rfl : depth = 0 := by simpa using hmid.closed_eq.symm
    exact ⟨hmid.held, hmid.opened_eq.symm⟩
  | case2 depth condition? sofar p ps ih => exact ih h (hmid.step (by simp))
  | case3 condition? sofar body ps next? hr ih =>
    have hrest : Midway d 0 (sofar ++ [.tag body]) ps := hmid.step (by
      simp [opensChoice_eq hr, closesChoice_eq hr, Conditional.isOpening, Conditional.isClosing])
    rcases List.mem_cons.mp h with rfl | h
    · exact ⟨hmid.held, hmid.opened_eq.symm⟩
    · exact ih h ⟨held_nil, rfl, hrest.held_rest, hrest.closed_eq⟩
  | case4 condition? sofar body ps condition depth hr ih =>
    refine ih h (hmid.step ?_)
    simp [opensChoice_eq hr, closesChoice_eq hr, Conditional.isOpening, Conditional.isClosing,
      Nat.add_comm]
  | case5 condition? sofar body ps depth hr ih =>
    -- a conditional is open here
    have hpos := hmid.held_rest [.tag body] ps rfl
    refine ih h (hmid.step ?_)
    simp [opensChoice_eq hr, closesChoice_eq hr, Conditional.isOpening, Conditional.isClosing]
      at hpos ⊢
    omega
  | case6 condition? sofar body ps next? depth hr ih =>
    refine ih h (hmid.step ?_)
    simp [opensChoice_eq hr, closesChoice_eq hr, Conditional.isOpening, Conditional.isClosing]
  | case7 condition? sofar body ps depth hr ih =>
    exact ih h (hmid.step (by simp [opensChoice, closesChoice, hr]))

end

/-! ## What is left of an outline -/

/-- What is left of an outline when its conditionals have been resolved. -/
structure Leaves (d : Delimiters) (ps qs : List (Piece P)) : Prop where
  /-- As many tags are left that open, beyond those that close, as there were. -/
  balance : opened d qs + closed d ps = closed d qs + opened d ps
  /-- At most as many are left that close as could have been open in front. -/
  closed_le : ∀ depth, Held d depth ps → closed d qs ≤ depth
  /-- No tag that opens is left in front of one that closes. -/
  late : (signs d qs).Pairwise fun a b => a.1 = true → b.2 = false

namespace Leaves

variable {ps qs inside inner : List (Piece P)} {front back body : Text}

theorem nil : Leaves (P := P) d [] [] := ⟨rfl, fun _ _ => Nat.zero_le _, .nil⟩

theorem plain (p : P) (h : Leaves d ps qs) : Leaves d (.plain p :: ps) (.plain p :: qs) where
  balance := h.balance
  closed_le depth hheld := h.closed_le depth (hheld.tail (by simp))
  late := h.late

/-- Of an outline in which everything that is opened is closed, no such tag is left. -/
theorem of_even (h : Leaves d ps qs) (heven : Even d ps) : opened d qs = 0 ∧ closed d qs = 0 := by
  have hbalance := h.balance
  have hclosed := h.closed_le 0 heven.held
  rw [heven.closed_eq] at hbalance
  omega

theorem signs_of_closed_eq_zero (h : closed d qs = 0) : ∀ b ∈ signs d qs, b.2 = false := by
  intro b hb
  have := List.countP_eq_zero.mp h b hb
  simpa using this

theorem signs_of_opened_eq_zero (h : opened d qs = 0) : ∀ a ∈ signs d qs, a.1 = false := by
  intro a ha
  have := List.countP_eq_zero.mp h a ha
  simpa using this

/-- A tag that opens no conditional is left; if it does open one, nothing behind it may close it. -/
theorem tag (h : Leaves d ps qs) (hexcl : opensChoice d body = true → closesChoice d body = false)
    (hopen : opensChoice d body = true → Held d 0 ps) :
    Leaves d (.tag body :: ps) (.tag body :: qs) where
  balance := by
    have := h.balance
    simp only [opened_tag, closed_tag]
    omega
  closed_le depth hheld := by
    rw [closed_tag]
    cases ho : opensChoice d body with
    | true =>
      have := h.closed_le 0 (hopen ho)
      rw [hexcl ho]
      exact Nat.le_trans this (Nat.zero_le depth)
    | false =>
      have hfirst := hheld [.tag body] ps rfl
      simp only [closed_tag, opened_tag, closed_nil, opened_nil, ho, Bool.toNat_false, Nat.zero_add]
        at hfirst
      have hrest := h.closed_le (depth - (closesChoice d body).toNat)
          (hheld.tail (by simp [ho]; omega))
      omega
  late := by
    refine .cons (fun b hb ho => ?_) h.late
    exact signs_of_closed_eq_zero (Nat.le_zero.mp (h.closed_le 0 (hopen ho))) b hb

/-- A pair takes with it all that it encloses. -/
theorem pair (h : Leaves d ps qs)
    (hfront : opensChoice d front = true ∧ closesChoice d front = false)
    (hback : opensChoice d back = false ∧ closesChoice d back = true)
    (hinside : closed d inside = opened d inside)
    (hinner : opened d inner = 0 ∧ closed d inner = 0) :
    Leaves d (.tag front :: (inside ++ .tag back :: ps)) (inner ++ qs) where
  balance := by
    have := h.balance
    simp only [opened_tag, closed_tag, opened_append, closed_append, hfront, hback, hinside, hinner,
      Bool.toNat_true, Bool.toNat_false]
    omega
  closed_le depth hheld := by
    rw [closed_append, hinner.2, Nat.zero_add]
    refine h.closed_le depth fun pre post heq => ?_
    have hpre := hheld (.tag front :: (inside ++ .tag back :: pre)) post (by simp [heq])
    simp only [opened_tag, closed_tag, opened_append, closed_append, hfront, hback, hinside,
      Bool.toNat_true, Bool.toNat_false] at hpre
    omega
  late := by
    rw [signs_append]
    have hnone : ∀ a ∈ signs d inner, ¬ a.1 = true := fun a ha => by
      rw [signs_of_opened_eq_zero hinner.1 a ha]
      exact Bool.false_ne_true
    refine List.pairwise_append.mpr ⟨?_, h.late, fun a ha b _ ho => absurd ho (hnone a ha)⟩
    exact List.pairwise_of_forall_mem_list fun a ha b _ ho => absurd ho (hnone a ha)

end Leaves

/-! ## Texts whose tags are all of conditionals -/

section

variable {body : Text} {q : Piece Text} {ps qs : List (Piece Text)}

/-- A piece on its own: a stretch in which no tag starts, or a tag of a conditional in which no
other starts. -/
def Lone (d : Delimiters) : Piece Text → Prop
  | .plain p => d.Plain p
  | .tag body => d.Plain (d.enclose body).tail ∧
      ∃ c, d.conditionalTag (d.enclose body) = some (d.enclose body, c)

/-- Pieces each of which is fine on its own. -/
def Loose (d : Delimiters) (ps : List (Piece Text)) : Prop := ∀ q ∈ ps, Lone d q

/-- Pieces whose tags are read where they stand, in front of the pieces behind. -/
def Laid (d : Delimiters) : List (Piece Text) → Prop
  | [] => True
  | .plain p :: ps => d.Plain p ∧ Laid d ps
  | .tag body :: ps => d.Plain (d.enclose body).tail ∧
      (∃ c, d.conditionalTag (d.enclose body ++ write d id ps) = some (d.enclose body, c)) ∧
      Laid d ps

theorem Laid.loose (h : Laid d ps) : Loose d ps := by
  induction ps with
  | nil => exact fun q hq => absurd hq (by simp)
  | cons q ps ih =>
    cases q with
    | plain p => exact List.forall_mem_cons.mpr ⟨h.1, ih h.2⟩
    | tag body =>
      obtain ⟨hplain, ⟨c, hc⟩, hrest⟩ := h
      have hself := d.steady_conditionalTag.reads (List.prefix_append _ _) hc (Nat.le_refl _)
      exact List.forall_mem_cons.mpr ⟨⟨hplain, c, hself⟩, ih hrest⟩

theorem Laid.of_append_right (h : Laid d (ps ++ qs)) : Laid d qs := by
  induction ps with
  | nil => exact h
  | cons q ps ih =>
    cases q with
    | plain p => exact ih h.2
    | tag body => exact ih h.2.2

/-- Cutting a text off in front of a piece does not change how its tags are read. -/
theorem Laid.of_append_left (h : Laid d (ps ++ qs)) : Laid d ps := by
  induction ps with
  | nil => trivial
  | cons q ps ih =>
    cases q with
    | plain p => exact ⟨h.1, ih h.2⟩
    | tag body =>
      obtain ⟨hplain, ⟨c, hc⟩, hrest⟩ := h
      refine ⟨hplain, ⟨c, ?_⟩, ih hrest⟩
      have hwrite : write d id (ps.append qs) = write d id ps ++ write d id qs :=
        write_append d id ps qs
      refine d.steady_conditionalTag.reads ?_ hc (by simp)
      rw [hwrite, ← List.append_assoc]
      exact List.prefix_append _ _

theorem Laid.of_isInfix (h : Laid d qs) (hps : ps <:+: qs) : Laid d ps := by
  obtain ⟨front, back, rfl⟩ := hps
  rw [List.append_assoc] at h
  exact h.of_append_right.of_append_left

theorem reading_of_whole {c : Conditional}
    (h : d.conditionalTag (d.enclose body) = some (d.enclose body, c)) :
    reading d d.conditionalTag body = some c := by
  rw [reading, h]
  rfl

theorem left_prefix_of_conditionalTag {s : Text} {x : Text × Conditional}
    (h : d.conditionalTag s = some x) : d.left <+: s := by
  obtain ⟨t, l, rfl, -, -⟩ := literal_eq_some.mp (show d.conditionalTag s = some (x.1, x.2) from h)
  exact List.prefix_append _ _

/-- A scan finds the tags that are laid. -/
theorem Laid.scanFrom_eq (h : Laid d ps) (pos : Nat) :
    Tag.scanFrom d.conditionalTag pos 0 (write d id ps) =
      locate d id (tagAt d d.conditionalTag) pos ps := by
  induction ps generalizing pos with
  | nil => rfl
  | cons q ps ih =>
    rw [write_cons]
    cases q with
    | plain p =>
      have hpass := scanFrom_plain (fun h => left_prefix_of_conditionalTag h) h.1
          (write d id ps) pos
      exact hpass.trans (ih h.2 _)
    | tag body =>
      obtain ⟨-, ⟨c, hc⟩, hrest⟩ := h
      have hself := d.steady_conditionalTag.reads (List.prefix_append _ _) hc (Nat.le_refl _)
      rw [Piece.text, scanFrom_tag (d.enclose_ne_nil body) hc, ih hrest, locate, tagAt,
        reading_of_whole hself]
      rfl

/-- A text in which tags start only where a scan finds some is laid out by them. -/
theorem exists_laid {s : Text} {pos : Nat} (h : ∀ i, s[i]? = some d.mark →
      ∃ t ∈ Tag.scanFrom d.conditionalTag pos 0 s, t.start = pos + i) :
    ∃ ps, s = write d id ps ∧ Laid d ps := by
  induction hn : s.length using Nat.strongRecOn generalizing s pos with
  | ind n ih =>
    cases s with
    | nil => exact ⟨[], rfl, trivial⟩
    | cons c s =>
      cases hr : d.conditionalTag (c :: s) with
      | none =>
        rw [Tag.scanFrom, hr] at h
        have hc : c ≠ d.mark := by
          rintro rfl
          obtain ⟨t, ht, hstart⟩ := h 0 rfl
          have := Tag.le_start_of_mem_scanFrom ht
          omega
        have hrest : ∀ i, s[i]? = some d.mark →
            ∃ t ∈ Tag.scanFrom d.conditionalTag (pos + 1) 0 s, t.start = pos + 1 + i := by
          intro i hi
          obtain ⟨t, ht, hstart⟩ := h (i + 1) hi
          exact ⟨t, ht, by omega⟩
        obtain ⟨ps, rfl, hps⟩ := ih _ (by simp [← hn]) hrest rfl
        exact ⟨.plain [c] :: ps, rfl, by simpa [Delimiters.Plain] using hc.symm, hps⟩
      | some x =>
        obtain ⟨lexeme, content⟩ := x
        obtain ⟨body, rest, rfl, heq⟩ := d.encloses_conditionalTag _ _ _ hr
        rw [heq] at hr h hn ⊢
        have hpos := List.length_pos_iff.mpr (d.enclose_ne_nil body)
        rw [scanFrom_tag (d.enclose_ne_nil body) hr] at h
        rw [List.length_append] at hn
        -- no other tag starts inside the tag, and those behind start behind it
        have hplain : d.Plain (d.enclose body).tail := by
          intro hmem
          obtain ⟨i, hi, hmark⟩ := List.getElem_of_mem hmem
          rw [List.length_tail] at hi
          rw [List.getElem_tail] at hmark
          have hat : (d.enclose body ++ rest)[i + 1]? = some d.mark := by
            rw [List.getElem?_append_left (by omega), List.getElem?_eq_getElem (by omega), hmark]
          obtain ⟨t, ht, hstart⟩ := h (i + 1) hat
          rcases List.mem_cons.mp ht with rfl | ht
          · dsimp only at hstart
            omega
          · have := Tag.le_start_of_mem_scanFrom ht
            omega
        have hrest : ∀ i, rest[i]? = some d.mark → ∃ t ∈ Tag.scanFrom d.conditionalTag
            (pos + (d.enclose body).length) 0 rest, t.start =
              pos + (d.enclose body).length + i := by
          intro i hi
          have hat : (d.enclose body ++ rest)[(d.enclose body).length + i]? = some d.mark := by
            rw [List.getElem?_append_right (Nat.le_add_right _ _), Nat.add_sub_cancel_left, hi]
          obtain ⟨t, ht, hstart⟩ := h _ hat
          rcases List.mem_cons.mp ht with rfl | ht
          · dsimp only at hstart
            omega
          · exact ⟨t, ht, by omega⟩
        obtain ⟨ps, rfl, hps⟩ := ih rest.length (by omega) hrest rfl
        exact ⟨.tag body :: ps, rfl, hplain, ⟨content, hr⟩, hps⟩

/-! ## Scanning loose pieces -/

theorem Loose.tail (h : Loose d (q :: ps)) : Loose d ps := (List.forall_mem_cons.mp h).2

theorem Loose.append (hps : Loose d ps) (hqs : Loose d qs) : Loose d (ps ++ qs) :=
  List.forall_mem_append.mpr ⟨hps, hqs⟩

/-- What is behind some characters of loose pieces is loose. -/
theorem Loose.drop (h : Loose d ps) (n : Nat) :
    ∃ qs, (write d id ps).drop n = write d id qs ∧ Loose d qs ∧
    (signs d qs).Sublist (signs d ps) := by
  induction ps generalizing n with
  | nil => exact ⟨[], by simp, h, .refl _⟩
  | cons q ps ih =>
    rw [write_cons, List.drop_append]
    obtain ⟨hq, hps⟩ := List.forall_mem_cons.mp h
    obtain ⟨qs, hqs, hloose, hsub⟩ := ih hps (n - (q.text d id).length)
    rw [hqs]
    cases q with
    | plain p =>
      have hcut : d.Plain (p.drop n) := fun hm => hq (List.mem_of_mem_drop hm)
      exact ⟨.plain (p.drop n) :: qs, rfl, List.forall_mem_cons.mpr ⟨hcut, hloose⟩, hsub⟩
    | tag body =>
      cases n with
      | zero =>
        refine ⟨.tag body :: qs, rfl, List.forall_mem_cons.mpr ⟨hq, hloose⟩, ?_⟩
        exact hsub.cons_cons _
      | succ n =>
        -- the rest of a tag holds no start of a tag
        have hcut : d.Plain ((d.enclose body).drop (n + 1)) := by
          rw [← List.drop_tail]
          exact fun hm => hq.1 (List.mem_of_mem_drop hm)
        exact ⟨.plain ((d.enclose body).drop (n + 1)) :: qs, rfl,
          List.forall_mem_cons.mpr ⟨hcut, hloose⟩, hsub.cons _⟩

/-- A scan of loose pieces finds tags of the kinds that are there, in their order. -/
theorem Loose.signs_scanFrom {n : Nat} (h : Loose d ps) (hn : (write d id ps).length ≤ n)
    (pos : Nat) :
    ((Tag.scanFrom d.conditionalTag pos 0 (write d id ps)).map (·.content.sign)).Sublist
      (signs d ps) := by
  -- behind a tag that is found the text is shorter; where none is found, there is a piece less
  induction n generalizing ps pos with
  | zero =>
    rw [List.eq_nil_of_length_eq_zero (Nat.le_zero.mp hn)]
    exact List.nil_sublist _
  | succ n ih =>
    induction ps generalizing pos with
    | nil => exact .refl _
    | cons q ps ihps =>
      obtain ⟨hq, hps⟩ := List.forall_mem_cons.mp h
      rw [write_cons, List.length_append] at hn
      rw [write_cons]
      have hrest := ihps hps (by omega)
      cases q with
      | plain p =>
        have hpass := scanFrom_plain (fun h => left_prefix_of_conditionalTag h) hq
            (write d id ps) pos
        rw [Piece.text, id, hpass]
        exact hrest _
      | tag body =>
        obtain ⟨hplain, c, hc⟩ := hq
        have hsign : signs d (.tag body :: ps) = c.sign :: signs d ps := by
          have hr := reading_of_whole hc
          rw [signs_tag, opensChoice_eq hr, closesChoice_eq hr]
          rfl
        rw [hsign, Piece.text]
        obtain ⟨x, u, hxu⟩ := List.exists_cons_of_ne_nil (d.enclose_ne_nil body)
        replace hplain : d.Plain u := by simpa [hxu] using hplain
        cases hr : d.conditionalTag (d.enclose body ++ write d id ps) with
        | none =>
          rw [hxu, List.cons_append] at hr ⊢
          have hpass := scanFrom_plain (fun h => left_prefix_of_conditionalTag h) hplain
            (write d id ps) (pos + 1)
          rw [Tag.scanFrom, hr]
          dsimp only
          rw [hpass]
          exact (hrest _).cons _
        | some y =>
          obtain ⟨lexeme, c'⟩ := y
          have hkind := Delimiters.sign_eq_of_append hc hr
          obtain ⟨b, back, rfl, heq⟩ := d.encloses_conditionalTag _ _ _ hr
          have hpos := List.length_pos_iff.mpr (d.enclose_ne_nil b)
          have hlen := congrArg List.length heq
          simp only [List.length_append] at hlen
          rw [heq] at hr ⊢
          -- what is behind the tag that is found begins inside this tag, or behind it
          have hback : back = (write d id (.plain u :: ps)).drop ((d.enclose b).length - 1) := by
            have hdrop := congrArg (List.drop (d.enclose b).length) heq
            rw [List.drop_left, hxu, List.cons_append] at hdrop
            rw [← hdrop, show (d.enclose b).length = (d.enclose b).length - 1 + 1 by omega,
              List.drop_succ_cons]
            rfl
          obtain ⟨qs, hqs, hloose, hsub⟩ := Loose.drop
            (List.forall_mem_cons.mpr ⟨hplain, hps⟩ : Loose d (.plain u :: ps))
            ((d.enclose b).length - 1)
          rw [← hback] at hqs
          rw [scanFrom_tag (d.enclose_ne_nil b) hr, List.map_cons, hkind, hqs]
          refine ((ih hloose ?_ _).trans hsub).cons_cons _
          rw [← hqs]
          simp only [Piece.text] at hn
          omega

/-- No conditional is closed if no tag that opens one stands in front of a tag that closes one. -/
theorem unclosed_of_pairwise {ts : List (Tag Conditional)}
    (h : (ts.map (·.content.sign)).Pairwise fun a b => a.1 = true → b.2 = false) :
    Choice.Unclosed ts := by
  rintro ⟨i, hi⟩ ho ⟨⟨j, hj⟩, hc, -⟩
  rw [List.pairwise_map, List.pairwise_iff_getElem] at h
  have hrest : j < ts.length - (i + 1) := by simpa using hj
  have hlt : i + 1 + j < ts.length := by omega
  have hlate : ts[i + 1 + j].content.isClosing = false := h i (i + 1 + j) hi hlt (by omega) ho
  have hclosing : ts[i + 1 + j].content.isClosing = true := by
    simpa only [Fin.getElem_fin, List.getElem_drop] using hc
  exact absurd hclosing (by simp [hlate])

end

/-! ## Resolving twice -/

section

variable {ps : List (Piece Text)}

/-- A text without tags that open or close a conditional. -/
def Emptied (d : Delimiters) (s : Text) : Prop :=
  ∃ ps, s = write d id ps ∧ Loose d ps ∧ opened d ps = 0 ∧ closed d ps = 0

/-- What is left of a text whose tags are all of conditionals, if what takes the place of
conditionals has none. -/
theorem exists_leaves {f : Text → List (Piece Text) → Text} (hps : Laid d ps)
    (hf : ∀ condition inside, inside <:+: ps → inside.length < ps.length → Even d inside →
      Emptied d (f condition inside)) :
    ∃ qs, (segments (choicePairing d) ps).flatMap (replaced d id f) = write d id qs ∧ Loose d qs ∧
      Leaves d ps qs := by
  -- what is said of stretches of the pieces is said of stretches of the rest
  have hrest : ∀ {ps qs : List (Piece Text)}, (∀ condition inside, inside <:+: ps →
        inside.length < ps.length → Even d inside → Emptied d (f condition inside)) → qs <:+ ps →
      ∀ condition inside, inside <:+: qs → inside.length < qs.length → Even d inside →
        Emptied d (f condition inside) := by
    intro ps qs hf hqs condition inside hinside hlt
    exact hf condition inside (hinside.trans hqs.isInfix) (Nat.lt_of_lt_of_le hlt hqs.length_le)
  fun_induction segments (choicePairing d) ps with
  | case1 => exact ⟨[], rfl, hps.loose, .nil⟩
  | case2 p ps ih =>
    obtain ⟨qs, hqs, hloose, hleaves⟩ := ih hps.2 (hrest hf (List.suffix_cons _ _))
    refine ⟨.plain p :: qs, ?_, List.forall_mem_cons.mpr ⟨hps.1, hloose⟩, hleaves.plain p⟩
    rw [List.flatMap_cons, hqs, write_cons]
    rfl
  | case3 body ps hn ih =>
    obtain ⟨hplain, c, hc⟩ := hps.loose (.tag body) (by simp)
    have hr := reading_of_whole hc
    obtain ⟨qs, hqs, hloose, hleaves⟩ := ih hps.2.2 (hrest hf (List.suffix_cons _ _))
    refine ⟨.tag body :: qs, ?_, List.forall_mem_cons.mpr ⟨⟨hplain, c, hc⟩, hloose⟩,
      hleaves.tag (fun ho => ?_) fun ho => ?_⟩
    · rw [List.flatMap_cons, hqs, write_cons]
      rfl
    · rw [opensChoice_eq hr] at ho
      rw [closesChoice_eq hr]
      exact Conditional.isClosing_of_isOpening ho
    · rw [opensChoice_eq hr] at ho
      obtain ⟨condition, rfl⟩ := Conditional.exists_of_isOpening ho
      rw [pairFrom_choice hr, Option.map_eq_none_iff] at hn
      exact held_of_splitClose hn
  | case4 body ps condition inside back rest hsome hlt ih =>
    obtain ⟨hr, hsplit⟩ := reading_of_pairFrom hsome
    obtain ⟨rfl, hback⟩ := splitClose_eq_some hsplit
    obtain ⟨hheld, heven⟩ := held_inside hsplit
    have hpart : inside <:+: .tag body :: (inside ++ .tag back :: rest) :=
      ⟨[.tag body], .tag back :: rest, by simp⟩
    have hsuffix : rest <:+ .tag body :: (inside ++ .tag back :: rest) :=
      ⟨.tag body :: (inside ++ [.tag back]), by simp⟩
    have hlength : inside.length < (.tag body :: (inside ++ .tag back :: rest)).length := by
      rw [List.length_cons, List.length_append]
      omega
    obtain ⟨inner, hinner, hloose, hopened, hclosed⟩ :=
      hf condition inside hpart hlength ⟨hheld, heven⟩
    obtain ⟨qs, hqs, hloose', hleaves⟩ := ih (hps.of_isInfix hsuffix.isInfix) (hrest hf hsuffix)
    refine ⟨inner ++ qs, ?_, hloose.append hloose', ?_⟩
    · rw [List.flatMap_cons, hqs, write_append, ← hinner]
      rfl
    · have hsigns : opensChoice d back = false ∧ closesChoice d back = true :=
        ⟨opensChoice_of_closesChoice hback, hback⟩
      exact hleaves.pair (by simp [opensChoice_eq hr, closesChoice_eq hr, Conditional.isOpening,
        Conditional.isClosing]) hsigns heven ⟨hopened, hclosed⟩

/-- Resolving the conditionals of a text whose tags are all of conditionals leaves some of them. -/
theorem exists_resolved (ctx : Context) (hps : Laid d ps) :
    ∃ qs, resolveConditionals d ctx (write d id ps) = write d id qs ∧ Loose d qs ∧
    Leaves d ps qs := by
  induction hn : ps.length using Nat.strongRecOn generalizing ps with
  | ind n ih =>
    rw [resolveConditionals_of_scan ctx (hps.scanFrom_eq 0)]
    refine exists_leaves hps fun condition inside hinside hlt heven => ?_
    cases hs : survivor ctx (branches d 0 (some condition) [] inside) with
    | none => exact ⟨[], rfl, fun q hq => absurd hq (by simp), rfl, rfl⟩
    | some branch =>
      obtain ⟨condition?, hbranch⟩ := survivor_mem hs
      have hpart : branch <:+: inside := isInfix_of_mem_branches hbranch
      have hmid : Midway d 0 [] inside := ⟨held_nil, rfl, heven.held, heven.closed_eq⟩
      have hlength : branch.length < n := by
        rw [← hn]
        exact Nat.lt_of_le_of_lt hpart.length_le hlt
      obtain ⟨qs, hqs, hloose, hleaves⟩ := ih _ hlength (hps.of_isInfix (hpart.trans hinside)) rfl
      obtain ⟨hopened, hclosed⟩ := hleaves.of_even (even_of_mem_branches hbranch hmid)
      exact ⟨qs, hqs, hloose, hopened, hclosed⟩

end

end Outline

open Outline

/-- If the character that tags start with stands in a text only where tags of conditionals start,
then resolving its conditionals leaves none: no tag that opens one is closed any more, and resolving
them again, in whatever context, changes nothing. -/
theorem resolveConditionals_twice {d : Delimiters} {s : Text}
    (hs : ∀ i, s[i]? = some d.mark → ∃ t ∈ Tag.scan d.conditionalTag s, t.start = i)
    (ctx ctx' : Context) :
    resolveConditionals d ctx' (resolveConditionals d ctx s) = resolveConditionals d ctx s ∧
      Choice.Unclosed (Tag.scan d.conditionalTag (resolveConditionals d ctx s)) := by
  have hfront : ∀ i, s[i]? = some d.mark → ∃ t ∈ Tag.scan d.conditionalTag s, t.start = 0 + i :=
    fun i hi => by
    rw [Nat.zero_add]
    exact hs i hi
  obtain ⟨ps, rfl, hps⟩ := exists_laid hfront
  obtain ⟨qs, hqs, hloose, hleaves⟩ := exists_resolved ctx hps
  have hunclosed : Choice.Unclosed (Tag.scan d.conditionalTag (write d id qs)) :=
    unclosed_of_pairwise (hleaves.late.sublist (hloose.signs_scanFrom (Nat.le_refl _) 0))
  rw [hqs]
  exact ⟨resolveConditionals_unclosed hunclosed ctx', hunclosed⟩

theorem resolveConditionals_twice_unbalanced :
    let d := Delimiters.braces
    let s := "\x7bendif\x7da\x7bif x\x7db\x7bif y\x7dc\x7belse\x7de\x7bendif\x7d\x7belse\x7d".toList
    (∀ i, s[i]? = some d.mark → ∃ t ∈ Tag.scan d.conditionalTag s, t.start = i) ∧
      resolveConditionals d [] s = "\x7bendif\x7da\x7bif x\x7dbe\x7belse\x7d".toList ∧
      resolveConditionals d [("x", .bool true)] (resolveConditionals d [] s) =
        resolveConditionals d [] s ∧
      Choice.Unclosed (Tag.scan d.conditionalTag (resolveConditionals d [] s)) := by
  intro d s
  have hall : ∀ i < s.length, s[i]? = some d.mark →
      ∃ t ∈ Tag.scan d.conditionalTag s, t.start = i := by decide +kernel
  have hs : ∀ i, s[i]? = some d.mark → ∃ t ∈ Tag.scan d.conditionalTag s, t.start = i := fun i hi =>
    hall i (List.getElem?_eq_some_iff.mp hi).1 hi
  exact ⟨hs, by decide +kernel, resolveConditionals_twice hs [] [("x", .bool true)]⟩

/-- With a left delimiter of two characters it is not enough that the delimiter stands only where
tags of conditionals start. A character in front of a conditional and the rest of a tag inside it
can meet: the tag that they make is closed by one that was left. -/
theorem resolveConditionals_twice_ne :
    let d : Delimiters := ⟨"<%".toList, "%>".toList, by decide, by decide⟩
    let s := "<<%if true%>%if x%><%endif%><%endif%>".toList
    (∀ i, d.left <+: s.drop i → ∃ t ∈ Tag.scan d.conditionalTag s, t.start = i) ∧
      resolveConditionals d [] s = "<%if x%><%endif%>".toList ∧
      resolveConditionals d [] (resolveConditionals d [] s) = [] := by
  intro d s
  have hall : ∀ i < s.length, d.left <+: s.drop i →
      ∃ t ∈ Tag.scan d.conditionalTag s, t.start = i := by decide +kernel
  refine ⟨fun i hi => ?_, by decide +kernel, by decide +kernel⟩
  refine hall i (Nat.lt_of_not_le fun hle => ?_) hi
  rw [List.drop_of_length_le hle] at hi
  exact absurd (List.prefix_nil.mp hi) d.left_ne_nil

end Stencil
