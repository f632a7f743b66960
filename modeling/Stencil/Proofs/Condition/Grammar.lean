import Stencil.Condition.Reader

/-!
# The grammar of conditions

The grammar says which tokens form a condition, and which tree they form:

* a disjunction is a conjunction and any number of further ones, each behind an `or`;
* a conjunction is a comparison and any number of further ones, each behind an `and`;
* a comparison is one operand, or two with a comparison operator between them;
* an operand is a negated operand or a primary one: a literal, a path, or a disjunction in
  parentheses.

Rows group to the left. Reading accepts exactly what the grammar derives. On the way there, a part
is read off the front of any tokens that do not go on with it, and whatever is read off the front
is derived; how much fuel there is does not matter once it is enough for the number of tokens.
-/

namespace Stencil.Condition

/-! ## Derivations -/

/-- The levels of the grammar, from the loosest to the tightest. -/
inductive Level where
  /-- Conjunctions with `or` between them. -/
  | disjunction
  /-- Comparisons with `and` between them. -/
  | conjunction
  /-- One operand, or two that are compared. -/
  | comparison
  /-- An operand, negated or not. -/
  | operand
  /-- An operand that is not negated. -/
  | primary

/-- The tokens of a row behind its first member: every further one, with a separator in front. -/
def row (separator : Token) (more : List (List Token × Expr)) : List Token :=
  more.flatMap fun x => separator :: x.1

/-- The tree of a row, grouped to the left. -/
def grouped (node : Expr → Expr → Expr) (first : Expr) (more : List (List Token × Expr)) : Expr :=
  more.foldl (fun left x => node left x.2) first

/-- Some tokens are a part of a condition, and form a tree. -/
inductive Derives : Level → List Token → Expr → Prop where
  /-- A literal. -/
  | literal (v : Value) : Derives .primary [.literal v] (.literal v)
  /-- A path. -/
  | path (p : Text) : Derives .primary [.path p] (.path p)
  /-- A disjunction in parentheses. -/
  | group {ts : List Token} {e : Expr} (inner : Derives .disjunction ts e) :
    Derives .primary (.opening :: (ts ++ [.closing])) e
  /-- A negated operand. -/
  | not {ts : List Token} {e : Expr} (inner : Derives .operand ts e) :
    Derives .operand (.not :: ts) (.not e)
  /-- A primary operand. -/
  | primary {ts : List Token} {e : Expr} (inner : Derives .primary ts e) : Derives .operand ts e
  /-- A lone operand. -/
  | operand {ts : List Token} {e : Expr} (inner : Derives .operand ts e) : Derives .comparison ts e
  /-- Two operands that are compared. -/
  | compare {ts us : List Token} {l r : Expr} (op : Comparison) (left : Derives .operand ts l)
    (right : Derives .operand us r) : Derives .comparison (ts ++ .cmp op :: us) (.compare l op r)
  /-- A row of comparisons. -/
  | conjunction {ts : List Token} {e : Expr} {more : List (List Token × Expr)}
    (first : Derives .comparison ts e) (others : ∀ x ∈ more, Derives .comparison x.1 x.2) :
    Derives .conjunction (ts ++ row .and more) (grouped .and e more)
  /-- A row of conjunctions. -/
  | disjunction {ts : List Token} {e : Expr} {more : List (List Token × Expr)}
    (first : Derives .conjunction ts e) (others : ∀ x ∈ more, Derives .conjunction x.1 x.2) :
    Derives .disjunction (ts ++ row .or more) (grouped .or e more)

variable {level : Level} {ts us rest : List Token} {e left : Expr} {fuel fuel' : Nat}
  {more : List (List Token × Expr)}

@[simp]
theorem row_nil (separator : Token) : row separator [] = [] := rfl

@[simp]
theorem row_cons (separator : Token) (x : List Token × Expr) (more : List (List Token × Expr)) :
    row separator (x :: more) = separator :: (x.1 ++ row separator more) := by
  simp [row]

@[simp]
theorem grouped_nil (node : Expr → Expr → Expr) (first : Expr) : grouped node first [] = first :=
  rfl

@[simp]
theorem grouped_cons (node : Expr → Expr → Expr) (first : Expr) (x : List Token × Expr)
    (more : List (List Token × Expr)) :
    grouped node first (x :: more) = grouped node (node first x.2) more := rfl

theorem Derives.ne_nil (h : Derives level ts e) : ts ≠ [] := by
  induction h with
  | literal v => simp
  | path p => simp
  | group _ _ => simp
  | not _ _ => simp
  | primary _ ih => exact ih
  | operand _ ih => exact ih
  | compare _ _ _ _ _ => simp
  | conjunction _ _ ih _ => simp [ih]
  | disjunction _ _ ih _ => simp [ih]

/-! ## What is derived is read -/

/-- Reads a part off the front of some tokens. -/
def Level.read : Level → (fuel : Nat) → List Token → Read
  | .disjunction => readOr
  | .conjunction => readAnd
  | .comparison => readComparison
  | .operand => readOperand
  | .primary => readOperand

/-- How many levels are below one. -/
def Level.height : Level → Nat
  | .disjunction => 3
  | .conjunction => 2
  | .comparison => 1
  | .operand => 0
  | .primary => 0

/-- Tokens that do not go on with a comparison. -/
def EndsComparison (ts : List Token) : Prop := ∀ op us, ts ≠ .cmp op :: us

/-- Tokens that do not go on with a conjunction. -/
def EndsConjunction (ts : List Token) : Prop := EndsComparison ts ∧ ∀ us, ts ≠ .and :: us

/-- Tokens that do not go on with a disjunction. -/
def EndsDisjunction (ts : List Token) : Prop := EndsConjunction ts ∧ ∀ us, ts ≠ .or :: us

/-- Tokens that do not go on with a part. -/
def Level.Ends : Level → List Token → Prop
  | .disjunction => EndsDisjunction
  | .conjunction => EndsConjunction
  | .comparison => EndsComparison
  | .operand => fun _ => True
  | .primary => fun _ => True

theorem endsComparison_row {separator : Token} (hs : ∀ op, separator ≠ .cmp op)
    (h : EndsComparison rest) (more : List (List Token × Expr)) :
    EndsComparison (row separator more ++ rest) := by
  intro op us
  cases more with
  | nil => exact h op us
  | cons x more => simp [hs op]

theorem endsConjunction_row (h : EndsConjunction rest) (more : List (List Token × Expr)) :
    EndsConjunction (row .or more ++ rest) := by
  refine ⟨endsComparison_row (by simp) h.1 more, fun us => ?_⟩
  cases more with
  | nil => exact h.2 us
  | cons x more => simp

theorem endsDisjunction_closing (ts : List Token) : EndsDisjunction (.closing :: ts) := by
  simp [EndsDisjunction, EndsConjunction, EndsComparison]

theorem endsDisjunction_nil : EndsDisjunction [] := by
  simp [EndsDisjunction, EndsConjunction, EndsComparison]

/-- A row ends where no separator follows. -/
theorem readAndRest_ends (h : ∀ us, ts ≠ .and :: us) :
    readAndRest (fuel + 1) left ts = .ok (left, ts) := by
  cases ts with
  | nil => rfl
  | cons t us =>
    cases t with
    | and => exact absurd rfl (h us)
    | _ => rfl

/-- A row ends where no separator follows. -/
theorem readOrRest_ends (h : ∀ us, ts ≠ .or :: us) :
    readOrRest (fuel + 1) left ts = .ok (left, ts) := by
  cases ts with
  | nil => rfl
  | cons t us =>
    cases t with
    | or => exact absurd rfl (h us)
    | _ => rfl

/-- A row of comparisons is read to its end. -/
theorem readAndRest_row
    (hread : ∀ x ∈ more, ∀ fuel rest, 6 * x.1.length + 1 ≤ fuel → EndsComparison rest →
      readComparison fuel (x.1 ++ rest) = .ok (x.2, rest))
    (hfuel : 6 * (row .and more).length + 1 ≤ fuel) (hrest : EndsConjunction rest) :
    readAndRest fuel left (row .and more ++ rest) = .ok (grouped .and left more, rest) := by
  obtain ⟨fuel, rfl⟩ : ∃ n, fuel = n + 1 := ⟨fuel - 1, by omega⟩
  induction more generalizing fuel left with
  | nil => exact readAndRest_ends hrest.2
  | cons x more ih =>
    rw [row_cons, List.length_cons, List.length_append] at hfuel
    obtain ⟨fuel, rfl⟩ : ∃ n, fuel = n + 1 := ⟨fuel - 1, by omega⟩
    have hfirst := hread x (by simp) (fuel + 1) (row .and more ++ rest) (by omega)
      (endsComparison_row (by simp) hrest.1 more)
    have hmore : readAndRest (fuel + 1) (.and left x.2) (row .and more ++ rest) =
        .ok (grouped .and (.and left x.2) more, rest) :=
      ih (fun y hy => hread y (by simp [hy])) fuel (by omega)
    rw [row_cons, List.cons_append, List.append_assoc, readAndRest, hfirst]
    exact hmore

/-- A row of conjunctions is read to its end. -/
theorem readOrRest_row
    (hread : ∀ x ∈ more, ∀ fuel rest, 6 * x.1.length + 2 ≤ fuel → EndsConjunction rest →
      readAnd fuel (x.1 ++ rest) = .ok (x.2, rest))
    (hfuel : 6 * (row .or more).length + 1 ≤ fuel) (hrest : EndsDisjunction rest) :
    readOrRest fuel left (row .or more ++ rest) = .ok (grouped .or left more, rest) := by
  obtain ⟨fuel, rfl⟩ : ∃ n, fuel = n + 1 := ⟨fuel - 1, by omega⟩
  induction more generalizing fuel left with
  | nil => exact readOrRest_ends hrest.2
  | cons x more ih =>
    rw [row_cons, List.length_cons, List.length_append] at hfuel
    obtain ⟨fuel, rfl⟩ : ∃ n, fuel = n + 1 := ⟨fuel - 1, by omega⟩
    have hfirst := hread x (by simp) (fuel + 1) (row .or more ++ rest) (by omega)
      (endsConjunction_row hrest.1 more)
    have hmore : readOrRest (fuel + 1) (.or left x.2) (row .or more ++ rest) =
        .ok (grouped .or (.or left x.2) more, rest) :=
      ih (fun y hy => hread y (by simp [hy])) fuel (by omega)
    rw [row_cons, List.cons_append, List.append_assoc, readOrRest, hfirst]
    exact hmore

/-- A part is read off the front of tokens that do not go on with it. -/
theorem Derives.read (h : Derives level ts e) : ∀ {fuel : Nat} {rest : List Token},
    6 * ts.length + level.height ≤ fuel → level.Ends rest →
      level.read fuel (ts ++ rest) = .ok (e, rest) := by
  induction h with
  | literal v =>
    intro fuel rest hfuel _
    simp only [List.length_cons, List.length_nil, Level.height] at hfuel
    obtain ⟨fuel, rfl⟩ : ∃ n, fuel = n + 1 := ⟨fuel - 1, by omega⟩
    rfl
  | path p =>
    intro fuel rest hfuel _
    simp only [List.length_cons, List.length_nil, Level.height] at hfuel
    obtain ⟨fuel, rfl⟩ : ∃ n, fuel = n + 1 := ⟨fuel - 1, by omega⟩
    rfl
  | @group ts e inner ih =>
    intro fuel rest hfuel _
    simp only [List.length_cons, List.length_append, List.length_nil, Level.height] at hfuel
    obtain ⟨fuel, rfl⟩ : ∃ n, fuel = n + 1 := ⟨fuel - 1, by omega⟩
    have hinner : readOr fuel (ts ++ .closing :: rest) = .ok (e, .closing :: rest) :=
      ih (by simp only [Level.height]; omega) (endsDisjunction_closing rest)
    rw [List.cons_append, List.append_assoc, List.singleton_append, Level.read, readOperand, hinner]
  | @not ts e inner ih =>
    intro fuel rest hfuel _
    simp only [List.length_cons, Level.height] at hfuel
    obtain ⟨fuel, rfl⟩ : ∃ n, fuel = n + 1 := ⟨fuel - 1, by omega⟩
    have hinner : readOperand fuel (ts ++ rest) = .ok (e, rest) :=
      ih (by simp only [Level.height]; omega) trivial
    rw [List.cons_append, Level.read, readOperand, hinner]
  | primary inner ih => exact fun hfuel hrest => ih hfuel hrest
  | @operand ts e inner ih =>
    intro fuel rest hfuel hrest
    simp only [Level.height] at hfuel
    obtain ⟨fuel, rfl⟩ : ∃ n, fuel = n + 1 := ⟨fuel - 1, by omega⟩
    have hinner : readOperand fuel (ts ++ rest) = .ok (e, rest) :=
      ih (by simp only [Level.height]; omega) trivial
    rw [Level.read, readComparison, hinner]
    split
    · simp_all
    · rename_i heq
      simp only [Except.ok.injEq, Prod.mk.injEq] at heq
      exact absurd heq.2 (hrest _ _)
    · rename_i heq
      exact heq.symm
  | @compare ts us l r op left right ihl ihr =>
    intro fuel rest hfuel hrest
    simp only [List.length_cons, List.length_append, Level.height] at hfuel
    obtain ⟨fuel, rfl⟩ : ∃ n, fuel = n + 1 := ⟨fuel - 1, by omega⟩
    have hleft : readOperand fuel (ts ++ .cmp op :: (us ++ rest)) =
        .ok (l, .cmp op :: (us ++ rest)) :=
      ihl (by simp only [Level.height]; omega) trivial
    have hright : readOperand fuel (us ++ rest) = .ok (r, rest) :=
      ihr (by simp only [Level.height]; omega) trivial
    rw [List.append_assoc, List.cons_append, Level.read, readComparison, hleft]
    dsimp only
    rw [hright]
    split
    · simp_all
    · rename_i heq
      simp only [Except.ok.injEq, Prod.mk.injEq] at heq
      exact absurd heq.2 (hrest _ _)
    · rename_i heq
      obtain ⟨rfl, rfl⟩ := Prod.mk.inj (Except.ok.inj heq)
      rfl
  | @conjunction ts e more first others ih ihs =>
    intro fuel rest hfuel hrest
    simp only [List.length_append, Level.height] at hfuel
    obtain ⟨fuel, rfl⟩ : ∃ n, fuel = n + 1 := ⟨fuel - 1, by omega⟩
    have hfirst : readComparison fuel (ts ++ (row .and more ++ rest)) =
        .ok (e, row .and more ++ rest) :=
      ih (by simp only [Level.height]; omega) (endsComparison_row (by simp) hrest.1 more)
    rw [List.append_assoc, Level.read, readAnd, hfirst]
    exact readAndRest_row (fun x hx _ _ hf hr => ihs x hx hf hr) (by omega) hrest
  | @disjunction ts e more first others ih ihs =>
    intro fuel rest hfuel hrest
    simp only [List.length_append, Level.height] at hfuel
    obtain ⟨fuel, rfl⟩ : ∃ n, fuel = n + 1 := ⟨fuel - 1, by omega⟩
    have hfirst : readAnd fuel (ts ++ (row .or more ++ rest)) = .ok (e, row .or more ++ rest) :=
      ih (by simp only [Level.height]; omega) (endsConjunction_row hrest.1 more)
    rw [List.append_assoc, Level.read, readOr, hfirst]
    exact readOrRest_row (fun x hx _ _ hf hr => ihs x hx hf hr) (by omega) hrest

/-! ## What is read is derived -/

/-- Whatever is read off the front of some tokens is derived. -/
structure Sound (fuel : Nat) : Prop where
  /-- At the level of disjunctions. -/
  readOr : ∀ {ts e rest}, readOr fuel ts = .ok (e, rest) →
    ∃ front, ts = front ++ rest ∧ Derives .disjunction front e
  /-- Behind the first conjunction of a row. -/
  readOrRest : ∀ {left ts e rest}, readOrRest fuel left ts = .ok (e, rest) →
    ∃ more, ts = row .or more ++ rest ∧ e = grouped .or left more ∧
      ∀ x ∈ more, Derives .conjunction x.1 x.2
  /-- At the level of conjunctions. -/
  readAnd : ∀ {ts e rest}, readAnd fuel ts = .ok (e, rest) →
    ∃ front, ts = front ++ rest ∧ Derives .conjunction front e
  /-- Behind the first comparison of a row. -/
  readAndRest : ∀ {left ts e rest}, readAndRest fuel left ts = .ok (e, rest) →
    ∃ more, ts = row .and more ++ rest ∧ e = grouped .and left more ∧
      ∀ x ∈ more, Derives .comparison x.1 x.2
  /-- At the level of comparisons. -/
  readComparison : ∀ {ts e rest}, readComparison fuel ts = .ok (e, rest) →
    ∃ front, ts = front ++ rest ∧ Derives .comparison front e
  /-- At the level of operands. -/
  readOperand : ∀ {ts e rest}, readOperand fuel ts = .ok (e, rest) →
    ∃ front, ts = front ++ rest ∧ Derives .operand front e

namespace Sound

theorem zero : Sound 0 := by
  constructor <;> intros <;> rename_i hread <;>
    simp [Condition.readOr, Condition.readOrRest, Condition.readAnd, Condition.readAndRest,
      Condition.readComparison, Condition.readOperand] at hread

theorem readOr_succ (h : Sound fuel) (hread : Condition.readOr (fuel + 1) ts = .ok (e, rest)) :
    ∃ front, ts = front ++ rest ∧ Derives .disjunction front e := by
  unfold Condition.readOr at hread
  split at hread
  · simp at hread
  · rename_i first us hfirst
    obtain ⟨front, rfl, hfront⟩ := h.readAnd hfirst
    obtain ⟨more, rfl, rfl, hmore⟩ := h.readOrRest hread
    exact ⟨front ++ row .or more, by simp, .disjunction hfront hmore⟩

theorem readOrRest_succ (h : Sound fuel)
    (hread : Condition.readOrRest (fuel + 1) left ts = .ok (e, rest)) :
    ∃ more, ts = row .or more ++ rest ∧ e = grouped .or left more ∧
      ∀ x ∈ more, Derives .conjunction x.1 x.2 := by
  by_cases hor : ∃ us, ts = .or :: us
  · obtain ⟨us, rfl⟩ := hor
    unfold Condition.readOrRest at hread
    split at hread
    · simp at hread
    · rename_i right vs hright
      obtain ⟨front, rfl, hfront⟩ := h.readAnd hright
      obtain ⟨more, rfl, rfl, hmore⟩ := h.readOrRest hread
      exact ⟨(front, right) :: more, by simp, rfl, List.forall_mem_cons.mpr ⟨hfront, hmore⟩⟩
  · rw [readOrRest_ends fun us hus => hor ⟨us, hus⟩] at hread
    obtain ⟨rfl, rfl⟩ := Prod.mk.inj (Except.ok.inj hread)
    exact ⟨[], rfl, rfl, by simp⟩

theorem readAnd_succ (h : Sound fuel) (hread : Condition.readAnd (fuel + 1) ts = .ok (e, rest)) :
    ∃ front, ts = front ++ rest ∧ Derives .conjunction front e := by
  unfold Condition.readAnd at hread
  split at hread
  · simp at hread
  · rename_i first us hfirst
    obtain ⟨front, rfl, hfront⟩ := h.readComparison hfirst
    obtain ⟨more, rfl, rfl, hmore⟩ := h.readAndRest hread
    exact ⟨front ++ row .and more, by simp, .conjunction hfront hmore⟩

theorem readAndRest_succ (h : Sound fuel)
    (hread : Condition.readAndRest (fuel + 1) left ts = .ok (e, rest)) :
    ∃ more, ts = row .and more ++ rest ∧ e = grouped .and left more ∧
      ∀ x ∈ more, Derives .comparison x.1 x.2 := by
  by_cases hand : ∃ us, ts = .and :: us
  · obtain ⟨us, rfl⟩ := hand
    unfold Condition.readAndRest at hread
    split at hread
    · simp at hread
    · rename_i right vs hright
      obtain ⟨front, rfl, hfront⟩ := h.readComparison hright
      obtain ⟨more, rfl, rfl, hmore⟩ := h.readAndRest hread
      exact ⟨(front, right) :: more, by simp, rfl, List.forall_mem_cons.mpr ⟨hfront, hmore⟩⟩
  · rw [readAndRest_ends fun us hus => hand ⟨us, hus⟩] at hread
    obtain ⟨rfl, rfl⟩ := Prod.mk.inj (Except.ok.inj hread)
    exact ⟨[], rfl, rfl, by simp⟩

theorem readComparison_succ (h : Sound fuel)
    (hread : Condition.readComparison (fuel + 1) ts = .ok (e, rest)) :
    ∃ front, ts = front ++ rest ∧ Derives .comparison front e := by
  unfold Condition.readComparison at hread
  split at hread
  · simp at hread
  · rename_i l op us hl
    obtain ⟨front, rfl, hfront⟩ := h.readOperand hl
    split at hread
    · simp at hread
    · simp at hread
    · rename_i r vs _ hr
      obtain ⟨back, rfl, hback⟩ := h.readOperand hr
      obtain ⟨rfl, rfl⟩ := Prod.mk.inj (Except.ok.inj hread)
      exact ⟨front ++ .cmp op :: back, by simp, .compare op hfront hback⟩
  · rename_i l us _ hl
    obtain ⟨front, rfl, hfront⟩ := h.readOperand hl
    obtain ⟨rfl, rfl⟩ := Prod.mk.inj (Except.ok.inj hread)
    exact ⟨front, rfl, .operand hfront⟩

theorem readOperand_succ (h : Sound fuel)
    (hread : Condition.readOperand (fuel + 1) ts = .ok (e, rest)) :
    ∃ front, ts = front ++ rest ∧ Derives .operand front e := by
  cases ts with
  | nil => simp [Condition.readOperand] at hread
  | cons t us =>
    cases t with
    | literal v =>
      obtain ⟨rfl, rfl⟩ := Prod.mk.inj (Except.ok.inj hread)
      exact ⟨[.literal v], rfl, .primary (.literal v)⟩
    | path p =>
      obtain ⟨rfl, rfl⟩ := Prod.mk.inj (Except.ok.inj hread)
      exact ⟨[.path p], rfl, .primary (.path p)⟩
    | not =>
      unfold Condition.readOperand at hread
      split at hread
      · simp at hread
      · rename_i inner vs hinner
        obtain ⟨front, rfl, hfront⟩ := h.readOperand hinner
        obtain ⟨rfl, rfl⟩ := Prod.mk.inj (Except.ok.inj hread)
        exact ⟨.not :: front, rfl, .not hfront⟩
    | opening =>
      unfold Condition.readOperand at hread
      split at hread
      · simp at hread
      · rename_i inner vs hinner
        obtain ⟨front, rfl, hfront⟩ := h.readOr hinner
        obtain ⟨rfl, rfl⟩ := Prod.mk.inj (Except.ok.inj hread)
        exact ⟨.opening :: (front ++ [.closing]), by simp, .primary (.group hfront)⟩
      · simp at hread
    | _ => simp [Condition.readOperand] at hread

theorem succ (h : Sound fuel) : Sound (fuel + 1) where
  readOr := h.readOr_succ
  readOrRest := h.readOrRest_succ
  readAnd := h.readAnd_succ
  readAndRest := h.readAndRest_succ
  readComparison := h.readComparison_succ
  readOperand := h.readOperand_succ

end Sound

theorem sound (fuel : Nat) : Sound fuel := by
  induction fuel with
  | zero => exact .zero
  | succ fuel ih => exact ih.succ

/-! ## Enough fuel -/

/-- With enough fuel for the number of tokens, how much there is does not matter. -/
structure Settled (fuel fuel' : Nat) : Prop where
  /-- At the level of disjunctions. -/
  readOr : ∀ ts : List Token, 6 * ts.length + 4 ≤ fuel → 6 * ts.length + 4 ≤ fuel' →
    readOr fuel ts = readOr fuel' ts
  /-- Behind the first conjunction of a row. -/
  readOrRest : ∀ (left : Expr) (ts : List Token), 6 * ts.length + 1 ≤ fuel →
    6 * ts.length + 1 ≤ fuel' → readOrRest fuel left ts = readOrRest fuel' left ts
  /-- At the level of conjunctions. -/
  readAnd : ∀ ts : List Token, 6 * ts.length + 3 ≤ fuel → 6 * ts.length + 3 ≤ fuel' →
    readAnd fuel ts = readAnd fuel' ts
  /-- Behind the first comparison of a row. -/
  readAndRest : ∀ (left : Expr) (ts : List Token), 6 * ts.length + 1 ≤ fuel →
    6 * ts.length + 1 ≤ fuel' → readAndRest fuel left ts = readAndRest fuel' left ts
  /-- At the level of comparisons. -/
  readComparison : ∀ ts : List Token, 6 * ts.length + 2 ≤ fuel → 6 * ts.length + 2 ≤ fuel' →
    readComparison fuel ts = readComparison fuel' ts
  /-- At the level of operands. -/
  readOperand : ∀ ts : List Token, 6 * ts.length + 1 ≤ fuel → 6 * ts.length + 1 ≤ fuel' →
    readOperand fuel ts = readOperand fuel' ts

/-- What is left behind a part is shorter. -/
theorem length_lt_of_front (h : ∃ front, ts = front ++ rest ∧ Derives level front e) :
    rest.length < ts.length := by
  obtain ⟨front, rfl, hfront⟩ := h
  have := List.length_pos_iff.mpr hfront.ne_nil
  rw [List.length_append]
  omega

theorem Settled.zero (fuel' : Nat) : Settled 0 fuel' := by
  constructor <;> intros <;> omega

theorem Settled.succ (h : Settled fuel fuel') : Settled (fuel + 1) (fuel' + 1) where
  readOr := by
    intro ts hf hf'
    rw [Condition.readOr, Condition.readOr, ← h.readAnd ts (by omega) (by omega)]
    cases hfirst : Condition.readAnd fuel ts with
    | error err => rfl
    | ok x =>
      have := length_lt_of_front ((sound fuel).readAnd hfirst)
      exact h.readOrRest x.1 x.2 (by omega) (by omega)
  readOrRest := by
    intro left ts hf hf'
    by_cases hor : ∃ us, ts = .or :: us
    · obtain ⟨us, rfl⟩ := hor
      rw [List.length_cons] at hf hf'
      rw [Condition.readOrRest, Condition.readOrRest, ← h.readAnd us (by omega) (by omega)]
      cases hright : Condition.readAnd fuel us with
      | error err => rfl
      | ok x =>
        have := length_lt_of_front ((sound fuel).readAnd hright)
        exact h.readOrRest _ x.2 (by omega) (by omega)
    · have hends : ∀ us, ts ≠ .or :: us := fun us hus => hor ⟨us, hus⟩
      rw [readOrRest_ends hends, readOrRest_ends hends]
  readAnd := by
    intro ts hf hf'
    rw [Condition.readAnd, Condition.readAnd, ← h.readComparison ts (by omega) (by omega)]
    cases hfirst : Condition.readComparison fuel ts with
    | error err => rfl
    | ok x =>
      have := length_lt_of_front ((sound fuel).readComparison hfirst)
      exact h.readAndRest x.1 x.2 (by omega) (by omega)
  readAndRest := by
    intro left ts hf hf'
    by_cases hand : ∃ us, ts = .and :: us
    · obtain ⟨us, rfl⟩ := hand
      rw [List.length_cons] at hf hf'
      rw [Condition.readAndRest, Condition.readAndRest, ← h.readComparison us (by omega) (by omega)]
      cases hright : Condition.readComparison fuel us with
      | error err => rfl
      | ok x =>
        have := length_lt_of_front ((sound fuel).readComparison hright)
        exact h.readAndRest _ x.2 (by omega) (by omega)
    · have hends : ∀ us, ts ≠ .and :: us := fun us hus => hand ⟨us, hus⟩
      rw [readAndRest_ends hends, readAndRest_ends hends]
  readComparison := by
    intro ts hf hf'
    rw [Condition.readComparison, Condition.readComparison,
      ← h.readOperand ts (by omega) (by omega)]
    cases hleft : Condition.readOperand fuel ts with
    | error err => rfl
    | ok x =>
      obtain ⟨l, us⟩ := x
      have hlt := length_lt_of_front ((sound fuel).readOperand hleft)
      cases us with
      | nil => rfl
      | cons t us =>
        cases t with
        | cmp op =>
          rw [List.length_cons] at hlt
          dsimp only
          rw [h.readOperand us (by omega) (by omega)]
        | _ => rfl
  readOperand := by
    intro ts hf hf'
    cases ts with
    | nil => rfl
    | cons t us =>
      rw [List.length_cons] at hf hf'
      cases t with
      | not => rw [Condition.readOperand, Condition.readOperand,
          h.readOperand us (by omega) (by omega)]
      | opening => rw [Condition.readOperand, Condition.readOperand,
          h.readOr us (by omega) (by omega)]
      | _ => rfl

theorem settled (fuel fuel' : Nat) : Settled fuel fuel' := by
  induction fuel generalizing fuel' with
  | zero => exact .zero fuel'
  | succ fuel ih =>
    cases fuel' with
    | zero => constructor <;> intros <;> omega
    | succ fuel' => exact (ih fuel').succ

/-! ## Comparisons are not chained -/

/-- What stands behind a comparison operator: an operand, and then no further one. -/
def Compared (ts : List Token) : Prop :=
  ∃ operand e rest, ts = operand ++ rest ∧ Derives .operand operand e ∧ EndsComparison rest

/-- A token of two rows stands in the first or in the second. -/
theorem split_token {t : Token} {front back : List Token} (h : ts ++ us = front ++ t :: back) :
    (∃ mid, ts = front ++ t :: mid ∧ back = mid ++ us) ∨ ∃ mid, us = mid ++ t :: back := by
  rcases List.append_eq_append_iff.mp h with ⟨mid, -, hus⟩ | ⟨mid, hts, hback⟩
  · exact .inr ⟨mid, hus⟩
  · cases mid with
    | nil => exact .inr ⟨[], hback.symm⟩
    | cons u mid =>
      obtain ⟨rfl, rfl⟩ := List.cons.inj hback
      exact .inl ⟨mid, hts, rfl⟩

/-- If one operand stands behind every comparison operator of the members of a row, so it is in the
row. -/
theorem compared_row {separator : Token} (hs : ∀ op, separator ≠ .cmp op)
    {ends : List Token → Prop} (hends : ∀ more, ends (row separator more ++ rest))
    (hmore : ∀ x ∈ more, ∀ {front back rest : List Token} {op : Comparison},
      x.1 = front ++ .cmp op :: back → ends rest → Compared (back ++ rest))
    {front back : List Token} {op : Comparison}
    (h : row separator more = front ++ .cmp op :: back) :
    Compared (back ++ rest) := by
  induction more generalizing front with
  | nil => exact absurd h (by simp)
  | cons x more ih =>
    rw [row_cons] at h
    cases front with
    | nil => exact absurd (List.cons.inj h).1 (hs op)
    | cons t front =>
      rcases split_token (List.cons.inj h).2 with ⟨mid, hx, rfl⟩ | ⟨mid, hrow⟩
      · rw [List.append_assoc]
        exact hmore x (by simp) hx (hends more)
      · exact ih (fun y hy => hmore y (by simp [hy])) hrow

/-- Behind every comparison operator of a part stands one operand, whatever follows the part. -/
theorem Derives.compared (h : Derives level ts e) : ∀ {front back rest : List Token}
    {op : Comparison}, ts = front ++ .cmp op :: back → level.Ends rest →
    Compared (back ++ rest) := by
  induction h with
  | literal v =>
    intro front back rest op hts _
    exact absurd (show Token.cmp op ∈ [.literal v] by simp [hts]) (by simp)
  | path p =>
    intro front back rest op hts _
    exact absurd (show Token.cmp op ∈ [.path p] by simp [hts]) (by simp)
  | @group ts e _ ih =>
    intro front back rest op hts _
    cases front with
    | nil => exact absurd (List.cons.inj hts).1 (by simp)
    | cons t front =>
      rcases split_token (List.cons.inj hts).2 with ⟨mid, hinner, rfl⟩ | ⟨mid, hclosing⟩
      · rw [List.append_assoc]
        exact ih hinner (endsDisjunction_closing rest)
      · exact absurd (show Token.cmp op ∈ [.closing] by simp [hclosing]) (by simp)
  | not _ ih =>
    intro front back rest op hts _
    cases front with
    | nil => exact absurd (List.cons.inj hts).1 (by simp)
    | cons t front => exact ih (List.cons.inj hts).2 trivial
  | primary _ ih => exact fun hts _ => ih hts trivial
  | operand _ ih => exact fun hts _ => ih hts trivial
  | @compare ts us l r o _ right ihl ihr =>
    intro front back rest op hts hrest
    rcases split_token hts with ⟨mid, hleft, rfl⟩ | ⟨mid, hus⟩
    · rw [List.append_assoc]
      exact ihl hleft trivial
    · cases mid with
      | nil =>
        obtain ⟨-, rfl⟩ := List.cons.inj hus
        exact ⟨us, r, rest, rfl, right, hrest⟩
      | cons t mid => exact ihr (List.cons.inj hus).2 trivial
  | @conjunction ts e more _ _ ih ihs =>
    intro front back rest op hts hrest
    have hends : ∀ more, EndsComparison (row .and more ++ rest) :=
      endsComparison_row (by simp) hrest.1
    rcases split_token hts with ⟨mid, hfirst, rfl⟩ | ⟨mid, hrow⟩
    · rw [List.append_assoc]
      exact ih hfirst (hends more)
    · exact compared_row (by simp) hends (fun x hx _ _ _ _ => ihs x hx) hrow
  | @disjunction ts e more _ _ ih ihs =>
    intro front back rest op hts hrest
    have hends : ∀ more, EndsConjunction (row .or more ++ rest) := endsConjunction_row hrest.1
    rcases split_token hts with ⟨mid, hfirst, rfl⟩ | ⟨mid, hrow⟩
    · rw [List.append_assoc]
      exact ih hfirst (hends more)
    · exact compared_row (by simp) hends (fun x hx _ _ _ _ => ihs x hx) hrow

/-- What is left behind an operand does not depend on how the operand is found. -/
theorem Derives.operand_unique {vs rest' : List Token} {e' : Expr} (h : Derives .operand us e)
    (h' : Derives .operand vs e') (heq : us ++ rest = vs ++ rest') : rest = rest' := by
  have hread : readOperand (6 * (us ++ rest).length) (us ++ rest) = .ok (e, rest) :=
    h.read (by simp only [Level.height, List.length_append]; omega) trivial
  have hread' : readOperand (6 * (vs ++ rest').length) (vs ++ rest') = .ok (e', rest') :=
    h'.read (by simp only [Level.height, List.length_append]; omega) trivial
  rw [heq, hread'] at hread
  exact (Prod.mk.inj (Except.ok.inj hread)).2.symm

/-- A part does not compare a comparison. -/
theorem Derives.not_chained (h : Derives .disjunction ts e) {front operand back : List Token}
    {l : Expr} {op op' : Comparison} (hoperand : Derives .operand operand l) :
    ts ≠ front ++ .cmp op :: (operand ++ .cmp op' :: back) := by
  intro hts
  obtain ⟨operand', l', rest, heq, hoperand', hends⟩ := h.compared hts endsDisjunction_nil
  rw [List.append_nil] at heq
  exact hends op' back (hoperand.operand_unique hoperand' heq).symm

/-! ## Reading whole conditions -/

/-- Reading accepts what is derived, and only that. -/
theorem ofTokens_eq_ok_iff : ofTokens ts = .ok e ↔ Derives .disjunction ts e := by
  constructor
  · intro h
    unfold ofTokens at h
    split at h
    · simp at h
    · rename_i e' hfront
      obtain rfl := Except.ok.inj h
      obtain ⟨front, hts, hfront⟩ := (sound _).readOr (readFront_eq_iff.mp hfront)
      rw [hts, List.append_nil]
      exact hfront
    · simp at h
  · intro h
    have hfuel : 6 * ts.length + Level.disjunction.height ≤ 6 * ts.length + 6 := by
      simp only [Level.height]
      omega
    have hread : readOr (6 * ts.length + 6) (ts ++ []) = .ok (e, []) :=
      h.read hfuel endsDisjunction_nil
    rw [List.append_nil] at hread
    have hfront : readFront ts = .ok (e, []) := readFront_eq_iff.mpr hread
    rw [ofTokens, hfront]

/-- Some tokens are read as a tree just if the grammar derives it. So they have one tree at most,
and no comparison is compared again at any depth. And reading comes to an end: it does not run out
of fuel, and more fuel than is given to it changes nothing. -/
theorem ofTokens_grammar (ts : List Token) :
    (∀ e, ofTokens ts = .ok e ↔ Derives .disjunction ts e) ∧
    (∀ e e', Derives .disjunction ts e → Derives .disjunction ts e' → e = e') ∧
    (∀ front operand back l op op', Derives .operand operand l →
      ts = front ++ .cmp op :: (operand ++ .cmp op' :: back) → ∀ e, ofTokens ts ≠ .ok e) ∧
    ∀ fuel, 6 * ts.length + 6 ≤ fuel → readOr fuel ts ≠ .error .outOfFuel ∧
      readOr fuel ts = readOr (6 * ts.length + 6) ts := by
  refine ⟨fun e => ofTokens_eq_ok_iff, fun e e' h h' => ?_, ?_, fun fuel hfuel => ⟨?_, ?_⟩⟩
  · have h := ofTokens_eq_ok_iff.mpr h
    rw [ofTokens_eq_ok_iff.mpr h'] at h
    exact (Except.ok.inj h).symm
  · intro front operand back l op op' hoperand hts e h
    exact (ofTokens_eq_ok_iff.mp h).not_chained hoperand hts
  · exact readOr_ne_outOfFuel hfuel
  · exact (settled _ _).readOr ts (by omega) (by omega)

/-- A comparison in parentheses may be compared, but none without them, not even inside other
ones. -/
theorem ofTokens_grammar_parentheses :
    ofTokens [.opening, .path ['a'], .cmp .lt, .path ['b'], .closing, .cmp .eq, .path ['c']] =
        .ok (.compare (.compare (.path ['a']) .lt (.path ['b'])) .eq (.path ['c'])) ∧
      ∀ e, ofTokens
        [.opening, .path ['a'], .cmp .lt, .path ['b'], .cmp .eq, .path ['c'], .closing] ≠ .ok e :=
  ⟨rfl, (ofTokens_grammar _).2.2.1 [.opening, .path ['a']] [.path ['b']] [.path ['c'], .closing]
    _ _ _ (.primary (.path ['b'])) rfl⟩

end Stencil.Condition
