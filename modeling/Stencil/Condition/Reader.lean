import Stencil.Condition.Expr

/-!
# Reading conditions

The grammar, from the loosest operator to the tightest:

* a disjunction is a row of conjunctions with `||` or `or` between them;
* a conjunction is a row of comparisons with `&&` or `and` between them;
* a comparison is one operand, or two with a comparison operator between them;
* an operand is a literal, a path, a negated operand, or a disjunction in parentheses.

Rows group to the left. Every function reads a part off the front of the tokens and returns what
is left. Each level costs one unit of fuel and every token ends at most the levels above it, so
a fixed number of units per token is enough, and reading never runs out.
-/

namespace Stencil.Condition

/-- A condition read off the front of some tokens, with the tokens left. -/
abbrev Read := Except (Stop ConditionFault) (Expr × List Token)

mutual

/-- Reads a disjunction. -/
def readOr : (fuel : Nat) → List Token → Read
  | 0, _ => .error .outOfFuel
  | fuel + 1, ts =>
    match readAnd fuel ts with
    | .error e => .error e
    | .ok (left, ts) => readOrRest fuel left ts

/-- Reads the rest of a disjunction. -/
def readOrRest : (fuel : Nat) → Expr → List Token → Read
  | 0, _, _ => .error .outOfFuel
  | fuel + 1, left, .or :: ts =>
    match readAnd fuel ts with
    | .error e => .error e
    | .ok (right, ts) => readOrRest fuel (.or left right) ts
  | _ + 1, left, ts => .ok (left, ts)

/-- Reads a conjunction. -/
def readAnd : (fuel : Nat) → List Token → Read
  | 0, _ => .error .outOfFuel
  | fuel + 1, ts =>
    match readComparison fuel ts with
    | .error e => .error e
    | .ok (left, ts) => readAndRest fuel left ts

/-- Reads the rest of a conjunction. -/
def readAndRest : (fuel : Nat) → Expr → List Token → Read
  | 0, _, _ => .error .outOfFuel
  | fuel + 1, left, .and :: ts =>
    match readComparison fuel ts with
    | .error e => .error e
    | .ok (right, ts) => readAndRest fuel (.and left right) ts
  | _ + 1, left, ts => .ok (left, ts)

/-- Reads a comparison. A second operator is refused. -/
def readComparison : (fuel : Nat) → List Token → Read
  | 0, _ => .error .outOfFuel
  | fuel + 1, ts =>
    match readOperand fuel ts with
    | .error e => .error e
    | .ok (left, .cmp op :: ts) =>
      match readOperand fuel ts with
      | .error e => .error e
      | .ok (_, .cmp _ :: _) => .error (.failed .chainedComparison)
      | .ok (right, ts) => .ok (.compare left op right, ts)
    | .ok (left, ts) => .ok (left, ts)

/-- Reads an operand. -/
def readOperand : (fuel : Nat) → List Token → Read
  | 0, _ => .error .outOfFuel
  | _ + 1, [] => .error (.failed .unexpectedEnd)
  | fuel + 1, .not :: ts =>
    match readOperand fuel ts with
    | .error e => .error e
    | .ok (e, ts) => .ok (.not e, ts)
  | _ + 1, .literal v :: ts => .ok (.literal v, ts)
  | _ + 1, .path p :: ts => .ok (.path p, ts)
  | fuel + 1, .opening :: ts =>
    match readOr fuel ts with
    | .error e => .error e
    | .ok (e, .closing :: ts) => .ok (e, ts)
    | .ok _ => .error (.failed .missingParenthesis)
  | _ + 1, t :: _ => .error (.failed (.unexpectedToken t.name))

end

/-! ## Fuel -/

namespace Read

/-- Reading comes to an end, and what is left behind a condition is no more than so many tokens. -/
def Within (n : Nat) : Read → Prop
  | .ok (_, rest) => rest.length ≤ n
  | .error (.failed _) => True
  | .error .outOfFuel => False

variable {r : Read} {m n : Nat}

theorem Within.mono (h : r.Within m) (hle : m ≤ n) : r.Within n := by
  rcases r with (_ | fault) | ⟨e, rest⟩
  · exact h
  · exact h
  · exact Nat.le_trans h hle

theorem Within.ne_outOfFuel (h : r.Within n) : r ≠ .error .outOfFuel := by
  rintro rfl
  exact h

/-- Goes on behind a part. -/
theorem Within.next {next : Expr → List Token → Read} (h : r.Within m)
    (hnext : ∀ e rest, rest.length ≤ m → (next e rest).Within n) :
    Within n (match r with
      | .error e => .error e
      | .ok (e, ts) => next e ts) := by
  rcases r with (_ | fault) | ⟨e, rest⟩
  · exact h
  · exact h
  · exact hnext e rest h

end Read

/-- The fuel is enough for as many tokens as it is meant for. -/
structure Fueled (fuel : Nat) : Prop where
  /-- At the level of disjunctions. -/
  readOr : ∀ ts : List Token, 6 * ts.length + 4 ≤ fuel → (readOr fuel ts).Within ts.length
  /-- Behind the first conjunction of a row. -/
  readOrRest : ∀ (left : Expr) (ts : List Token), 6 * ts.length + 1 ≤ fuel →
    (readOrRest fuel left ts).Within ts.length
  /-- At the level of conjunctions. -/
  readAnd : ∀ ts : List Token, 6 * ts.length + 3 ≤ fuel → (readAnd fuel ts).Within ts.length
  /-- Behind the first comparison of a row. -/
  readAndRest : ∀ (left : Expr) (ts : List Token), 6 * ts.length + 1 ≤ fuel →
    (readAndRest fuel left ts).Within ts.length
  /-- At the level of comparisons. -/
  readComparison : ∀ ts : List Token, 6 * ts.length + 2 ≤ fuel →
    (readComparison fuel ts).Within ts.length
  /-- At the level of operands. -/
  readOperand : ∀ ts : List Token, 6 * ts.length + 1 ≤ fuel →
    (readOperand fuel ts).Within ts.length

namespace Fueled

variable {fuel : Nat} {ts : List Token}

theorem zero : Fueled 0 := by
  constructor <;> intros <;> omega

theorem readOrRest_succ (h : Fueled fuel) (left : Expr) (hf : 6 * ts.length + 1 ≤ fuel + 1) :
    (Condition.readOrRest (fuel + 1) left ts).Within ts.length := by
  cases ts with
  | nil => exact Nat.le_refl _
  | cons t ts =>
    rw [List.length_cons] at hf
    cases t with
    | or =>
      rw [Condition.readOrRest, List.length_cons]
      exact (h.readAnd ts (by omega)).next fun right rest hrest =>
        (h.readOrRest _ rest (by omega)).mono (by omega)
    | _ => exact Nat.le_refl _

theorem readAndRest_succ (h : Fueled fuel) (left : Expr) (hf : 6 * ts.length + 1 ≤ fuel + 1) :
    (Condition.readAndRest (fuel + 1) left ts).Within ts.length := by
  cases ts with
  | nil => exact Nat.le_refl _
  | cons t ts =>
    rw [List.length_cons] at hf
    cases t with
    | and =>
      rw [Condition.readAndRest, List.length_cons]
      exact (h.readComparison ts (by omega)).next fun right rest hrest =>
        (h.readAndRest _ rest (by omega)).mono (by omega)
    | _ => exact Nat.le_refl _

theorem readComparison_succ (h : Fueled fuel) (hf : 6 * ts.length + 2 ≤ fuel + 1) :
    (Condition.readComparison (fuel + 1) ts).Within ts.length := by
  rw [Condition.readComparison]
  have hleft := h.readOperand ts (by omega)
  split
  · rename_i hread
    rwa [hread] at hleft
  · rename_i left op us hread
    rw [hread, Read.Within, List.length_cons] at hleft
    have hright := h.readOperand us (by omega)
    split
    · rename_i hread'
      rw [hread'] at hright
      exact hright.mono (by omega)
    · trivial
    · rename_i hread'
      rw [hread'] at hright
      exact Nat.le_trans hright (by omega)
  · rename_i hread
    rwa [hread] at hleft

theorem readOperand_succ (h : Fueled fuel) (hf : 6 * ts.length + 1 ≤ fuel + 1) :
    (Condition.readOperand (fuel + 1) ts).Within ts.length := by
  cases ts with
  | nil => trivial
  | cons t ts =>
    rw [List.length_cons] at hf
    cases t with
    | not =>
      rw [Condition.readOperand, List.length_cons]
      exact (h.readOperand ts (by omega)).next fun e rest hrest => Nat.le_succ_of_le hrest
    | literal v => exact Nat.le_succ _
    | path p => exact Nat.le_succ _
    | opening =>
      have hinner := h.readOr ts (by omega)
      rw [Condition.readOperand, List.length_cons]
      split
      · rename_i hread
        rw [hread] at hinner
        exact hinner.mono (Nat.le_succ _)
      · rename_i hread
        rw [hread, Read.Within, List.length_cons] at hinner
        exact Nat.le_trans (Nat.le_succ _) (Nat.le_succ_of_le hinner)
      · trivial
    | _ => trivial

theorem succ (h : Fueled fuel) : Fueled (fuel + 1) where
  readOr ts hf := by
    rw [Condition.readOr]
    exact (h.readAnd ts (by omega)).next fun left rest hrest =>
      (h.readOrRest left rest (by omega)).mono hrest
  readOrRest left ts := h.readOrRest_succ left
  readAnd ts hf := by
    rw [Condition.readAnd]
    exact (h.readComparison ts (by omega)).next fun left rest hrest =>
      (h.readAndRest left rest (by omega)).mono hrest
  readAndRest left ts := h.readAndRest_succ left
  readComparison ts := h.readComparison_succ
  readOperand ts := h.readOperand_succ

end Fueled

theorem fueled (fuel : Nat) : Fueled fuel := by
  induction fuel with
  | zero => exact .zero
  | succ fuel ih => exact ih.succ

/-- Six units of fuel for each token, and some for the levels, are enough. -/
theorem readOr_ne_outOfFuel {fuel : Nat} {ts : List Token} (hf : 6 * ts.length + 6 ≤ fuel) :
    readOr fuel ts ≠ .error .outOfFuel :=
  ((fueled fuel).readOr ts (by omega)).ne_outOfFuel

/-- Reads a condition off the front of some tokens, with the tokens left. -/
def readFront (ts : List Token) : Except ConditionFault (Expr × List Token) :=
  Stop.settle (readOr (6 * ts.length + 6) ts) (readOr_ne_outOfFuel (Nat.le_refl _))

theorem readFront_eq_iff {ts : List Token} {r : Except ConditionFault (Expr × List Token)} :
    readFront ts = r ↔ readOr (6 * ts.length + 6) ts = r.mapError .failed :=
  Stop.settle_eq_iff _

/-- Reads tokens that form one condition. -/
def ofTokens (ts : List Token) : Except ConditionFault Expr :=
  match readFront ts with
  | .error fault => .error fault
  | .ok (e, []) => .ok e
  | .ok _ => .error .trailingInput

/-- Reads a condition. -/
def read (s : Text) : Except ConditionFault Expr := do ofTokens (← tokenize s)

/-- Reads a condition; errors show it as it was given. -/
def parse (s : Text) : Except Error Expr :=
  (read s).mapError (.condition (String.ofList s))

end Stencil.Condition
