import Stencil.Condition.Reader
import Stencil.Tag.Syntax

/-!
# Conditionals

A conditional runs from an `if` tag to the `endif` tag that balances it. The `elseif` and `else`
tags in between, those of inner conditionals apart, split it into branches. One branch survives
at most: the first whose condition holds, or that has none. If a malformed condition comes
first, it is the first branch without a condition.

Tags that form no conditional stay as they are.
-/

namespace Stencil

/-- A branch of a conditional. -/
structure Branch where
  /-- The tag in front of its text. -/
  tag : Tag Conditional
  /-- Where its text ends. -/
  stop : Nat

namespace Branch

/-- The condition of a branch. -/
def condition? (b : Branch) : Option Text :=
  match b.tag.content with
  | .opening condition => some condition
  | .branch condition? => condition?
  | .closing => none

/-- The text of a branch. -/
def body (b : Branch) (s : Text) : Text := s.slice b.tag.stop b.stop

theorem length_body_lt (b : Branch) {s : Text} (hs : s ≠ []) : (b.body s).length < s.length :=
  Text.length_slice_lt hs (Nat.zero_lt_of_lt b.tag.start_lt_stop)

/-- The branch that survives. -/
def select? (ctx : Context) : List Branch → Option Branch
  | [] => none
  | b :: bs =>
    match b.condition? with
    | none => some b
    | some condition =>
      match Condition.read condition with
      | .ok e => if e.holds ctx then some b else select? ctx bs
      | .error _ => bs.find? (·.condition?.isNone)

/-- Splits the tags behind the front tag of a branch, at a depth of inner conditionals: into the
branches up to the closing tag, that tag, and the tags behind it. -/
def split? : (depth : Nat) → Tag Conditional → List (Tag Conditional) →
    Option (List Branch × Tag Conditional × List (Tag Conditional))
  | _, _, [] => none
  | depth, front, t :: ts =>
    match t.content, depth with
    | .opening _, depth => split? (depth + 1) front ts
    | .closing, 0 => some ([⟨front, t.start⟩], t, ts)
    | .closing, depth + 1 => split? depth front ts
    | .branch _, 0 =>
      match split? 0 t ts with
      | some (bs, last, rest) => some (⟨front, t.start⟩ :: bs, last, rest)
      | none => none
    | .branch _, depth + 1 => split? (depth + 1) front ts

theorem length_rest_lt {depth : Nat} {front last : Tag Conditional}
    {ts rest : List (Tag Conditional)} {bs : List Branch}
    (h : split? depth front ts = some (bs, last, rest)) : rest.length < ts.length := by
  fun_induction split? depth front ts generalizing bs last rest with
  | case1 => simp at h
  | case2 _ _ _ _ _ _ ih => exact Nat.lt_succ_of_lt (ih h)
  | case3 =>
    simp only [Option.some.injEq, Prod.mk.injEq] at h
    simp [h.2.2]
  | case4 _ _ _ _ _ ih => exact Nat.lt_succ_of_lt (ih h)
  | case5 _ _ _ _ _ _ _ _ hs ih =>
    simp only [Option.some.injEq, Prod.mk.injEq] at h
    obtain ⟨-, rfl, rfl⟩ := h
    exact Nat.lt_succ_of_lt (ih hs)
  | case6 => simp at h
  | case7 _ _ _ _ _ _ ih => exact Nat.lt_succ_of_lt (ih h)

end Branch

/-- A conditional of a text. -/
structure Choice where
  /-- Where it starts. -/
  start : Nat
  /-- Its branches. -/
  branches : List Branch
  /-- Where the text goes on behind it. -/
  stop : Nat

namespace Choice

/-- The outermost conditionals that tags form. -/
def ofTags : List (Tag Conditional) → List Choice
  | [] => []
  | t :: ts =>
    match t.content with
    | .opening _ =>
      match h : Branch.split? 0 t ts with
      | some (bs, last, rest) =>
        have := Branch.length_rest_lt h
        ⟨t.start, bs, last.stop⟩ :: ofTags rest
      | none => ofTags ts
    | _ => ofTags ts
termination_by ts => ts.length

end Choice

/-- Resolves the conditionals of a text. -/
def resolveConditionals (d : Delimiters) (ctx : Context) (s : Text) : Text :=
  if _h : s = [] then []
  else
    s.splice ((Choice.ofTags (Tag.scan d.conditionalTag s)).map fun choice =>
      ⟨choice.start, choice.stop,
        match Branch.select? ctx choice.branches with
        | some branch => resolveConditionals d ctx (branch.body s)
        | none => []⟩)
termination_by s.length
decreasing_by exact branch.length_body_lt ‹_›

end Stencil
