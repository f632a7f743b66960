import Stencil.Proofs.Outline.Pairs
import Stencil.Template.Conditionals

/-!
# Conditionals of an outline

A conditional is a pair of tags as well, and the tags in between that belong to no inner
conditional split what it encloses into branches. Resolving the conditionals of an outline puts the
chosen branch of a segment, resolved in turn, in its place.
-/

namespace Stencil

namespace Outline

open Recognizer

variable {P : Type} {d : Delimiters} {w : P → Text}

/-- Whether a tag opens a conditional. -/
def opensChoice (d : Delimiters) (body : Text) : Bool :=
  match reading d d.conditionalTag body with
  | some (.opening _) => true
  | _ => false

/-- Whether a tag closes a conditional. -/
def closesChoice (d : Delimiters) (body : Text) : Bool :=
  match reading d d.conditionalTag body with
  | some .closing => true
  | _ => false

/-- Conditionals are pairs that open with a condition. -/
def choicePairing (d : Delimiters) : Pairing Text where
  heads body :=
    match reading d d.conditionalTag body with
    | some (.opening condition) => [condition]
    | _ => []
  opens _ := opensChoice d
  closes _ := closesChoice d

/-- The branches of a conditional, given how many inner conditionals are open, the condition of the
branch at hand, and what has been read of it. -/
def branches (d : Delimiters) : (depth : Nat) → Option Text → List (Piece P) → List (Piece P) →
    List (Option Text × List (Piece P))
  | _, condition?, sofar, [] => [(condition?, sofar)]
  | depth, condition?, sofar, .plain p :: ps =>
    branches d depth condition? (sofar ++ [.plain p]) ps
  | depth, condition?, sofar, .tag body :: ps =>
    match reading d d.conditionalTag body, depth with
    | some (.branch next?), 0 => (condition?, sofar) :: branches d 0 next? [] ps
    | some (.opening _), depth => branches d (depth + 1) condition? (sofar ++ [.tag body]) ps
    | some .closing, depth => branches d (depth - 1) condition? (sofar ++ [.tag body]) ps
    | some (.branch _), depth + 1 => branches d (depth + 1) condition? (sofar ++ [.tag body]) ps
    | none, depth => branches d depth condition? (sofar ++ [.tag body]) ps

/-- A branch that may come out of some pieces: what is in it, and where its condition stands. -/
structure BranchOf (d : Delimiters) (condition? : Option Text) (sofar ps : List (Piece P))
    (b : Option Text × List (Piece P)) : Prop where
  /-- It is made of the pieces. -/
  pieces : ∀ q ∈ b.2, q ∈ sofar ∨ q ∈ ps
  /-- It has no more pieces than there are. -/
  length : b.2.length ≤ sofar.length + ps.length
  /-- Its condition is the one given, or stands in a tag. -/
  condition : b.1 = condition? ∨
    ∃ body, .tag body ∈ ps ∧ reading d d.conditionalTag body = some (.branch b.1)

theorem BranchOf.grow {condition? : Option Text} {sofar ps : List (Piece P)} {q : Piece P}
    {b : Option Text × List (Piece P)} (h : BranchOf d condition? (sofar ++ [q]) ps b) :
    BranchOf d condition? sofar (q :: ps) b := by
  refine ⟨fun x hx => ?_, ?_, ?_⟩
  · rcases h.pieces x hx with hm | hm
    · rcases List.mem_append.mp hm with hm | hm
      · exact .inl hm
      · exact .inr (by simp [List.mem_singleton.mp hm])
    · exact .inr (by simp [hm])
  · have := h.length
    simp only [List.length_append, List.length_cons, List.length_nil] at this ⊢
    omega
  · rcases h.condition with hc | ⟨body, hb, hr⟩
    · exact .inl hc
    · exact .inr ⟨body, by simp [hb], hr⟩

/-- Branches are made of the pieces of the conditional, and their conditions stand in its tags. -/
theorem branchOf_of_mem {depth : Nat} {condition? : Option Text} {sofar ps : List (Piece P)}
    {b : Option Text × List (Piece P)} (h : b ∈ branches d depth condition? sofar ps) :
    BranchOf d condition? sofar ps b := by
  fun_induction branches d depth condition? sofar ps with
  | case1 depth condition? sofar =>
    obtain rfl := List.mem_singleton.mp h
    exact ⟨fun q hq => .inl hq, by simp, .inl rfl⟩
  | case2 depth condition? sofar p ps ih => exact (ih h).grow
  | case3 condition? sofar body ps next? hr ih =>
    rcases List.mem_cons.mp h with rfl | h
    · exact ⟨fun q hq => .inl hq, by simp, .inl rfl⟩
    · have hb := ih h
      refine ⟨fun q hq => ?_, ?_, ?_⟩
      · rcases hb.pieces q hq with hm | hm
        · exact absurd hm (by simp)
        · exact .inr (by simp [hm])
      · have := hb.length
        simp only [List.length_nil, List.length_cons] at this ⊢
        omega
      · rcases hb.condition with hc | ⟨body', hm, hr'⟩
        · exact .inr ⟨body, by simp, by rw [hc]; exact hr⟩
        · exact .inr ⟨body', by simp [hm], hr'⟩
  | case4 condition? sofar body ps condition depth hr ih => exact (ih h).grow
  | case5 condition? sofar body ps depth hr ih => exact (ih h).grow
  | case6 condition? sofar body ps next? depth hr ih => exact (ih h).grow
  | case7 condition? sofar body ps depth hr ih => exact (ih h).grow

/-- A tag between branches ends one and starts another. -/
theorem branches_branch {condition? next? : Option Text} {body : Text} {sofar ps : List (Piece P)}
    (hr : reading d d.conditionalTag body = some (.branch next?)) :
    branches d 0 condition? sofar (.tag body :: ps) =
      (condition?, sofar) :: branches d 0 next? [] ps := by
  simp only [branches, hr]

/-- Pieces that stay in one branch while enough conditionals are open. -/
def Kept (d : Delimiters) (low : Nat) (ps : List (Piece P)) : Prop :=
  ∀ depth condition? sofar qs, low ≤ depth →
    branches d depth condition? sofar (ps ++ qs) = branches d depth condition? (sofar ++ ps) qs

namespace Kept

variable {low : Nat} {body front back condition : Text} {ps qs : List (Piece P)}

theorem nil : Kept (P := P) d low [] := fun depth condition? sofar qs _ => by simp

theorem append (hps : Kept d low ps) (hqs : Kept d low qs) : Kept d low (ps ++ qs) := by
  intro depth condition? sofar rs hlow
  rw [List.append_assoc, hps _ _ _ _ hlow, hqs _ _ _ _ hlow, List.append_assoc]

theorem plain (p : P) (hps : Kept d low ps) : Kept d low (.plain p :: ps) := by
  intro depth condition? sofar qs hlow
  rw [List.cons_append, branches, hps _ _ _ _ hlow, List.append_assoc]
  rfl

theorem other (hr : reading d d.conditionalTag body = none) (hps : Kept d low ps) :
    Kept d low (.tag body :: ps) := by
  intro depth condition? sofar qs hlow
  simp only [List.cons_append, branches, hr]
  rw [hps _ _ _ _ hlow, List.append_assoc]
  rfl

/-- Inside a conditional, the branches of another do not matter. -/
theorem branch {next? : Option Text} (hr : reading d d.conditionalTag body = some (.branch next?))
    (hlow : 0 < low) (hps : Kept d low ps) : Kept d low (.tag body :: ps) := by
  intro depth condition? sofar qs hdepth
  obtain ⟨depth, rfl⟩ : ∃ n, depth = n + 1 := ⟨depth - 1, by omega⟩
  simp only [List.cons_append, branches, hr]
  rw [hps _ _ _ _ hdepth, List.append_assoc]
  rfl

theorem choice (hfront : reading d d.conditionalTag front = some (.opening condition))
    (hback : reading d d.conditionalTag back = some .closing) (hps : Kept d (low + 1) ps)
    (hqs : Kept d low qs) : Kept d low (.tag front :: (ps ++ .tag back :: qs)) := by
  intro depth condition? sofar rs hlow
  simp only [List.cons_append, branches, hfront]
  rw [List.append_assoc, hps _ _ _ _ (Nat.succ_le_succ hlow)]
  simp only [List.cons_append, branches, hback]
  rw [Nat.succ_sub_one, hqs _ _ _ _ hlow]
  simp

end Kept

/-- What survives of branches: what belongs to the first whose condition holds, or that has
none. -/
def survivor {β : Type} (ctx : Context) : List (Option Text × β) → Option β
  | [] => none
  | (none, x) :: _ => some x
  | (some condition, x) :: bs =>
    match Condition.read condition with
    | .ok e => if e.holds ctx then some x else survivor ctx bs
    | .error _ => (bs.find? (·.1.isNone)).map (·.2)

theorem survivor_map {β γ : Type} (ctx : Context) (f : β → γ) (bs : List (Option Text × β)) :
    survivor ctx (bs.map fun x => (x.1, f x.2)) = (survivor ctx bs).map f := by
  induction bs with
  | nil => rfl
  | cons b bs ih =>
    obtain ⟨condition?, x⟩ := b
    cases condition? with
    | none => rfl
    | some condition =>
      rw [List.map_cons, survivor, survivor, ih]
      cases Condition.read condition with
      | ok e =>
        dsimp only
        split <;> rfl
      | error err =>
        dsimp only
        rw [List.find?_map, Option.map_map, Option.map_map]
        rfl

/-- A branch by its condition and its text. -/
def branchText (s : Text) (b : Branch) : Option Text × Text := (b.condition?, b.body s)

theorem select?_eq (ctx : Context) (s : Text) (bs : List Branch) :
    (Branch.select? ctx bs).map (·.body s) = survivor ctx (bs.map (branchText s)) := by
  induction bs with
  | nil => rfl
  | cons b bs ih =>
    rw [List.map_cons, branchText, Branch.select?]
    cases hc : b.condition? with
    | none => rfl
    | some condition =>
      rw [survivor]
      cases hr : Condition.read condition with
      | ok e =>
        simp only [hr]
        split
        · rfl
        · exact ih
      | error err =>
        simp only [hr]
        rw [List.find?_map, Option.map_map]
        rfl

/-- Contexts that agree on the conditions of branches let the same one survive. -/
theorem survivor_congr {β : Type} {ctx ctx' : Context} {bs : List (Option Text × β)}
    (h : ∀ condition, (∃ x, (some condition, x) ∈ bs) →
      ∀ e, Condition.read condition = .ok e → e.holds ctx = e.holds ctx') :
    survivor ctx bs = survivor ctx' bs := by
  induction bs with
  | nil => rfl
  | cons b bs ih =>
    have ih := ih fun condition ⟨x, hx⟩ => h condition ⟨x, by simp [hx]⟩
    obtain ⟨condition?, x⟩ := b
    cases condition? with
    | none => rfl
    | some condition =>
      rw [survivor, survivor, ih]
      cases hr : Condition.read condition with
      | ok e => simp only [h condition ⟨x, by simp⟩ e hr]
      | error err => rfl

theorem survivor_mem {β : Type} {ctx : Context} {bs : List (Option Text × β)} {x : β}
    (h : survivor ctx bs = some x) : ∃ condition?, (condition?, x) ∈ bs := by
  induction bs with
  | nil => exact absurd h (by simp [survivor])
  | cons b bs ih =>
    obtain ⟨condition?, y⟩ := b
    cases condition? with
    | none =>
      obtain rfl := Option.some.inj h
      exact ⟨none, by simp⟩
    | some condition =>
      rw [survivor] at h
      cases hr : Condition.read condition with
      | ok e =>
        rw [hr] at h
        dsimp only at h
        split at h
        · obtain rfl := Option.some.inj h
          exact ⟨some condition, by simp⟩
        · obtain ⟨c?, hc⟩ := ih h
          exact ⟨c?, by simp [hc]⟩
      | error err =>
        rw [hr] at h
        obtain ⟨⟨c?, z⟩, hfind, rfl⟩ := Option.map_eq_some_iff.mp h
        exact ⟨c?, by simp [List.mem_of_find?_eq_some hfind]⟩

/-! ## Splitting a written outline -/

/-- The condition that a tag puts in front of a branch. -/
def conditionOf : Conditional → Option Text
  | .opening condition => some condition
  | .branch condition? => condition?
  | .closing => none

theorem condition?_eq (b : Branch) : b.condition? = conditionOf b.tag.content := by
  unfold Branch.condition?
  cases b.tag.content <;> rfl

/-- What a split of tags says: the branches, where the conditional stops, and the tags behind. -/
def splitSpan (s : Text) (x : List Branch × Tag Conditional × List (Tag Conditional)) :
    List (Option Text × Text) × Nat × List (Tag Conditional) :=
  (x.1.map (branchText s), x.2.1.stop, x.2.2)

/-- What a split of pieces says, for a position. -/
def splitPieces (d : Delimiters) (w : P → Text) (depth : Nat) (condition? : Option Text)
    (sofar : List (Piece P)) (pos : Nat) (x : List (Piece P) × Text × List (Piece P)) :
    List (Option Text × Text) × Nat × List (Tag Conditional) :=
  let stop := pos + (write d w x.1).length + (d.enclose x.2.1).length
  ((branches d depth condition? sofar x.1).map fun b => (b.1, write d w b.2), stop,
    locate d w (tagAt d d.conditionalTag) stop x.2.2)

theorem body_of_front {front : Tag Conditional} {s pre rest : Text} {sofar : List (Piece P)}
    (hs : s = pre ++ (write d w sofar ++ rest)) (hfront : front.stop = pre.length) :
    branchText s ⟨front, pre.length + (write d w sofar).length⟩ =
      (conditionOf front.content, write d w sofar) := by
  rw [branchText, condition?_eq, Branch.body, Text.slice, hfront, Nat.add_sub_cancel_left, hs,
    List.drop_left, List.take_left]

theorem splitPieces_cons {q : Piece P} {depth depth' pos : Nat} {condition? : Option Text}
    {sofar : List (Piece P)}
    (hb : ∀ inside, branches d depth condition? sofar (q :: inside) =
      branches d depth' condition? (sofar ++ [q]) inside)
    (x : Option (List (Piece P) × Text × List (Piece P))) :
    (x.map fun x => (q :: x.1, x.2)).map (splitPieces d w depth condition? sofar pos) =
      x.map (splitPieces d w depth' condition? (sofar ++ [q]) (pos + (q.text d w).length)) := by
  rw [Option.map_map]
  congr 1
  funext x
  simp [splitPieces, hb, Nat.add_assoc]

/-- The tags of some pieces, behind a text and what has been read of a branch, are split where the
pieces are. -/
def SplitsAt (d : Delimiters) (w : P → Text) (s pre : Text) (front : Tag Conditional) (depth : Nat)
    (sofar ps : List (Piece P)) : Prop :=
  let pos := pre.length + (write d w sofar).length
  (Branch.split? depth front (locate d w (tagAt d d.conditionalTag) pos ps)).map (splitSpan s) =
    (splitClose (opensChoice d) (closesChoice d) depth ps).map
      (splitPieces d w depth (conditionOf front.content) sofar pos)

section

variable {s pre body : Text} {front : Tag Conditional} {depth depth' : Nat}
  {sofar ps : List (Piece P)}

/-- A piece that does not end the branch is added to what has been read of it. -/
theorem SplitsAt.grow (depth : Nat) {q : Piece P}
    (h : SplitsAt d w s pre front depth' (sofar ++ [q]) ps)
    (hbranches : ∀ inside, branches d depth (conditionOf front.content) sofar (q :: inside) =
      branches d depth' (conditionOf front.content) (sofar ++ [q]) inside) :
    (Branch.split? depth' front (locate d w (tagAt d d.conditionalTag)
      (pre.length + (write d w sofar).length + (q.text d w).length) ps)).map (splitSpan s) =
    ((splitClose (opensChoice d) (closesChoice d) depth' ps).map fun x => (q :: x.1, x.2)).map
      (splitPieces d w depth (conditionOf front.content) sofar
        (pre.length + (write d w sofar).length)) := by
  have hlen : pre.length + (write d w sofar).length + (q.text d w).length =
      pre.length + (write d w (sofar ++ [q])).length := by
    simp [Nat.add_assoc]
  rw [splitPieces_cons hbranches, hlen]
  exact h

/-- A tag that is none of the conditional's own is added to the branch. -/
theorem SplitsAt.other (hr : reading d d.conditionalTag body = none)
    (h : SplitsAt d w s pre front depth (sofar ++ [.tag body]) ps) :
    SplitsAt d w s pre front depth sofar (.tag body :: ps) := by
  have ho : opensChoice d body = false := by rw [opensChoice, hr]
  have hc : closesChoice d body = false := by rw [closesChoice, hr]
  have := h.grow depth fun inside => by simp only [branches, hr]
  simpa [SplitsAt, locate, tagAt, hr, splitClose, ho, hc, Piece.text] using this

/-- So is a tag that opens another conditional, and all up to where that closes. -/
theorem SplitsAt.opening {condition : Text}
    (hr : reading d d.conditionalTag body = some (.opening condition))
    (h : SplitsAt d w s pre front (depth + 1) (sofar ++ [.tag body]) ps) :
    SplitsAt d w s pre front depth sofar (.tag body :: ps) := by
  have ho : opensChoice d body = true := by rw [opensChoice, hr]
  have hc : closesChoice d body = false := by rw [closesChoice, hr]
  have := h.grow depth fun inside => by simp only [branches, hr]
  simpa [SplitsAt, locate, tagAt, hr, splitClose, ho, hc, Piece.text, Branch.split?] using this

/-- A tag that closes another conditional. -/
theorem SplitsAt.inner_closing (hr : reading d d.conditionalTag body = some .closing)
    (h : SplitsAt d w s pre front depth (sofar ++ [.tag body]) ps) :
    SplitsAt d w s pre front (depth + 1) sofar (.tag body :: ps) := by
  have ho : opensChoice d body = false := by rw [opensChoice, hr]
  have hc : closesChoice d body = true := by rw [closesChoice, hr]
  have := h.grow (depth + 1) fun inside => by simp [branches, hr]
  simpa [SplitsAt, locate, tagAt, hr, splitClose, ho, hc, Piece.text, Branch.split?] using this

/-- A tag that starts a branch of another conditional. -/
theorem SplitsAt.inner_branch {next? : Option Text}
    (hr : reading d d.conditionalTag body = some (.branch next?))
    (h : SplitsAt d w s pre front (depth + 1) (sofar ++ [.tag body]) ps) :
    SplitsAt d w s pre front (depth + 1) sofar (.tag body :: ps) := by
  have ho : opensChoice d body = false := by rw [opensChoice, hr]
  have hc : closesChoice d body = false := by rw [closesChoice, hr]
  have := h.grow (depth + 1) fun inside => by simp only [branches, hr]
  simpa [SplitsAt, locate, tagAt, hr, splitClose, ho, hc, Piece.text, Branch.split?] using this

/-- The tag that closes the conditional ends its last branch. -/
theorem SplitsAt.closing (hr : reading d d.conditionalTag body = some .closing)
    (hbody : branchText s ⟨front, pre.length + (write d w sofar).length⟩ =
      (conditionOf front.content, write d w sofar)) :
    SplitsAt d w s pre front 0 sofar (.tag body :: ps) := by
  have ho : opensChoice d body = false := by rw [opensChoice, hr]
  have hc : closesChoice d body = true := by rw [closesChoice, hr]
  simp [SplitsAt, locate, tagAt, hr, splitClose, ho, hc, Branch.split?, splitSpan, splitPieces,
    Tag.stop, branches, hbody]

/-- A tag that starts the next branch ends the one before, and is in front of the next. -/
theorem SplitsAt.branch {next? : Option Text}
    (hr : reading d d.conditionalTag body = some (.branch next?))
    (hbody : branchText s ⟨front, pre.length + (write d w sofar).length⟩ =
      (conditionOf front.content, write d w sofar))
    (h : SplitsAt d w s (pre ++ (write d w sofar ++ d.enclose body))
      ⟨pre.length + (write d w sofar).length, d.enclose body, .branch next?,
        d.enclose_ne_nil body⟩ 0 [] ps) :
    SplitsAt d w s pre front 0 sofar (.tag body :: ps) := by
  have ho : opensChoice d body = false := by rw [opensChoice, hr]
  have hc : closesChoice d body = false := by rw [closesChoice, hr]
  have hlen : (pre ++ (write d w sofar ++ d.enclose body)).length + (write d w []).length =
      pre.length + (write d w sofar).length + (d.enclose body).length := by
    simp [Nat.add_assoc]
  simp only [SplitsAt, hlen, conditionOf] at h
  have hstep : ∀ x, splitPieces d w 0 (conditionOf front.content) sofar
      (pre.length + (write d w sofar).length) (.tag body :: x.1, x.2) =
        let rest := splitPieces d w 0 next? []
          (pre.length + (write d w sofar).length + (d.enclose body).length) x
        ((conditionOf front.content, write d w sofar) :: rest.1, rest.2) := by
    intro x
    simp [splitPieces, branches, hr, Piece.text, Nat.add_assoc]
  simp only [SplitsAt, locate, tagAt, hr, Option.toList_some, List.map_cons, List.map_nil,
    List.cons_append, List.nil_append, Branch.split?, splitClose, ho, hc, Option.map_map,
    Function.comp_def, hstep]
  cases hsplit : splitClose (opensChoice d) (closesChoice d) 0 ps with
  | none =>
    rw [hsplit] at h
    rw [Option.map_eq_none_iff.mp h]
    rfl
  | some x =>
    rw [hsplit, Option.map_some] at h
    obtain ⟨⟨bs, last, rest⟩, hsome, hspan⟩ := Option.map_eq_some_iff.mp h
    rw [hsome, Option.map_some, Option.map_some, ← hspan]
    simp [splitSpan, hbody]

/-- The tags of a conditional are split where its pieces are. -/
theorem split?_locate (hfront : front.stop = pre.length) (depth : Nat) (sofar : List (Piece P))
    (hs : s = pre ++ (write d w sofar ++ write d w ps)) :
    SplitsAt d w s pre front depth sofar ps := by
  induction ps generalizing pre front depth sofar with
  | nil => cases depth <;> rfl
  | cons q ps ih =>
    have hgrow : ∀ depth', SplitsAt d w s pre front depth' (sofar ++ [q]) ps :=
      fun depth' => ih hfront depth' (sofar ++ [q]) (by rw [hs]; simp)
    have hbody := body_of_front hs hfront
    cases q with
    | plain p => exact (hgrow depth).grow depth fun _ => rfl
    | tag body =>
      cases hr : reading d d.conditionalTag body with
      | none => exact .other hr (hgrow depth)
      | some c =>
        cases c with
        | opening condition => exact .opening hr (hgrow (depth + 1))
        | closing =>
          cases depth with
          | zero => exact .closing hr hbody
          | succ depth => exact .inner_closing hr (hgrow depth)
        | branch next? =>
          cases depth with
          | zero =>
            refine .branch hr hbody (ih ?_ 0 [] ?_)
            · simp [Tag.stop, Nat.add_assoc]
            · rw [hs]
              simp [Piece.text]
          | succ depth => exact .inner_branch hr (hgrow (depth + 1))

end

/-! ## The conditionals of a written outline -/

/-- A conditional by its two ends and its branches. -/
def choiceSpan (s : Text) (c : Choice) : Nat × Nat × List (Option Text × Text) :=
  (c.start, c.stop, c.branches.map (branchText s))

/-- The branches of a conditional with a condition in front, and what they enclose. -/
def branchTexts (d : Delimiters) (w : P → Text) (condition : Text) (inside : List (Piece P)) :
    List (Option Text × Text) :=
  (branches d 0 (some condition) [] inside).map fun b => (b.1, write d w b.2)

theorem ofTags_cons (t : Tag Conditional) (ts : List (Tag Conditional)) :
    Choice.ofTags (t :: ts) =
      match t.content with
      | .opening _ =>
        match Branch.split? 0 t ts with
        | some (bs, last, rest) => ⟨t.start, bs, last.stop⟩ :: Choice.ofTags rest
        | none => Choice.ofTags ts
      | _ => Choice.ofTags ts := by
  rw [Choice.ofTags]
  cases hc : t.content with
  | opening condition =>
    simp only
    split <;> rename_i h <;> simp only [h]
  | branch next? => rfl
  | closing => rfl

theorem pairFrom_choice {body condition : Text}
    (hr : reading d d.conditionalTag body = some (.opening condition)) (ps : List (Piece P)) :
    pairFrom (choicePairing d) body ps =
      (splitClose (opensChoice d) (closesChoice d) 0 ps).map (condition, ·) := by
  simp only [pairFrom, choicePairing, hr, List.findSome?_cons, List.findSome?_nil]
  cases splitClose (opensChoice d) (closesChoice d) 0 ps <;> rfl

theorem reading_of_heads {body condition : Text} (h : condition ∈ (choicePairing d).heads body) :
    reading d d.conditionalTag body = some (.opening condition) := by
  simp only [choicePairing] at h
  split at h
  · rename_i hr
    rw [List.mem_singleton.mp h]
    exact hr
  · exact absurd h (by simp)

theorem reading_of_pairFrom {body condition : Text} {ps : List (Piece P)}
    {x : List (Piece P) × Text × List (Piece P)}
    (h : pairFrom (choicePairing d) body ps = some (condition, x)) :
    reading d d.conditionalTag body = some (.opening condition) ∧
      splitClose (opensChoice d) (closesChoice d) 0 ps = some x := by
  obtain ⟨before, after, hheads, -, hsplit⟩ := pairFrom_eq_some h
  exact ⟨reading_of_heads (by rw [hheads]; simp), hsplit⟩

/-- The conditionals of a written outline are its outermost pairs. -/
theorem ofTags_locate {s pre : Text} {ps : List (Piece P)} (hs : s = pre ++ write d w ps) :
    (Choice.ofTags (locate d w (tagAt d d.conditionalTag) pre.length ps)).map (choiceSpan s) =
      (spans d w pre.length (segments (choicePairing d) ps)).map
        fun x => (x.1, x.2.1, branchTexts d w x.2.2.1 x.2.2.2) := by
  fun_induction segments (choicePairing d) ps generalizing pre with
  | case1 => simp [locate, Choice.ofTags, spans]
  | case2 p ps ih =>
    have hs' : s = (pre ++ w p) ++ write d w ps := by simpa [Piece.text] using hs
    have := ih hs'
    simpa [locate, spans, Piece.text] using this
  | case3 body ps hn ih =>
    have hs' : s = (pre ++ d.enclose body) ++ write d w ps := by simpa [Piece.text] using hs
    have hrest := ih hs'
    rw [List.length_append] at hrest
    rw [locate, spans, Piece.text, ← hrest]
    cases hr : reading d d.conditionalTag body with
    | none => simp [tagAt, hr]
    | some c =>
      simp only [tagAt, hr, Option.toList_some, List.map_cons, List.map_nil, List.cons_append,
        List.nil_append]
      rw [ofTags_cons]
      cases c with
      | opening condition =>
        -- the conditional is not closed, and the tag stays
        rw [pairFrom_choice hr] at hn
        have hstop : Tag.stop ⟨pre.length, d.enclose body, Conditional.opening condition,
            d.enclose_ne_nil body⟩ = (pre ++ d.enclose body).length := by simp [Tag.stop]
        have hsplit := split?_locate hstop 0 [] hs'
        rw [SplitsAt, Option.map_eq_none_iff.mp hn] at hsplit
        have hnone := Option.map_eq_none_iff.mp hsplit
        rw [write_nil, List.length_nil, Nat.add_zero, List.length_append] at hnone
        simp only [hnone]
      | branch next? => rfl
      | closing => rfl
  | case4 body ps condition inside back rest hsome hlt ih =>
    obtain ⟨hr, hclose⟩ := reading_of_pairFrom hsome
    have hps := pairFrom_eq hsome
    have hs' : s = (pre ++ d.enclose body) ++ write d w ps := by simpa [Piece.text] using hs
    have hstop : Tag.stop ⟨pre.length, d.enclose body, Conditional.opening condition,
        d.enclose_ne_nil body⟩ = (pre ++ d.enclose body).length := by simp [Tag.stop]
    have hsplit := split?_locate hstop 0 [] hs'
    rw [SplitsAt, hclose, Option.map_some, write_nil, List.length_nil, Nat.add_zero,
      List.length_append] at hsplit
    obtain ⟨⟨bs, last, tags⟩, hbs, hspan⟩ := Option.map_eq_some_iff.mp hsplit
    simp only [splitSpan, splitPieces, Prod.mk.injEq, conditionOf] at hspan
    obtain ⟨htexts, hstop, rfl⟩ := hspan
    have hs'' : s = (pre ++ write d w (.tag body :: (inside ++ [.tag back]))) ++
        write d w rest := by
      rw [hs, hps]
      simp
    have hrest := ih hs''
    have hlen : (pre ++ write d w (.tag body :: (inside ++ [.tag back]))).length =
        pre.length + (d.enclose body).length + (write d w inside).length +
          (d.enclose back).length := by
      simp [Piece.text, Nat.add_assoc]
    rw [hlen] at hrest
    simp only [locate, tagAt, hr, Option.toList_some, List.map_cons, List.map_nil, List.cons_append,
      List.nil_append, spans]
    rw [ofTags_cons]
    simp only [hbs, List.map_cons]
    rw [← hrest, choiceSpan, htexts, hstop]
    rfl

theorem resolveConditionals_eq (d : Delimiters) (ctx : Context) (s : Text) :
    resolveConditionals d ctx s =
      s.splice ((Choice.ofTags (Tag.scan d.conditionalTag s)).map fun choice =>
        ⟨choice.start, choice.stop,
          ((survivor ctx (choice.branches.map (branchText s))).map
            (resolveConditionals d ctx)).getD []⟩) := by
  rw [resolveConditionals]
  split
  · rename_i hs
    subst hs
    simp [Tag.scan, Tag.scanFrom, Choice.ofTags, Text.splice, Text.spliceFrom]
  · congr 1
    refine List.map_congr_left fun choice _ => ?_
    rw [← select?_eq]
    cases Branch.select? ctx choice.branches <;> rfl

/-- Resolving the conditionals of a text in which a scan finds the tags of an outline. -/
theorem resolveConditionals_of_scan (ctx : Context) {ps : List (Piece P)}
    (hscan : Tag.scan d.conditionalTag (write d w ps) =
      locate d w (tagAt d d.conditionalTag) 0 ps) :
    resolveConditionals d ctx (write d w ps) =
      (segments (choicePairing d) ps).flatMap (replaced d w fun condition inside =>
        ((survivor ctx (branches d 0 (some condition) [] inside)).map fun branch =>
          resolveConditionals d ctx (write d w branch)).getD []) := by
  have hspan := congrArg (List.map fun x : Nat × Nat × List (Option Text × Text) =>
      (⟨x.1, x.2.1, ((survivor ctx x.2.2).map (resolveConditionals d ctx)).getD []⟩ : Edit))
    (ofTags_locate (show write d w ps = [] ++ write d w ps from rfl))
  rw [List.map_map, List.map_map] at hspan
  rw [resolveConditionals_eq, hscan, ← splice_spans]
  refine (congrArg (Text.splice (write d w ps)) hspan).trans ?_
  congr 1
  refine List.map_congr_left fun x _ => ?_
  simp only [Function.comp, branchTexts]
  rw [survivor_map, Option.map_map]
  rfl

/-- Resolving the conditionals of an outline. -/
theorem resolveConditionals_write (hd : d.Apart) (ctx : Context) {ps : List (Piece P)}
    (hps : Tidy d w ps) :
    resolveConditionals d ctx (write d w ps) =
      (segments (choicePairing d) ps).flatMap (replaced d w fun condition inside =>
        ((survivor ctx (branches d 0 (some condition) [] inside)).map fun branch =>
          resolveConditionals d ctx (write d w branch)).getD []) :=
  resolveConditionals_of_scan ctx (scanFrom_write hd (Delimiters.delimited_conditionalTag hd) hps 0)

/-! ## Resolving piece by piece -/

theorem resolveConditionals_plain (hd : d.Apart) (ctx : Context) {p : P} {ps : List (Piece P)}
    (hps : Tidy d w (.plain p :: ps)) :
    resolveConditionals d ctx (write d w (.plain p :: ps)) =
      w p ++ resolveConditionals d ctx (write d w ps) := by
  rw [resolveConditionals_write hd ctx hps, resolveConditionals_write hd ctx hps.tail, segments]
  rfl

theorem resolveConditionals_other (hd : d.Apart) (ctx : Context) {body : Text}
    {ps : List (Piece P)} (hps : Tidy d w (.tag body :: ps))
    (hr : reading d d.conditionalTag body = none) :
    resolveConditionals d ctx (write d w (.tag body :: ps)) =
      d.enclose body ++ resolveConditionals d ctx (write d w ps) := by
  have hnone : pairFrom (choicePairing d) body ps = none := by simp [pairFrom, choicePairing, hr]
  rw [resolveConditionals_write hd ctx hps, resolveConditionals_write hd ctx hps.tail,
    segments_cons_none hnone]
  rfl

theorem resolveConditionals_choice (hd : d.Apart) (ctx : Context) {front back condition : Text}
    {inside ps : List (Piece P)} (hps : Tidy d w (.tag front :: (inside ++ .tag back :: ps)))
    (hr : reading d d.conditionalTag front = some (.opening condition))
    (hclose : splitClose (opensChoice d) (closesChoice d) 0 (inside ++ .tag back :: ps) =
      some (inside, back, ps)) :
    resolveConditionals d ctx (write d w (.tag front :: (inside ++ .tag back :: ps))) =
      ((survivor ctx (branches d 0 (some condition) [] inside)).map fun branch =>
        resolveConditionals d ctx (write d w branch)).getD [] ++
          resolveConditionals d ctx (write d w ps) := by
  have hpair : pairFrom (choicePairing d) front (inside ++ .tag back :: ps) =
      some (condition, inside, back, ps) := by
    rw [pairFrom_choice hr, hclose]
    rfl
  have hrest : Tidy d w ps := fun q hq => hps q (by simp [hq])
  rw [resolveConditionals_write hd ctx hps, resolveConditionals_write hd ctx hrest,
    segments_cons_some hpair]
  rfl

end Outline

end Stencil
