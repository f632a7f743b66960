import Stencil.Proofs.Tag.Extent

/-!
# Balancing tags

A tag that closes balances an opening tag if in between as many tags open as close. Loops, blocks
and conditionals look for such a tag, each in its own row of tags. What they find balances, so they
find nothing where nothing does.
-/

namespace Stencil

variable {α κ : Type}

/-- Behind an opening, a row has something that closes with as many openings as closings in
front. -/
def Balanced (opens closes : α → Bool) (row : List α) : Prop :=
  ∃ i : Fin row.length, closes row[i] = true ∧
    (row.take i).countP opens = (row.take i).countP closes

instance (opens closes : α → Bool) (row : List α) : Decidable (Balanced opens closes row) :=
  inferInstanceAs (Decidable (∃ _ : Fin _, _))

theorem balanced_of_append {opens closes : α → Bool} {between back : List α} {c : α}
    (hc : closes c = true) (h : between.countP opens = between.countP closes) :
    Balanced opens closes (between ++ c :: back) :=
  ⟨⟨between.length, by simp⟩, by simpa using hc, by simpa using h⟩

section

variable {opens closes : α → Bool} {depth depth' : Nat} {x : α} {row : List α}

/-- As many members of a row open as close, those counted that were open before. -/
def LevelFrom (opens closes : α → Bool) (depth : Nat) (row : List α) : Prop :=
  row.countP opens + depth = row.countP closes

instance (opens closes : α → Bool) (depth : Nat) (row : List α) :
    Decidable (LevelFrom opens closes depth row) :=
  inferInstanceAs (Decidable (_ = _))

/-- No member of a row is the first that closes what was open before and is not closed in
between. -/
def Unspent (opens closes : α → Bool) (depth : Nat) (row : List α) : Prop :=
  ∀ pre c post, row = pre ++ c :: post → closes c = true → ¬ LevelFrom opens closes depth pre

theorem levelFrom_cons (h : depth' + (closes x).toNat = depth + (opens x).toNat) :
    LevelFrom opens closes depth (x :: row) ↔ LevelFrom opens closes depth' row := by
  unfold LevelFrom
  rw [List.countP_cons, List.countP_cons]
  cases ho : opens x <;> cases hc : closes x <;> simp_all <;> omega

theorem unspent_nil : Unspent opens closes depth [] := fun pre c post h => absurd h (by simp)

theorem Unspent.cons (h : Unspent opens closes depth' row)
    (hshift : depth' + (closes x).toNat = depth + (opens x).toNat)
    (hx : closes x = true → depth ≠ 0) : Unspent opens closes depth (x :: row) := by
  intro pre c post heq hc
  cases pre with
  | nil =>
    obtain ⟨rfl, -⟩ := List.cons.inj heq
    simpa [LevelFrom] using hx hc
  | cons y pre =>
    obtain ⟨rfl, hrow⟩ := List.cons.inj heq
    rw [levelFrom_cons hshift]
    exact h pre c post hrow hc

end

namespace Tag

namespace Edge

/-- Whether a tag opens. -/
def isOpening : Edge κ → Bool
  | .opening _ => true
  | .closing _ => false

/-- Whether a tag closes. -/
def isClosing : Edge κ → Bool
  | .opening _ => false
  | .closing _ => true

theorem shift_opening (t : Tag κ) (depth : Nat) :
    depth + 1 + (isClosing (.opening t)).toNat = depth + (isOpening (.opening t)).toNat := rfl

theorem shift_closing (t : Tag κ) (depth : Nat) :
    depth + (isClosing (.closing t)).toNat = depth + 1 + (isOpening (.closing t)).toNat := rfl

/-- In front of the first unmatched closing tag as many tags close as open, those counted that were
open before, and that is so in front of no closing tag before it. -/
theorem unmatched?_eq_some {depth : Nat} {es : List (Edge κ)} {c : Tag κ}
    (h : unmatched? depth es = some c) : ∃ between back, es = between ++ .closing c :: back ∧
      LevelFrom isOpening isClosing depth between ∧ Unspent isOpening isClosing depth between := by
  fun_induction unmatched? depth es with
  | case1 => exact absurd h (by simp)
  | case2 depth t es ih =>
    obtain ⟨between, back, rfl, hlevel, hfirst⟩ := ih h
    exact ⟨.opening t :: between, back, rfl, (levelFrom_cons (shift_opening t depth)).mpr hlevel,
      hfirst.cons (shift_opening t depth) (by simp [isClosing])⟩
  | case3 t es =>
    obtain rfl := Option.some.inj h
    exact ⟨[], es, rfl, rfl, unspent_nil⟩
  | case4 depth t es ih =>
    obtain ⟨between, back, rfl, hlevel, hfirst⟩ := ih h
    exact ⟨.closing t :: between, back, rfl, (levelFrom_cons (shift_closing t depth)).mpr hlevel,
      hfirst.cons (shift_closing t depth) (by simp)⟩

/-- Where no closing tag is unmatched, none closes what was open before. -/
theorem unspent_of_unmatched? {depth : Nat} {es : List (Edge κ)} (h : unmatched? depth es = none) :
    Unspent isOpening isClosing depth es := by
  fun_induction unmatched? depth es with
  | case1 => exact unspent_nil
  | case2 depth t es ih => exact (ih h).cons (shift_opening t depth) (by simp [isClosing])
  | case3 => exact absurd h (by simp)
  | case4 depth t es ih => exact (ih h).cons (shift_closing t depth) (by simp)

end Edge

section

variable {γ : Type} {start : γ → Nat} {xs ys : List γ}

/-- Two rows in order that share no position are merged into a row in order. -/
theorem pairwise_merge (hxs : xs.Pairwise fun x y => start x < start y)
    (hys : ys.Pairwise fun x y => start x < start y) (hne : ∀ x ∈ xs, ∀ y ∈ ys, start x ≠ start y) :
    (xs.merge ys fun x y => start x ≤ start y).Pairwise fun x y => start x < start y := by
  have hle : ∀ {zs : List γ}, zs.Pairwise (fun x y => start x < start y) →
      zs.Pairwise fun x y => decide (start x ≤ start y) = true := fun h =>
    h.imp fun hlt => decide_eq_true (Nat.le_of_lt hlt)
  have hsorted : (xs.merge ys fun x y => start x ≤ start y).Pairwise fun x y =>
      decide (start x ≤ start y) = true :=
    List.pairwise_merge (fun x y z hxy hyz => by simp at hxy hyz ⊢; omega)
      (fun x y => by simp; omega) xs ys
      (hle hxs) (hle hys)
  have hdistinct : (xs ++ ys).Pairwise fun x y => start x ≠ start y :=
    List.pairwise_append.mpr ⟨hxs.imp Nat.ne_of_lt, hys.imp Nat.ne_of_lt, hne⟩
  have hmerged :=
    (List.merge_perm_append fun x y => decide (start x ≤ start y)).symm.pairwise hdistinct Ne.symm
  exact (hsorted.and hmerged).imp fun h => Nat.lt_of_le_of_ne (of_decide_eq_true h.1) h.2

end

/-- Among the tags of a key behind a position, one balances an opening tag that ends there. -/
def Closed [DecidableEq κ] (opening closing : Recognizer κ) (key : κ) (s : Text) (pos : Nat) :
    Prop :=
  Balanced Edge.isOpening Edge.isClosing (Edge.edges opening closing key pos (s.drop pos))

/-- Nothing balances an opening tag if no closing tag of its key stands behind it. -/
theorem not_closed_of_forall [DecidableEq κ] {opening closing : Recognizer κ} {key : κ} {s : Text}
    {pos : Nat} (h : ∀ c ∈ scanFrom closing pos 0 (s.drop pos), c.content ≠ key) :
    ¬ Closed opening closing key s pos := by
  rintro ⟨i, hclosing, -⟩
  have hmem := List.getElem_mem i.isLt
  rw [Fin.getElem_fin] at hclosing
  generalize (Edge.edges opening closing key pos (s.drop pos))[i.val] = edge at hclosing hmem
  cases edge with
  | opening t => exact absurd hclosing (by simp [Edge.isClosing])
  | closing c =>
    simp only [Edge.edges, List.mem_merge, List.mem_map, List.mem_filter, decide_eq_true_eq,
      reduceCtorEq, and_false, exists_false, false_or, Edge.closing.injEq, exists_eq_right] at hmem
    exact h c hmem.1 hmem.2

theorem closing?_eq_none_of_not_closed [DecidableEq κ] {opening closing : Recognizer κ} {key : κ}
    {s : Text} {pos : Nat} (h : ¬ Closed opening closing key s pos) :
    closing? opening closing key s pos = none := by
  cases hc : closing? opening closing key s pos with
  | none => rfl
  | some c =>
    obtain ⟨between, back, hedges, hlevel, -⟩ := Edge.unmatched?_eq_some hc
    refine absurd ?_ h
    rw [Closed, hedges]
    exact balanced_of_append rfl hlevel

/-- If nothing is closed, nothing is enclosed. -/
theorem outermost_eq_nil_of_forall {close? : Tag α → Option (Tag κ)} {ts : List (Tag α)}
    (h : ∀ t ∈ ts, close? t = none) (cursor : Nat) : outermost close? cursor ts = [] := by
  induction ts with
  | nil => rfl
  | cons t ts ih => rw [outermost, h t (by simp), ih fun u hu => h u (by simp [hu]), ite_self]

end Tag

namespace Conditional

/-- Whether a tag opens a conditional. -/
def isOpening : Conditional → Bool
  | .opening _ => true
  | _ => false

/-- Whether a tag closes a conditional. -/
def isClosing : Conditional → Bool
  | .closing => true
  | _ => false

theorem exists_of_isOpening {c : Conditional} (h : c.isOpening = true) :
    ∃ condition, c = .opening condition := by
  cases c with
  | opening condition => exact ⟨condition, rfl⟩
  | branch condition? => exact absurd h (by simp [isOpening])
  | closing => exact absurd h (by simp [isOpening])

/-- A tag that opens a conditional does not close one. -/
theorem isClosing_of_isOpening {c : Conditional} (h : c.isOpening = true) :
    c.isClosing = false := by
  obtain ⟨condition, rfl⟩ := exists_of_isOpening h
  rfl

end Conditional

/-- The closing tag of a conditional balances its opening tag, those counted that were open
before. -/
theorem Branch.balanced_of_split? {depth : Nat} {front last : Tag Conditional}
    {ts rest : List (Tag Conditional)} {bs : List Branch}
    (h : split? depth front ts = some (bs, last, rest)) : ∃ between, ts = between ++ last :: rest ∧
      last.content.isClosing = true ∧ depth + between.countP (·.content.isOpening) =
        between.countP (·.content.isClosing) := by
  -- a tag in front of the rest of a row is one of those in between
  have hgrow : ∀ {t last : Tag Conditional} {ts rest : List (Tag Conditional)} {depth depth' : Nat},
      (∃ between, ts = between ++ last :: rest ∧ last.content.isClosing = true ∧
        depth' + between.countP (·.content.isOpening) = between.countP (·.content.isClosing)) →
      depth' + t.content.isClosing.toNat = depth + t.content.isOpening.toNat →
      ∃ between, t :: ts = between ++ last :: rest ∧ last.content.isClosing = true ∧
        depth + between.countP (·.content.isOpening) = between.countP (·.content.isClosing) := by
    rintro t last ts rest depth depth' ⟨between, rfl, hlast, hcount⟩ hdepth
    refine ⟨t :: between, rfl, hlast, ?_⟩
    rw [List.countP_cons, List.countP_cons]
    cases ho : t.content.isOpening <;> cases hc : t.content.isClosing <;> simp_all <;> omega
  fun_induction split? depth front ts generalizing bs last rest with
  | case1 => exact absurd h (by simp)
  | case2 depth front t ts condition ht ih => exact hgrow (ih h) (by rw [ht]; rfl)
  | case3 front t ts ht =>
    simp only [Option.some.injEq, Prod.mk.injEq] at h
    obtain ⟨-, rfl, rfl⟩ := h
    exact ⟨[], rfl, by rw [ht]; rfl, rfl⟩
  | case4 front t ts depth ht ih => exact hgrow (ih h) (by rw [ht]; rfl)
  | case5 front t ts condition? ht bs last rest hs ih =>
    simp only [Option.some.injEq, Prod.mk.injEq] at h
    obtain ⟨-, rfl, rfl⟩ := h
    exact hgrow (ih hs) (by rw [ht]; rfl)
  | case6 => exact absurd h (by simp)
  | case7 front t ts condition? depth ht ih => exact hgrow (ih h) (by rw [ht]; rfl)

namespace Choice

/-- No tag of a row opens a conditional that a tag behind it closes. -/
def Unclosed (ts : List (Tag Conditional)) : Prop :=
  ∀ i : Fin ts.length, ts[i].content.isOpening = true →
    ¬ Balanced (·.content.isOpening) (·.content.isClosing) (ts.drop (i + 1))

instance (ts : List (Tag Conditional)) : Decidable (Unclosed ts) :=
  inferInstanceAs (Decidable (∀ _ : Fin _, _))

theorem Unclosed.tail {t : Tag Conditional} {ts : List (Tag Conditional)} (h : Unclosed (t :: ts)) :
    Unclosed ts :=
  fun i hi => h i.succ hi

theorem Unclosed.split?_eq_none {t : Tag Conditional} {ts : List (Tag Conditional)}
    (h : Unclosed (t :: ts)) (ht : t.content.isOpening = true) : Branch.split? 0 t ts = none := by
  cases hs : Branch.split? 0 t ts with
  | none => rfl
  | some x =>
    obtain ⟨bs, last, rest⟩ := x
    obtain ⟨between, rfl, hlast, hcount⟩ := Branch.balanced_of_split? hs
    have hbalanced : Balanced (·.content.isOpening) (·.content.isClosing)
        (between ++ last :: rest) :=
      balanced_of_append hlast (by omega)
    exact absurd hbalanced (h ⟨0, by simp⟩ ht)

/-- If no conditional is closed, there is none. -/
theorem Unclosed.ofTags_eq_nil {ts : List (Tag Conditional)} (h : Unclosed ts) :
    ofTags ts = [] := by
  fun_induction ofTags ts with
  | case1 => rfl
  | case2 t ts condition ht bs last rest hs _ ih =>
    rw [h.split?_eq_none (by rw [ht]; rfl)] at hs
    exact absurd hs (by simp)
  | case3 t ts condition ht hs ih => exact ih h.tail
  | case4 t ts ht ih => exact ih h.tail

end Choice

end Stencil
