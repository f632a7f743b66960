import Stencil.Proofs.Outline.Choices
import Stencil.Proofs.Protection.Regions
import Stencil.Proofs.Tag.Balance

/-!
# Which conditionals a text has

In any row of tags, well formed or not, a tag that opens a conditional and a tag that closes one
make a pair if the second is the first behind the other with as many opening as closing tags in
between. Resolving the conditionals of a text puts a body of its own in the place of every outermost
pair, or nothing, and leaves the rest of the text as it is.
-/

namespace Stencil

namespace Conditional

/-- Whether a tag starts another branch of a conditional. -/
def isBranch : Conditional → Bool
  | .branch _ => true
  | _ => false

end Conditional

namespace Choice

/-! ## Pairs of a row -/

/-- As many tags of a row open a conditional as close one. -/
def Level (ts : List (Tag Conditional)) : Prop :=
  ts.countP (·.content.isOpening) = ts.countP (·.content.isClosing)

instance (ts : List (Tag Conditional)) : Decidable (Level ts) := inferInstanceAs (Decidable (_ = _))

/-- The tags strictly between two positions of a row. -/
def between (ts : List (Tag Conditional)) (i j : Nat) : List (Tag Conditional) :=
  (ts.drop (i + 1)).take (j - (i + 1))

/-- A tag that opens a conditional, and the first behind it that closes one with as many tags
opening as closing strictly between. -/
structure Paired (ts : List (Tag Conditional)) (i j : Fin ts.length) : Prop where
  /-- The one comes behind the other. -/
  lt : i < j
  /-- The first opens a conditional. -/
  opening : ts[i].content.isOpening = true
  /-- The second closes one. -/
  closing : ts[j].content.isClosing = true
  /-- Between the two as many tags open as close. -/
  level : Level (between ts i j)
  /-- That is so in front of no closing tag before. -/
  first : ∀ k, i < k → k < j → ts[k].content.isClosing = true → ¬ Level (between ts i k)

/-- A pair that no other pair encloses. -/
structure Outermost (ts : List (Tag Conditional)) (i j : Fin ts.length) : Prop
    extends Paired ts i j where
  /-- No pair starts in front of it and stops behind it. -/
  free : ∀ i' j', Paired ts i' j' → ¬ (i' < i ∧ j < j')

/-- The tags that split what a pair encloses: those that start a branch and have as many opening as
closing tags in front. -/
def dividers (inside : List (Tag Conditional)) : List (Tag Conditional) :=
  (inside.zipIdx.filter fun x => x.1.content.isBranch && decide (Level (inside.take x.2))).map (·.1)

/-- The branches of a pair: one behind its opening tag and one behind every divider, each up to the
next divider, and the last up to its closing tag. -/
def parts (opening closing : Tag Conditional) (inside : List (Tag Conditional)) : List Branch :=
  List.zipWith (fun front back => ⟨front, back.start⟩)
    (opening :: dividers inside) (dividers inside ++ [closing])

/-- The conditional of a pair. -/
def ofPair (ts : List (Tag Conditional)) (p : Fin ts.length × Fin ts.length) : Choice where
  start := ts[p.1].start
  branches := parts ts[p.1] ts[p.2] (between ts p.1 p.2)
  stop := ts[p.2].stop

variable {ts row inside rest : List (Tag Conditional)} {t front last : Tag Conditional}
  {i j k : Fin ts.length} {depth depth' : Nat}

/-! ### Positions -/

theorem drop_eq_between (h : i < j) :
    ts.drop (i + 1) = between ts i j ++ ts[j] :: ts.drop (j + 1) := by
  have hdrop : (ts.drop (i + 1)).drop (j - (i + 1)) = ts[j] :: ts.drop (j + 1) := by
    rw [List.drop_drop, Nat.add_sub_cancel' h]
    exact List.drop_eq_getElem_cons j.isLt
  rw [between, ← hdrop, List.take_append_drop]

theorem between_eq_append (hik : i < k) (hkj : k < j) :
    between ts i j = between ts i k ++ ts[k] :: between ts k j := by
  have hlt : (k : Nat) < j := hkj
  have hstep : (j : Nat) - (i + 1) = (k - (i + 1)) + ((j - (k + 1)) + 1) := by
    have : (i : Nat) < k := hik
    omega
  have hlen : (between ts i k).length = k - (i + 1) := by
    rw [between, List.length_take, List.length_drop]
    have := k.isLt
    omega
  rw [between, drop_eq_between hik, List.take_append, hlen, hstep, Nat.add_sub_cancel_left,
    List.take_succ_cons, List.take_of_length_le (by omega)]
  rfl

theorem between_succ (hik : i < k) (hk : k + 1 < ts.length) :
    between ts i (k + 1) = between ts i k ++ [ts[k]] := by
  have hlt : k < ⟨k + 1, hk⟩ := Nat.lt_succ_self k
  have := between_eq_append hik hlt
  rw [show between ts k (k + 1) = [] by simp [between]] at this
  exact this

/-! ### How pairs lie -/

namespace Paired

/-- Nothing between the tags of a pair closes more than is opened in front of it. -/
theorem countP_le {k : Nat} (h : Paired ts i j) (hik : i < k) (hkj : k ≤ j) :
    (between ts i k).countP (·.content.isClosing) ≤
      (between ts i k).countP (·.content.isOpening) := by
  induction k with
  | zero => exact absurd hik (Nat.not_lt_zero i)
  | succ k ih =>
    rcases Nat.eq_or_lt_of_le (Nat.le_of_lt_succ hik) with heq | hlt
    · simp [between, heq]
    · have hk : k + 1 < ts.length := Nat.lt_of_le_of_lt hkj j.isLt
      let at' : Fin ts.length := ⟨k, Nat.lt_of_succ_lt hk⟩
      have hprev := ih hlt (Nat.le_of_succ_le hkj)
      have hfirst : ts[at'].content.isClosing = true → ¬ Level (between ts i k) :=
        h.first at' hlt hkj
      rw [between_succ (k := at') hlt hk, List.countP_append, List.countP_append,
        List.countP_singleton, List.countP_singleton]
      -- where the counts are equal, the next tag does not close
      split
      · have hne : ¬ Level (between ts i k) := hfirst ‹_›
        unfold Level at hne
        exact Nat.le_trans (Nat.lt_of_le_of_ne hprev (Ne.symm hne)) (Nat.le_add_right _ _)
      · exact Nat.le_trans hprev (Nat.le_add_right _ _)

/-- A tag opens one conditional at most. -/
theorem unique {j' : Fin ts.length} (h : Paired ts i j) (h' : Paired ts i j') : j = j' := by
  rcases Nat.lt_trichotomy j j' with hlt | heq | hlt
  · exact absurd h.level (h'.first j h.lt hlt h.closing)
  · exact Fin.ext heq
  · exact absurd h'.level (h.first j' h'.lt hlt h'.closing)

/-- Pairs do not cross. -/
theorem nested {i' j' : Fin ts.length} (h : Paired ts i j) (h' : Paired ts i' j') (hi : i < i')
    (hle : i' ≤ j) : j' < j := by
  have hj : i' < j := by
    refine Nat.lt_of_le_of_ne hle fun heq => ?_
    have hclosing := h.closing
    rw [show j = i' from Fin.ext heq.symm, Conditional.isClosing_of_isOpening h'.opening]
      at hclosing
    exact absurd hclosing (by simp)
  -- otherwise the opening tag of the second would still be unclosed where the first stops
  refine Nat.lt_of_not_le fun hle => ?_
  have hfirst := h.countP_le (k := i') hi (Nat.le_of_lt hj)
  have hsecond := h'.countP_le (k := j) hj hle
  have hlevel : Level (between ts i j) := h.level
  rw [Level, between_eq_append hi hj] at hlevel
  simp only [List.countP_append, List.countP_cons, h'.opening,
    Conditional.isClosing_of_isOpening h'.opening, reduceIte, Bool.false_eq_true] at hlevel
  omega

end Paired

/-! ## Splitting a row -/

/-- As many tags of a row open as close, those counted that were open before. -/
abbrev LevelFrom (depth : Nat) (row : List (Tag Conditional)) : Prop :=
  Stencil.LevelFrom (fun t : Tag Conditional => t.content.isOpening) (·.content.isClosing) depth row

/-- No tag of a row is the first that closes what was open before and is not closed in between. -/
abbrev Unspent (depth : Nat) (row : List (Tag Conditional)) : Prop :=
  Stencil.Unspent (fun t : Tag Conditional => t.content.isOpening) (·.content.isClosing) depth row

/-- The dividers of a row, given how many inner conditionals are open in front. -/
def dividersFrom (depth : Nat) (inside : List (Tag Conditional)) : List (Tag Conditional) :=
  (inside.zipIdx.filter fun x =>
    x.1.content.isBranch && decide (LevelFrom depth (inside.take x.2))).map (·.1)

/-- The branches of a pair, given how many inner conditionals are open behind its front. -/
def partsFrom (depth : Nat) (front last : Tag Conditional) (inside : List (Tag Conditional)) :
    List Branch :=
  List.zipWith (fun front back => ⟨front, back.start⟩)
    (front :: dividersFrom depth inside) (dividersFrom depth inside ++ [last])

/-- What a tag does to the depth. -/
def Shifts (t : Tag Conditional) (depth depth' : Nat) : Prop :=
  depth' + t.content.isClosing.toNat = depth + t.content.isOpening.toNat

theorem shifts_opening {condition : Text} (h : t.content = .opening condition) :
    Shifts t depth (depth + 1) := by
  rw [Shifts, h]
  rfl

theorem shifts_closing (h : t.content = .closing) : Shifts t (depth + 1) depth := by
  rw [Shifts, h]
  rfl

theorem shifts_branch {condition? : Option Text} (h : t.content = .branch condition?) :
    Shifts t depth depth := by
  rw [Shifts, h]
  rfl

theorem Shifts.levelFrom_iff (h : Shifts t depth depth') :
    LevelFrom depth (t :: row) ↔ LevelFrom depth' row := levelFrom_cons h

theorem dividersFrom_cons (h : Shifts t depth depth') :
    dividersFrom depth (t :: inside) =
      (if t.content.isBranch && decide (depth = 0) then [t] else []) ++
        dividersFrom depth' inside := by
  have hnil : decide (LevelFrom depth []) = decide (depth = 0) := by
    simp [Stencil.LevelFrom]
  have hpick : (fun x : Tag Conditional × Nat => x.1.content.isBranch &&
        decide (LevelFrom depth ((t :: inside).take (x.2 + 1)))) =
      fun x => x.1.content.isBranch && decide (LevelFrom depth' (inside.take x.2)) := by
    funext x
    exact congrArg _ (decide_eq_decide.mpr h.levelFrom_iff)
  rw [dividersFrom, List.zipIdx_cons, List.filter_cons, List.take_zero, hnil, List.zipIdx_succ,
    List.filter_map, dividersFrom, ← hpick]
  split <;> simp only [List.map_cons, List.map_map, List.cons_append, List.nil_append] <;> rfl

/-- The branches that a split finds, the closing tag and what is behind it, in terms of the row. -/
structure SplitsInto (depth : Nat) (front : Tag Conditional) (row : List (Tag Conditional))
    (bs : List Branch) (last : Tag Conditional) (rest inside : List (Tag Conditional)) : Prop where
  /-- The row goes on behind the closing tag. -/
  row_eq : row = inside ++ last :: rest
  /-- That tag closes. -/
  closing : last.content.isClosing = true
  /-- It closes what was open. -/
  level : LevelFrom depth inside
  /-- No tag before does. -/
  first : Unspent depth inside
  /-- The branches are split at the dividers. -/
  branches : bs = partsFrom depth front last inside

namespace SplitsInto

variable {bs : List Branch}

/-- A tag that divides nothing makes the row longer. -/
theorem cons (h : SplitsInto depth' front row bs last rest inside) (hshift : Shifts t depth depth')
    (hdivides : (t.content.isBranch && decide (depth = 0)) = false)
    (ht : t.content.isClosing = true → depth ≠ 0) :
    SplitsInto depth front (t :: row) bs last rest (t :: inside) where
  row_eq := by rw [h.row_eq, List.cons_append]
  closing := h.closing
  level := hshift.levelFrom_iff.mpr h.level
  first := h.first.cons hshift ht
  branches := by
    rw [h.branches, partsFrom, partsFrom, dividersFrom_cons hshift, hdivides]
    rfl

/-- A divider starts another branch. -/
theorem divide (h : SplitsInto 0 t row bs last rest inside) (ht : t.content.isBranch = true) :
    SplitsInto 0 front (t :: row) (⟨front, t.start⟩ :: bs) last rest (t :: inside) := by
  obtain ⟨condition?, hcontent⟩ : ∃ condition?, t.content = .branch condition? := by
    cases hcontent : t.content with
    | opening condition => exact absurd ht (by simp [hcontent, Conditional.isBranch])
    | branch condition? => exact ⟨condition?, rfl⟩
    | closing => exact absurd ht (by simp [hcontent, Conditional.isBranch])
  have hshift : Shifts t 0 0 := shifts_branch hcontent
  have hc : t.content.isClosing = false := by rw [hcontent]; rfl
  refine ⟨by rw [h.row_eq, List.cons_append], h.closing, hshift.levelFrom_iff.mpr h.level,
    h.first.cons hshift (by simp [hc]), ?_⟩
  rw [h.branches, partsFrom, partsFrom, dividersFrom_cons hshift, ht]
  rfl

end SplitsInto

/-- What splitting a row finds. -/
theorem splitsInto_of_split? {bs : List Branch}
    (h : Branch.split? depth front row = some (bs, last, rest)) :
    ∃ inside, SplitsInto depth front row bs last rest inside := by
  fun_induction Branch.split? depth front row generalizing bs last rest with
  | case1 => exact absurd h (by simp)
  | case2 front t row condition depth ht ih =>
    obtain ⟨inside, hinside⟩ := ih h
    exact ⟨t :: inside, hinside.cons (shifts_opening ht) (by rw [ht]; rfl)
      (by simp [ht, Conditional.isClosing])⟩
  | case3 front t row ht =>
    simp only [Option.some.injEq, Prod.mk.injEq] at h
    obtain ⟨rfl, rfl, rfl⟩ := h
    exact ⟨[], rfl, by rw [ht]; rfl, rfl, fun pre c post h => absurd h (by simp), rfl⟩
  | case4 front t row depth ht ih =>
    obtain ⟨inside, hinside⟩ := ih h
    exact ⟨t :: inside, hinside.cons (shifts_closing ht) (by rw [ht]; rfl) (by simp)⟩
  | case5 front t row condition? ht bs last rest hs ih =>
    simp only [Option.some.injEq, Prod.mk.injEq] at h
    obtain ⟨rfl, rfl, rfl⟩ := h
    obtain ⟨inside, hinside⟩ := ih hs
    exact ⟨t :: inside, hinside.divide (by rw [ht]; rfl)⟩
  | case6 => exact absurd h (by simp)
  | case7 front t row condition? depth ht ih =>
    obtain ⟨inside, hinside⟩ := ih h
    exact ⟨t :: inside, hinside.cons (shifts_branch ht) (by simp) (by simp)⟩

/-- Where a split finds nothing, no tag closes what was open. -/
theorem unspent_of_split? (h : Branch.split? depth front row = none) : Unspent depth row := by
  fun_induction Branch.split? depth front row with
  | case1 => exact fun pre c post heq => absurd heq (by simp)
  | case2 front t row condition depth ht ih =>
    exact (ih h).cons (shifts_opening ht) (by simp [ht, Conditional.isClosing])
  | case3 => exact absurd h (by simp)
  | case4 front t row depth ht ih =>
    exact (ih h).cons (shifts_closing ht) (by simp)
  | case5 => exact absurd h (by simp)
  | case6 front t row condition? ht hs ih =>
    exact (ih hs).cons (shifts_branch ht) (by simp [ht, Conditional.isClosing])
  | case7 front t row condition? depth ht ih =>
    exact (ih h).cons (shifts_branch ht) (by simp)

/-! ## The pairs of a row -/

/-- Where a split finds a closing tag, there is a pair. -/
theorem paired_of_splitsInto {bs : List Branch} (hi : (ts.get i).content.isOpening = true)
    (h : SplitsInto 0 front (ts.drop (i + 1)) bs last rest inside) :
    ∃ j, Paired ts i j ∧ ts.get j = last ∧ between ts i j = inside ∧ ts.drop (j + 1) = rest := by
  have hlen := congrArg List.length h.row_eq
  simp only [List.length_drop, List.length_append, List.length_cons] at hlen
  let j : Fin ts.length := ⟨i + 1 + inside.length, by omega⟩
  have hij : i < j := Nat.lt_of_lt_of_le (Nat.lt_succ_self i) (Nat.le_add_right _ _)
  have hbetween : between ts i j = inside := by
    rw [between, h.row_eq, show (j : Nat) - (i + 1) =
      inside.length from Nat.add_sub_cancel_left _ _]
    exact List.take_left
  have htail : ts[j] :: ts.drop (j + 1) = last :: rest := by
    have hdrop := drop_eq_between hij
    rw [h.row_eq, hbetween] at hdrop
    exact (List.append_cancel_left hdrop).symm
  obtain ⟨hlast, hrest⟩ := List.cons.inj htail
  refine ⟨j, ⟨hij, hi, by rw [hlast]; exact h.closing, by rw [hbetween]; exact h.level, ?_⟩, hlast,
    hbetween, hrest⟩
  intro k hik hkj hk
  exact h.first _ _ _ (by rw [← hbetween, between_eq_append hik hkj]) hk

/-- Where a split finds none, there is none. -/
theorem not_paired_of_unspent (h : Unspent 0 (ts.drop (i + 1))) : ¬ Paired ts i j := fun hp =>
  h _ _ _ (drop_eq_between hp.lt) hp.closing hp.level

/-- The outermost pairs from a position on are the conditionals that are found there. -/
structure Found (ts : List (Tag Conditional)) (n : Nat) (us : List (Tag Conditional))
    (pairs : List (Fin ts.length × Fin ts.length)) : Prop where
  /-- They are given from left to right. -/
  sorted : pairs.Pairwise fun p q => p.2 < q.1
  /-- They are all there are. -/
  mem_iff : ∀ p, p ∈ pairs ↔ Outermost ts p.1 p.2 ∧ n ≤ p.1
  /-- They are what is found. -/
  ofTags_eq : ofTags us = pairs.map (ofPair ts)

/-- A tag that opens no pair is passed over. -/
theorem Found.skip {n : Nat} {us : List (Tag Conditional)}
    {pairs : List (Fin ts.length × Fin ts.length)} (h : Found ts (n + 1) us pairs)
    (hskip : ∀ i j : Fin ts.length, i.val = n → ¬ Paired ts i j)
    (hofTags : ofTags (t :: us) = ofTags us) : Found ts n (t :: us) pairs where
  sorted := h.sorted
  mem_iff p := by
    rw [h.mem_iff]
    refine and_congr_right fun hp => ⟨Nat.le_of_succ_le, fun hle => ?_⟩
    exact Nat.lt_of_le_of_ne hle fun heq => hskip p.1 p.2 heq.symm hp.toPaired
  ofTags_eq := hofTags.trans h.ofTags_eq

/-- A pair is found and what it encloses is passed over. -/
theorem Found.pair {us : List (Tag Conditional)} {pairs : List (Fin ts.length × Fin ts.length)}
    (h : Found ts (j + 1) rest pairs) (hij : Paired ts i j)
    (hfree : ∀ i' j' : Fin ts.length, Paired ts i' j' → ¬ (i' < i ∧ i ≤ j'))
    (hofTags : ofTags us = ofPair ts (i, j) :: ofTags rest) : Found ts i us ((i, j) :: pairs) where
  sorted := .cons (fun q hq => ((h.mem_iff q).mp hq).2) h.sorted
  mem_iff p := by
    rw [List.mem_cons, h.mem_iff]
    constructor
    · rintro (rfl | ⟨hp, hle⟩)
      · refine ⟨⟨hij, fun i' j' h' hout => ?_⟩, Nat.le_refl _⟩
        exact hfree i' j' h' ⟨hout.1, Nat.le_of_lt (Nat.lt_trans hij.lt hout.2)⟩
      · exact ⟨hp, Nat.le_of_lt (Nat.lt_of_lt_of_le hij.lt (Nat.le_of_succ_le hle))⟩
    · rintro ⟨hp, hle⟩
      rcases Nat.eq_or_lt_of_le hle with heq | hlt
      · obtain ⟨i', j'⟩ := p
        obtain rfl : i = i' := Fin.ext heq
        exact .inl (congrArg _ (hp.toPaired.unique hij))
      -- a pair that starts inside would stop inside
      · exact .inr ⟨hp, Nat.lt_of_not_le fun hj =>
          hp.free i j hij ⟨hlt, hij.nested hp.toPaired hlt hj⟩⟩
  ofTags_eq := by rw [hofTags, h.ofTags_eq, List.map_cons]

theorem ofTags_cons_of_isOpening {us : List (Tag Conditional)}
    (h : ∀ condition, t.content = .opening condition → False) : ofTags (t :: us) = ofTags us := by
  rw [Outline.ofTags_cons]
  cases hc : t.content with
  | opening condition => exact absurd hc (h condition)
  | branch condition? => rfl
  | closing => rfl

/-- A row of tags has exactly the conditionals that its outermost pairs are. -/
theorem exists_found {n : Nat} {us : List (Tag Conditional)} (hus : ts.drop n = us)
    (hfree : ∀ i j : Fin ts.length, Paired ts i j → ¬ (i < n ∧ n ≤ j)) :
    ∃ pairs, Found ts n us pairs := by
  have hcons : ∀ {n t us}, ts.drop n = t :: us →
      ∃ hn : n < ts.length, ts[n] = t ∧ ts.drop (n + 1) = us := by
    intro n t us h
    have hn : n < ts.length := by
      refine Nat.lt_of_not_le fun hle => ?_
      rw [List.drop_of_length_le hle] at h
      exact absurd h (by simp)
    rw [List.drop_eq_getElem_cons hn] at h
    exact ⟨hn, List.cons.inj h⟩
  -- what holds in front of a tag that opens no pair holds behind it
  have hpass : ∀ {n : Nat}, (∀ i j : Fin ts.length, Paired ts i j → ¬ (i.val < n ∧ n ≤ j.val)) →
      (∀ i j : Fin ts.length, i.val = n → ¬ Paired ts i j) →
      ∀ i j : Fin ts.length, Paired ts i j → ¬ (i.val < n + 1 ∧ n + 1 ≤ j.val) := by
    rintro n hfree hskip i j h ⟨hi, hj⟩
    rcases Nat.eq_or_lt_of_le (Nat.le_of_lt_succ hi) with heq | hlt
    · exact hskip i j heq h
    · exact hfree i j h ⟨hlt, Nat.le_of_succ_le hj⟩
  fun_induction ofTags us generalizing n with
  | case1 =>
    have hlen : ts.length ≤ n := List.drop_eq_nil_iff.mp hus
    refine ⟨[], .nil, fun p => ⟨fun hp => absurd hp (by simp), fun hp => ?_⟩, by rw [ofTags]; rfl⟩
    exact absurd (Nat.le_trans hlen hp.2) (Nat.not_le_of_lt p.1.isLt)
  | case2 t us condition ht bs last rest hs hlt ih =>
    obtain ⟨hn, rfl, rfl⟩ := hcons hus
    let i : Fin ts.length := ⟨n, hn⟩
    have hopening : ts[i].content.isOpening = true := by
      rw [show ts[i].content = .opening condition from ht]
      rfl
    obtain ⟨inside, hinside⟩ := splitsInto_of_split? hs
    obtain ⟨j, hij, rfl, rfl, rfl⟩ := paired_of_splitsInto (i := i) hopening hinside
    have hbehind : ∀ i' j' : Fin ts.length, Paired ts i' j' →
        ¬ (i' < j.val + 1 ∧ j + 1 ≤ j'.val) := by
      rintro i' j' h' ⟨hi, hj⟩
      rcases Nat.lt_trichotomy i' i with hlt | heq | hlt
      · exact hfree i' j' h' ⟨hlt, Nat.le_of_lt (Nat.lt_trans hij.lt hj)⟩
      · obtain rfl : i' = i := Fin.ext heq
        exact absurd hj (by rw [h'.unique hij]; simp)
      · exact absurd (hij.nested h' hlt (Nat.le_of_lt_succ hi)) (Nat.lt_asymm hj)
    obtain ⟨pairs, hpairs⟩ := ih rfl hbehind
    refine ⟨(i, j) :: pairs, hpairs.pair hij hfree ?_⟩
    rw [Outline.ofTags_cons]
    simp only [ht, hs, hinside.branches]
    rfl
  | case3 t us condition ht hs ih =>
    obtain ⟨hn, rfl, rfl⟩ := hcons hus
    have hskip : ∀ i j : Fin ts.length, i.val = n → ¬ Paired ts i j := by
      rintro ⟨_, hi⟩ j rfl
      exact not_paired_of_unspent (unspent_of_split? hs)
    obtain ⟨pairs, hpairs⟩ := ih rfl (hpass hfree hskip)
    refine ⟨pairs, hpairs.skip hskip ?_⟩
    rw [Outline.ofTags_cons]
    simp only [ht, hs]
  | case4 t us ht ih =>
    obtain ⟨hn, rfl, rfl⟩ := hcons hus
    have hskip : ∀ i j : Fin ts.length, i.val = n → ¬ Paired ts i j := by
      rintro ⟨_, hi⟩ j rfl h
      obtain ⟨condition, hc⟩ := Conditional.exists_of_isOpening h.opening
      exact ht condition hc
    obtain ⟨pairs, hpairs⟩ := ih rfl (hpass hfree hskip)
    exact ⟨pairs, hpairs.skip hskip (ofTags_cons_of_isOpening ht)⟩

/-! ## What resolving conditionals does -/

end Choice

namespace Branch

/-- Whether a branch is taken once it is reached: it has no condition, or one that holds. -/
def taken (ctx : Context) (b : Branch) : Bool :=
  match b.condition? with
  | none => true
  | some condition =>
    match Condition.read condition with
    | .ok e => e.holds ctx
    | .error _ => false

/-- Whether a branch has a condition that cannot be read. -/
def malformed (b : Branch) : Bool :=
  match b.condition? with
  | none => false
  | some condition =>
    match Condition.read condition with
    | .ok _ => false
    | .error _ => true

/-- The branch that is chosen: the first that is taken; if one with a malformed condition is reached
before, the first without a condition. -/
def chosen? (ctx : Context) (bs : List Branch) : Option Branch :=
  match bs.find? fun b => b.taken ctx || b.malformed with
  | none => none
  | some b => if b.malformed then bs.find? (·.condition?.isNone) else some b

theorem select?_eq_chosen? (ctx : Context) (bs : List Branch) :
    select? ctx bs = chosen? ctx bs := by
  induction bs with
  | nil => rfl
  | cons b bs ih =>
    cases hc : b.condition? with
    | none => simp [select?, chosen?, taken, malformed, hc]
    | some condition =>
      cases hr : Condition.read condition with
      | error err => simp [select?, chosen?, taken, malformed, hc, hr]
      | ok e =>
        cases he : e.holds ctx with
        | true => simp [select?, chosen?, taken, malformed, hc, hr, he]
        | false =>
          -- the branch is passed over, also where the first without a condition is looked for
          have hpass : (b.taken ctx || b.malformed) =
              false := by simp [taken, malformed, hc, hr, he]
          have hcondition : b.condition?.isNone = false := by rw [hc]; rfl
          rw [chosen?, List.find?_cons_of_neg (by simp [hpass]),
            List.find?_cons_of_neg (by simp [hcondition]), ← chosen?, ← ih, select?]
          simp [hc, hr, he]

end Branch

/-- Resolving the conditionals of any text puts, in the place of every outermost pair of its tags,
the branch that is chosen, resolved in turn, or nothing; the stretches around them stay as they
are. -/
theorem resolveConditionals_eq_of_pairs (d : Delimiters) (ctx : Context) (s : Text) :
    let ts := Tag.scan d.conditionalTag s
    ∃ pairs : List (Fin ts.length × Fin ts.length),
      pairs.Pairwise (fun p q => p.2 < q.1) ∧ (∀ p, p ∈ pairs ↔ Choice.Outermost ts p.1 p.2) ∧
      let spans := pairs.map fun p => (ts[p.1].start, ts[p.2].stop)
      s = Text.interlace (s.around spans) (spans.map fun x => s.slice x.1 x.2) ∧
      resolveConditionals d ctx s = Text.interlace (s.around spans) (pairs.map fun p =>
        (Branch.chosen? ctx (Choice.parts ts[p.1] ts[p.2] (Choice.between ts p.1 p.2))).elim []
          fun b => resolveConditionals d ctx (b.body s)) := by
  intro ts
  have hfree : ∀ i j : Fin ts.length, Choice.Paired ts i j → ¬ (i.val < 0 ∧ 0 ≤ j.val) :=
    fun i j _ h => absurd h.1 (Nat.not_lt_zero i)
  obtain ⟨pairs, hsorted, hmem, hofTags⟩ := Choice.exists_found List.drop_zero hfree
  refine ⟨pairs, hsorted, fun p => (hmem p).trans (and_iff_left (Nat.zero_le _)), ?_⟩
  intro spans
  let body (choice : Choice) : Text :=
    (Branch.select? ctx choice.branches).elim [] fun b => resolveConditionals d ctx (b.body s)
  have hord : Edit.Ordered 0 ((pairs.map (Choice.ofPair ts)).map fun choice =>
      ⟨choice.start, choice.stop, body choice⟩) := by
    rw [← hofTags]
    exact Choice.ordered_ofTags (Tag.pairwise_scanFrom _ 0 0 s) (fun t _ => Nat.zero_le _) body
  have hspans : ((pairs.map (Choice.ofPair ts)).map fun choice =>
      (⟨choice.start, choice.stop, body choice⟩ : Edit)).map (fun e => (e.start, e.stop)) =
        spans := by
    rw [List.map_map, List.map_map]
    rfl
  constructor
  · have hself := Text.interlace_around (s := s) hord
    rw [hspans] at hself
    rw [List.map_map, List.map_map] at hself
    rw [List.map_map]
    exact hself.symm
  · have hresolve : resolveConditionals d ctx s =
        s.splice ((pairs.map (Choice.ofPair ts)).map fun choice =>
          ⟨choice.start, choice.stop, body choice⟩) := by
      rw [← hofTags, resolveConditionals]
      split
      · rename_i hs
        subst hs
        simp [Tag.scan, Tag.scanFrom, Choice.ofTags, Text.splice, Text.spliceFrom, ts]
      · refine congrArg s.splice (List.map_congr_left fun choice _ => ?_)
        cases hselect : Branch.select? ctx choice.branches <;>
          simp only [body, hselect, Option.elim]
    rw [hresolve, Text.splice_eq_around hord, hspans, List.map_map, List.map_map]
    congr 1
    refine List.map_congr_left fun p _ => ?_
    simp only [Function.comp, body, Choice.ofPair, Branch.select?_eq_chosen?]

end Stencil
