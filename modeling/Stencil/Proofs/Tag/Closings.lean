import Mathlib.Data.List.Induction
import Stencil.Proofs.Tag.Balance
import Stencil.Proofs.Text.Offsets

/-!
# Which closing tag balances

An opening tag that ends at an offset is balanced by the first closing tag behind it with as many
tags opening as closing in between. The tags are those of the rest of the text with a given key, or
all of them. They have one order only: from left to right, and where two start together the opening
one first. Up to the balancing tag no more of them close than open.
-/

namespace Stencil

section

variable {α : Type} {opens closes : α → Bool} {row front : List α}

/-- As long as nothing closes what was open before, no more closes than opens. -/
theorem Unspent.countP_le (h : Unspent opens closes 0 row) (hfront : front <+: row) :
    front.countP closes ≤ front.countP opens := by
  induction front using List.reverseRecOn with
  | nil => simp
  | append_singleton front x ih =>
    have hle := ih ((List.prefix_append front [x]).trans hfront)
    obtain ⟨behind, hrow⟩ := hfront
    rw [List.countP_append, List.countP_append, List.countP_singleton, List.countP_singleton]
    by_cases hx : closes x = true
    · -- what closes has fewer closings than openings in front
      have hlevel := h front x behind (by rw [← hrow]; simp) hx
      unfold LevelFrom at hlevel
      rw [if_pos hx]
      omega
    · rw [if_neg hx]
      omega

end

namespace Tag

variable {α β κ : Type}

/-! ## A row of opening and closing tags -/

namespace Edge

/-- Opening and closing tags in one row, from left to right. Where two start together the opening
one comes first. -/
structure Arranged (openings closings : List (Tag κ)) (row : List (Edge κ)) : Prop where
  /-- The row has these tags. -/
  perm : row.Perm (openings.map .opening ++ closings.map .closing)
  /-- They are in order. -/
  ordered : row.Pairwise fun a b => a.start < b.start ∨ a.start = b.start ∧
    a.isOpening ∧ b.isClosing

/-- Opening and closing tags merged into one row. -/
def row (openings closings : List (Tag κ)) : List (Edge κ) :=
  (openings.map .opening).merge (closings.map .closing) fun a b => a.start ≤ b.start

/-- Where a tag comes in a row: by its start, and behind an opening tag if it closes. -/
def rank (e : Edge κ) : Nat := 2 * e.start + e.isClosing.toNat

theorem before_iff_rank_lt {a b : Edge κ} :
    (a.start < b.start ∨ a.start = b.start ∧ a.isOpening ∧ b.isClosing) ↔ a.rank < b.rank := by
  cases a with
  | opening t =>
    cases b with
    | opening u => simp [rank, isOpening, isClosing]
    | closing u =>
      simp [rank, isOpening, isClosing]
      omega
  | closing t =>
    cases b with
    | opening u =>
      simp [rank, isOpening, isClosing]
      omega
    | closing u => simp [rank, isOpening, isClosing]

/-- Merging by start puts the tags in the order of their ranks. -/
theorem row_eq_merge_rank (openings closings : List (Tag κ)) :
    row openings closings =
      (openings.map .opening).merge (closings.map .closing) fun a b => a.rank ≤ b.rank := by
  have hle : ∀ a ∈ openings.map opening, ∀ b ∈ closings.map closing,
      decide (a.start ≤ b.start) = decide (a.rank ≤ b.rank) := by
    intro a ha b hb
    obtain ⟨t, -, rfl⟩ := List.mem_map.mp ha
    obtain ⟨u, -, rfl⟩ := List.mem_map.mp hb
    refine decide_eq_decide.mpr ?_
    simp only [rank, isClosing, Bool.toNat_false, Bool.toNat_true]
    omega
  have hmerge := List.map_merge (f := id) (r := fun a b : Edge κ => decide (a.start ≤ b.start))
    (s := fun a b : Edge κ => decide (a.rank ≤ b.rank)) hle
  simpa only [row, List.map_id] using hmerge

variable {openings closings : List (Tag κ)}

/-- Tags from left to right are merged into a row in order. -/
theorem arranged_row (hopenings : openings.Pairwise fun t u => t.start < u.start)
    (hclosings : closings.Pairwise fun t u => t.start < u.start) :
    Arranged openings closings (row openings closings) := by
  refine ⟨List.merge_perm_append _, ?_⟩
  simp only [before_iff_rank_lt]
  rw [row_eq_merge_rank]
  refine pairwise_merge ?_ ?_ ?_
  · refine List.pairwise_map.mpr (hopenings.imp fun {t u} h => ?_)
    simp only [rank, start, isClosing]
    omega
  · refine List.pairwise_map.mpr (hclosings.imp fun {t u} h => ?_)
    simp only [rank, start, isClosing]
    omega
  · intro a ha b hb
    obtain ⟨t, -, rfl⟩ := List.mem_map.mp ha
    obtain ⟨u, -, rfl⟩ := List.mem_map.mp hb
    simp only [rank, isClosing, Bool.toNat_false, Bool.toNat_true]
    omega

/-- There is one order only. -/
theorem Arranged.eq {es es' : List (Edge κ)} (h : Arranged openings closings es)
    (h' : Arranged openings closings es') : es = es' := by
  refine (h.perm.trans h'.perm.symm).eq_of_pairwise ?_ h.ordered h'.ordered
  intro a b _ _ hab hba
  rw [before_iff_rank_lt] at hab hba
  omega

/-- Changes the tag of an edge. -/
def map (f : Tag κ → Tag β) : Edge κ → Edge β
  | .opening t => .opening (f t)
  | .closing t => .closing (f t)

theorem unmatched?_map (f : Tag κ → Tag β) (depth : Nat) (es : List (Edge κ)) :
    unmatched? depth (es.map (map f)) = (unmatched? depth es).map f := by
  fun_induction unmatched? depth es with
  | case1 => rfl
  | case2 depth t es ih => exact ih
  | case3 t es => rfl
  | case4 depth t es ih => exact ih

end Edge

/-! ## The tags of the rest of a text -/

/-- A tag that is found behind a front of the given length, and what it then says. -/
def carried (length : Nat) (f : α → β) (t : Tag α) : Tag β :=
  ⟨length + t.start, t.lexeme, f t.content, t.lexeme_ne_nil⟩

/-- Tags are found where they are, wherever the text starts. -/
theorem scanFrom_map (r : Recognizer α) (f : α → β) (length pos skip : Nat) (s : Text) :
    scanFrom (r.map f) (length + pos) skip s = (scanFrom r pos skip s).map (carried length f) := by
  fun_induction scanFrom r pos skip s with
  | case1 => rfl
  | case2 pos skip c s ih => exact ih
  | case3 pos c s x lexeme a hr ih =>
    rw [scanFrom, Recognizer.map, hr]
    exact congrArg _ ih
  | case4 pos c s hr ih =>
    rw [scanFrom]
    split
    · rename_i x lexeme b hx
      obtain ⟨a, ha, -⟩ := Recognizer.map_eq_some.mp hx
      exact absurd ha (hr x lexeme a)
    · exact ih

/-- The tags of a text that count for a key: those of that key, or all of them if there is none. -/
def counted [DecidableEq κ] (r : Recognizer κ) (key? : Option κ) (s : Text) : List (Tag κ) :=
  (scan r s).filter fun t => key?.all (t.content = ·)

theorem pairwise_start_counted [DecidableEq κ] (r : Recognizer κ) (key? : Option κ) (s : Text) :
    (counted r key? s).Pairwise fun t u => t.start < u.start :=
  (pairwise_start_scan r s).filter _

/-- The span of the tag that balances an opening tag ending at an offset. Without a key all tags
count, whatever they say. -/
def balancedSpan? [DecidableEq κ] (opening closing : Recognizer κ) (key? : Option κ) (s : Text)
    (offset : Nat) : Option (Nat × Nat) :=
  match key? with
  | some key => closingSpan? opening closing key s offset
  | none => closingSpan? (opening.map fun _ => ()) (closing.map fun _ => ()) () s offset

/-- Tags that are chosen by what they say after a change can be chosen before it. -/
theorem filter_scanFrom_map [DecidableEq β] (r : Recognizer α) (f : α → β) (key : β) (length : Nat)
    (s : Text) : (scanFrom (r.map f) length 0 s).filter (·.content = key) =
      ((scan r s).filter (f ·.content = key)).map (carried length f) := by
  have hmap := scanFrom_map r f length 0 0 s
  rw [Nat.add_zero] at hmap
  rw [hmap, List.filter_map]
  rfl

/-- The row of tags behind a front is that of the rest of the text. -/
theorem Edge.edges_map [DecidableEq β] (opening closing : Recognizer κ) (f : κ → β) (key : β)
    (length : Nat) (s : Text) :
    edges (opening.map f) (closing.map f) key length s =
      (row ((scan opening s).filter (f ·.content = key))
        ((scan closing s).filter (f ·.content = key))).map (map (carried length f)) := by
  have hstart : ∀ e : Edge κ, (map (carried length f) e).start = length + e.start := by
    intro e
    cases e with
    | opening t => rfl
    | closing t => rfl
  have hle : ∀ a b : Edge κ, decide (a.start ≤ b.start) =
      decide ((map (carried length f) a).start ≤ (map (carried length f) b).start) := by
    intro a b
    rw [hstart, hstart]
    exact decide_eq_decide.mpr (Nat.add_le_add_iff_left).symm
  rw [row, List.map_merge (s := fun a b : Edge β => decide (a.start ≤ b.start))
    fun a _ b _ => hle a b, edges, filter_scanFrom_map, filter_scanFrom_map]
  simp only [List.map_map]
  rfl

theorem closingSpan?_map [DecidableEq β] (opening closing : Recognizer κ) (f : κ → β) (key : β)
    (front rest : Text) :
    closingSpan? (opening.map f) (closing.map f) key (front ++ rest) front.utf8Size =
      (Edge.unmatched? 0 (Edge.row ((scan opening rest).filter (f ·.content = key))
        ((scan closing rest).filter (f ·.content = key)))).map fun c =>
          let start := (front ++ rest.take c.start).utf8Size
          (start, start + c.lexeme.utf8Size) := by
  have hpos : (front ++ rest).indexOfOffset? front.utf8Size = some front.length :=
    Text.indexOfOffset?_eq_some_iff.mpr ⟨by simp, by rw [Text.offset, List.take_left]⟩
  rw [closingSpan?, hpos, Option.bind_some, closing?, List.drop_left, Edge.edges_map,
    Edge.unmatched?_map, Option.map_map]
  congr 1
  funext c
  simp only [Function.comp_apply, byteSpan, carried, List.take_length_add_append]

/-- The span is that of the unmatched tag among those that count. -/
theorem balancedSpan?_append [DecidableEq κ] (opening closing : Recognizer κ) (key? : Option κ)
    (front rest : Text) :
    balancedSpan? opening closing key? (front ++ rest) front.utf8Size =
      (Edge.unmatched? 0 (Edge.row (counted opening key? rest) (counted closing key? rest))).map
        fun c =>
          let start := (front ++ rest.take c.start).utf8Size
          (start, start + c.lexeme.utf8Size) := by
  cases key? with
  | none =>
    rw [balancedSpan?, closingSpan?_map]
    simp [counted]
  | some key =>
    have hid : ∀ r : Recognizer κ, r.map id = r := by
      intro r
      funext s
      unfold Recognizer.map
      cases r s <;> rfl
    have hspan := closingSpan?_map opening closing id key front rest
    rw [hid, hid] at hspan
    simpa [balancedSpan?, counted] using hspan

/-- What balances an opening tag that ends at an offset. There is nothing past the end or inside a
character. Otherwise the tags behind that count have one order, and it is the first closing one with
as many opening as closing ones in front; there is nothing only if there is none. Nowhere in front
of it do more close than open. -/
theorem balancedSpan?_exact [DecidableEq κ] (opening closing : Recognizer κ) (key? : Option κ)
    (s : Text) (offset : Nat) :
    ((¬ ∃ front rest, s = front ++ rest ∧ front.utf8Size = offset) →
      balancedSpan? opening closing key? s offset = none) ∧
    ∀ front rest, s = front ++ rest → front.utf8Size = offset →
      ∃ row, Edge.Arranged (counted opening key? rest) (counted closing key? rest) row ∧
        (∀ other, Edge.Arranged (counted opening key? rest) (counted closing key? rest) other →
          other = row) ∧
        match balancedSpan? opening closing key? s offset with
        | none => Unspent Edge.isOpening Edge.isClosing 0 row
        | some (start, stop) => ∃ between c behind, row = between ++ .closing c :: behind ∧
            LevelFrom Edge.isOpening Edge.isClosing 0 between ∧
            Unspent Edge.isOpening Edge.isClosing 0 between ∧
            (∀ initial, initial <+: between →
              initial.countP Edge.isClosing ≤ initial.countP Edge.isOpening) ∧
            start = (front ++ rest.take c.start).utf8Size ∧
            stop = start + c.lexeme.utf8Size ∧ offset ≤ start := by
  constructor
  · intro hnone
    have hpos := Text.indexOfOffset?_eq_none_iff.mpr hnone
    cases key? with
    | none => rw [balancedSpan?, closingSpan?, hpos, Option.bind_none]
    | some key => rw [balancedSpan?, closingSpan?, hpos, Option.bind_none]
  · rintro front rest rfl rfl
    have harranged := Edge.arranged_row (pairwise_start_counted opening key? rest)
      (pairwise_start_counted closing key? rest)
    refine ⟨_, harranged, fun other hother => hother.eq harranged, ?_⟩
    rw [balancedSpan?_append]
    cases hc : Edge.unmatched? 0
      (Edge.row (counted opening key? rest) (counted closing key? rest)) with
    | none => exact Edge.unspent_of_unmatched? hc
    | some c =>
      obtain ⟨between, behind, hrow, hlevel, hfirst⟩ := Edge.unmatched?_eq_some hc
      refine ⟨between, c, behind, hrow, hlevel, hfirst, fun initial h => hfirst.countP_le h,
        rfl, rfl, ?_⟩
      rw [Text.utf8Size_append]
      omega

/-- The loop inside is passed over, and offsets count bytes: the first character has two of them,
and nothing stands between the two. -/
theorem balancedSpan?_exact_nested :
    balancedSpan? (Delimiters.braces.legacyOpening.map LoopHead.path)
      Delimiters.braces.legacyClosing
      (some ['a']) ("é\x7ba\x7d".toList ++ "x\x7ba\x7dy\x7b/a\x7dz\x7b/a\x7d".toList) 1 = none ∧
    balancedSpan? (Delimiters.braces.legacyOpening.map LoopHead.path)
      Delimiters.braces.legacyClosing
      (some ['a']) ("é\x7ba\x7d".toList ++ "x\x7ba\x7dy\x7b/a\x7dz\x7b/a\x7d".toList) 5 =
        some (15, 19) ∧
    ∃ row between c behind, row = between ++ .closing c :: behind ∧
      Edge.Arranged
        (counted (Delimiters.braces.legacyOpening.map LoopHead.path) (some ['a'])
          "x\x7ba\x7dy\x7b/a\x7dz\x7b/a\x7d".toList)
        (counted Delimiters.braces.legacyClosing (some ['a'])
          "x\x7ba\x7dy\x7b/a\x7dz\x7b/a\x7d".toList) row ∧
      LevelFrom Edge.isOpening Edge.isClosing 0 between := by
  let front := "é\x7ba\x7d".toList
  let rest := "x\x7ba\x7dy\x7b/a\x7dz\x7b/a\x7d".toList
  let opening := Delimiters.braces.legacyOpening.map LoopHead.path
  let closing := Delimiters.braces.legacyClosing
  have hopenings : counted opening (some ['a']) rest =
      [⟨1, "\x7ba\x7d".toList, ['a'], by decide⟩] := rfl
  have hclosings : counted closing (some ['a']) rest =
      [⟨5, "\x7b/a\x7d".toList, ['a'], by decide⟩, ⟨10, "\x7b/a\x7d".toList, ['a'], by decide⟩] :=
        rfl
  have hspan : balancedSpan? opening closing (some ['a']) (front ++ rest) 5 = some (15, 19) := by
    have happend := balancedSpan?_append opening closing (some ['a']) front rest
    rw [hopenings, hclosings] at happend
    refine happend.trans ?_
    simp [Edge.row, Edge.start, Edge.unmatched?, front, rest]
    decide
  refine ⟨(balancedSpan?_exact opening closing (some ['a']) (front ++ rest) 1).1 ?_, hspan, ?_⟩
  · rw [← Text.indexOfOffset?_eq_none_iff]
    decide
  · obtain ⟨row, harranged, -, hrow⟩ :=
      (balancedSpan?_exact opening closing (some ['a']) (front ++ rest) 5).2
      front rest rfl (by decide)
    rw [hspan] at hrow
    obtain ⟨between, c, behind, heq, hlevel, -⟩ := hrow
    exact ⟨row, between, c, behind, heq, harranged, hlevel⟩

end Tag

end Stencil
