import Stencil.Proofs.Outline.Basic
import Stencil.Tag.Balance

/-!
# Balanced pairs in an outline

Loops and blocks run from an opening tag to the closing tag that balances it. `segments` takes an
outline apart into such pairs and the pieces between them, and the passes over texts agree with it:
the outermost enclosures of a written outline are its outermost pairs, and splicing them replaces
segments.

Which tags open and close is a `Pairing`. A tag may be several openings at once; the first that is
closed counts. A tag that both opens and closes would change nothing.
-/

namespace Stencil

/-- Which tags open something, and which tags balance each other behind it. -/
structure Pairing (α : Type) where
  /-- What a tag opens. -/
  heads : Text → List α
  /-- Whether a tag opens a pair of the same kind. -/
  opens : α → Text → Bool
  /-- Whether a tag closes a pair of the same kind. -/
  closes : α → Text → Bool

/-- A part of an outline. -/
inductive Segment (P α : Type) where
  /-- A piece that belongs to no pair. -/
  | piece (q : Piece P)
  /-- A pair of tags, and what is between them. -/
  | pair (head : α) (front : Text) (inside : List (Piece P)) (back : Text)

/-- The pieces of a part. -/
def Segment.pieces {P α : Type} : Segment P α → List (Piece P)
  | .piece q => [q]
  | .pair _ front inside back => .tag front :: (inside ++ [.tag back])

namespace Outline

open Recognizer

variable {P α κ : Type}

/-! ## Splitting at the closing tag -/

/-- The pieces up to the closing tag that closes none of the openings, given how many are open; its
body, and the pieces behind it. -/
def splitClose (opens closes : Text → Bool) :
    (depth : Nat) → List (Piece P) → Option (List (Piece P) × Text × List (Piece P))
  | _, [] => none
  | depth, .plain p :: ps => (splitClose opens closes depth ps).map fun x => (.plain p :: x.1, x.2)
  | depth, .tag body :: ps =>
    match opens body, closes body, depth with
    | true, false, depth =>
      (splitClose opens closes (depth + 1) ps).map fun x => (.tag body :: x.1, x.2)
    | false, true, 0 => some ([], body, ps)
    | false, true, depth + 1 =>
      (splitClose opens closes depth ps).map fun x => (.tag body :: x.1, x.2)
    | true, true, depth | false, false, depth =>
      (splitClose opens closes depth ps).map fun x => (.tag body :: x.1, x.2)

section

variable {opens closes : Text → Bool} {depth : Nat} {body : Text} {ps : List (Piece P)}

theorem splitClose_opens (ho : opens body = true) (hc : closes body = false) :
    splitClose opens closes depth (.tag body :: ps) =
      (splitClose opens closes (depth + 1) ps).map fun x => (.tag body :: x.1, x.2) := by
  simp [splitClose, ho, hc]

theorem splitClose_closes (ho : opens body = false) (hc : closes body = true) :
    splitClose opens closes (depth + 1) (.tag body :: ps) =
      (splitClose opens closes depth ps).map fun x => (.tag body :: x.1, x.2) := by
  simp [splitClose, ho, hc]

theorem splitClose_found (ho : opens body = false) (hc : closes body = true) :
    splitClose opens closes 0 (.tag body :: ps) = some ([], body, ps) := by
  simp [splitClose, ho, hc]

theorem splitClose_other (ho : opens body = false) (hc : closes body = false) :
    splitClose opens closes depth (.tag body :: ps) =
      (splitClose opens closes depth ps).map fun x => (.tag body :: x.1, x.2) := by
  simp [splitClose, ho, hc]

end

theorem cons_split {q : Piece P} {x : Option (List (Piece P) × Text × List (Piece P))}
    {inside rest : List (Piece P)} {back : Text}
    (h : x.map (fun x => (q :: x.1, x.2)) = some (inside, back, rest)) :
    ∃ tail, inside = q :: tail ∧ x = some (tail, back, rest) := by
  obtain ⟨⟨tail, b, r⟩, rfl, hy⟩ := Option.map_eq_some_iff.mp h
  simp only [Prod.mk.injEq] at hy
  obtain ⟨rfl, rfl, rfl⟩ := hy
  exact ⟨tail, rfl, rfl⟩

theorem splitClose_eq_some {opens closes : Text → Bool} {depth : Nat}
    {ps inside rest : List (Piece P)} {back : Text}
    (h : splitClose opens closes depth ps = some (inside, back, rest)) :
    ps = inside ++ .tag back :: rest ∧ closes back = true := by
  have hstep : ∀ {q : Piece P} {ps : List (Piece P)}
      {x : Option (List (Piece P) × Text × List (Piece P))},
      (∀ {tail}, x = some (tail, back, rest) → ps = tail ++ .tag back :: rest ∧
        closes back = true) →
      ∀ {inside}, x.map (fun x => (q :: x.1, x.2)) = some (inside, back, rest) →
        q :: ps = inside ++ .tag back :: rest ∧ closes back = true := by
    intro q ps x ih inside hx
    obtain ⟨tail, rfl, htail⟩ := cons_split hx
    obtain ⟨hps, hc⟩ := ih htail
    exact ⟨by rw [hps, List.cons_append], hc⟩
  fun_induction splitClose opens closes depth ps generalizing inside with
  | case1 => exact absurd h (by simp)
  | case2 depth p ps ih => exact hstep ih h
  | case3 body ps depth hc ho ih => exact hstep ih h
  | case4 body ps hc ho =>
    simp only [Option.some.injEq, Prod.mk.injEq] at h
    obtain ⟨rfl, rfl, rfl⟩ := h
    exact ⟨rfl, hc⟩
  | case5 body ps depth hc ho ih => exact hstep ih h
  | case6 body ps depth hc ho ih => exact hstep ih h
  | case7 body ps depth hc ho ih => exact hstep ih h

/-- Pieces that a split passes over: whatever opens among them is closed among them. -/
def Passes (opens closes : Text → Bool) (ps : List (Piece P)) : Prop :=
  ∀ depth qs, splitClose opens closes depth (ps ++ qs) =
    (splitClose opens closes depth qs).map fun x => (ps ++ x.1, x.2)

namespace Passes

variable {opens closes : Text → Bool} {body front back : Text} {ps qs : List (Piece P)}

theorem nil : Passes (P := P) opens closes [] := fun depth qs => by simp

theorem append (hps : Passes opens closes ps) (hqs : Passes opens closes qs) :
    Passes opens closes (ps ++ qs) := by
  intro depth rs
  rw [List.append_assoc, hps, hqs, Option.map_map]
  simp only [Function.comp_def, List.append_assoc]

theorem plain (p : P) (hps : Passes opens closes ps) : Passes opens closes (.plain p :: ps) := by
  intro depth qs
  rw [List.cons_append, splitClose, hps, Option.map_map]
  rfl

theorem other (ho : opens body = false) (hc : closes body = false) (hps : Passes opens closes ps) :
    Passes opens closes (.tag body :: ps) := by
  intro depth qs
  rw [List.cons_append, splitClose_other ho hc, hps, Option.map_map]
  rfl

/-- Two tags balance each other, or neither matters. -/
theorem enclosed (hfront : closes front = false) (hback : opens back = false)
    (hbalance : closes back = opens front) (hps : Passes opens closes ps)
    (hqs : Passes opens closes qs) :
    Passes opens closes (.tag front :: (ps ++ .tag back :: qs)) := by
  cases ho : opens front with
  | false => exact (hps.append (hqs.other hback (hbalance.trans ho))).other ho hfront
  | true =>
    intro depth rs
    rw [List.cons_append, splitClose_opens ho hfront, List.append_assoc, hps, List.cons_append,
      splitClose_closes hback (hbalance.trans ho), hqs]
    simp only [Option.map_map, Function.comp_def, List.append_assoc, List.cons_append]

/-- A pair ends behind pieces that are passed over. -/
theorem split (hps : Passes opens closes ps) (ho : opens back = false) (hc : closes back = true)
    (qs : List (Piece P)) :
    splitClose opens closes 0 (ps ++ .tag back :: qs) = some (ps, back, qs) := by
  rw [hps, splitClose_found ho hc]
  simp

end Passes

/-! ## Segments -/

/-- What a tag opens in front of some pieces, if there is a closing tag: what it is, what it
encloses, and what follows. -/
def pairFrom (g : Pairing α) (front : Text) (ps : List (Piece P)) :
    Option (α × List (Piece P) × Text × List (Piece P)) :=
  (g.heads front).findSome? fun a => (splitClose (g.opens a) (g.closes a) 0 ps).map (a, ·)

theorem pairFrom_eq_some {g : Pairing α} {front back : Text} {a : α}
    {ps inside rest : List (Piece P)} (h : pairFrom g front ps = some (a, inside, back, rest)) :
    ∃ before after, g.heads front = before ++ a :: after ∧
      (∀ b ∈ before, splitClose (g.opens b) (g.closes b) 0 ps = none) ∧
      splitClose (g.opens a) (g.closes a) 0 ps = some (inside, back, rest) := by
  obtain ⟨before, b, after, hheads, hb, hbefore⟩ := List.findSome?_eq_some_iff.mp h
  obtain ⟨x, hx, hxa⟩ := Option.map_eq_some_iff.mp hb
  simp only [Prod.mk.injEq] at hxa
  obtain ⟨rfl, rfl⟩ := hxa
  exact ⟨before, after, hheads, fun c hc => by simpa using hbefore c hc, hx⟩

theorem pairFrom_eq {g : Pairing α} {front back : Text} {a : α} {ps inside rest : List (Piece P)}
    (h : pairFrom g front ps = some (a, inside, back, rest)) :
    ps = inside ++ .tag back :: rest := by
  obtain ⟨_, _, _, _, hs⟩ := pairFrom_eq_some h
  exact (splitClose_eq_some hs).1

/-- The outermost pairs of an outline, and the pieces between them. -/
def segments (g : Pairing α) : List (Piece P) → List (Segment P α)
  | [] => []
  | .plain p :: ps => .piece (.plain p) :: segments g ps
  | .tag body :: ps =>
    match h : pairFrom g body ps with
    | none => .piece (.tag body) :: segments g ps
    | some (a, inside, back, rest) =>
      have : rest.length < ps.length := by
        rw [pairFrom_eq h, List.length_append, List.length_cons]
        omega
      .pair a body inside back :: segments g rest
termination_by ps => ps.length

theorem segments_cons_none {g : Pairing α} {body : Text} {ps : List (Piece P)}
    (h : pairFrom g body ps = none) :
    segments g (.tag body :: ps) = .piece (.tag body) :: segments g ps := by
  rw [segments]
  split
  · rfl
  · rename_i hs
    rw [h] at hs
    exact absurd hs (by simp)

theorem segments_cons_some {g : Pairing α} {front back : Text} {a : α}
    {ps inside rest : List (Piece P)} (h : pairFrom g front ps = some (a, inside, back, rest)) :
    segments g (.tag front :: ps) = .pair a front inside back :: segments g rest := by
  rw [segments]
  split
  · rename_i hn
    rw [h] at hn
    exact absurd hn (by simp)
  · rename_i hs
    rw [h] at hs
    simp only [Option.some.injEq, Prod.mk.injEq] at hs
    obtain ⟨rfl, rfl, rfl, rfl⟩ := hs
    rfl

/-- Where no tag opens anything, all segments are pieces. -/
theorem segments_of_heads_nil {g : Pairing α} {ps : List (Piece P)}
    (h : ∀ body, .tag body ∈ ps → g.heads body = []) : segments g ps = ps.map .piece := by
  induction ps with
  | nil => simp [segments]
  | cons q ps ih =>
    have ih := ih fun body hbody => h body (by simp [hbody])
    cases q with
    | plain p => rw [segments, ih, List.map_cons]
    | tag body =>
      have hnone : pairFrom g body ps = none := by simp [pairFrom, h body (by simp)]
      rw [segments_cons_none hnone, ih, List.map_cons]

theorem flatMap_segments (g : Pairing α) (ps : List (Piece P)) :
    (segments g ps).flatMap Segment.pieces = ps := by
  fun_induction segments g ps with
  | case1 => rfl
  | case2 p ps ih => rw [List.flatMap_cons, ih]; rfl
  | case3 body ps hn ih => rw [List.flatMap_cons, ih]; rfl
  | case4 body ps a inside back rest hs hlt ih =>
    rw [List.flatMap_cons, ih, pairFrom_eq hs]
    simp [Segment.pieces]

/-- A segment is a stretch of the outline. -/
theorem pieces_of_mem_segments {g : Pairing α} {ps : List (Piece P)} {x : Segment P α}
    (h : x ∈ segments g ps) : ∃ front back, ps = front ++ (x.pieces ++ back) := by
  obtain ⟨before, after, hsegs⟩ := List.append_of_mem h
  refine ⟨before.flatMap Segment.pieces, after.flatMap Segment.pieces, ?_⟩
  rw [← flatMap_segments g ps, hsegs, List.flatMap_append, List.flatMap_cons]

theorem mem_of_mem_pieces {g : Pairing α} {ps : List (Piece P)} {x : Segment P α}
    (h : x ∈ segments g ps) : ∀ q ∈ x.pieces, q ∈ ps := by
  obtain ⟨front, back, rfl⟩ := pieces_of_mem_segments h
  intro q hq
  simp [hq]

theorem length_inside_lt {g : Pairing α} {ps inside : List (Piece P)} {a : α} {front back : Text}
    (h : .pair a front inside back ∈ segments g ps) : inside.length < ps.length := by
  obtain ⟨before, after, rfl⟩ := pieces_of_mem_segments h
  simp [Segment.pieces]
  omega

theorem head_of_mem_segments {g : Pairing α} {ps inside : List (Piece P)} {a : α}
    {front back : Text} (h : .pair a front inside back ∈ segments g ps) : a ∈ g.heads front := by
  fun_induction segments g ps with
  | case1 => exact absurd h (by simp)
  | case2 p ps ih => exact ih (by simpa using h)
  | case3 body ps hn ih => exact ih (by simpa using h)
  | case4 body ps b inside' back' rest hsome hlt ih =>
    rcases List.mem_cons.mp h with heq | h
    · obtain ⟨rfl, rfl, rfl, rfl⟩ := Segment.pair.inj heq
      obtain ⟨before, after, hheads, -, -⟩ := pairFrom_eq_some hsome
      rw [hheads]
      simp
    · exact ih h

/-! ## The closing tag of a written outline -/

variable {d : Delimiters} {w : P → Text}

/-- Whether a grammar reads a key off a tag. -/
def readsAs [DecidableEq κ] (d : Delimiters) (r : Recognizer κ) (key : κ) (body : Text) : Bool :=
  reading d r body = some key

/-- The edges that a tag makes for a key. -/
def edgesAt [DecidableEq κ] (d : Delimiters) (opening closing : Recognizer κ) (key : κ) (pos : Nat)
    (body : Text) : List (Tag.Edge κ) :=
  ((tagAt d opening pos body).filter (·.content = key)).map .opening ++
    ((tagAt d closing pos body).filter (·.content = key)).map .closing

theorem edges_write [DecidableEq κ] (hd : d.Apart) {opening closing : Recognizer κ}
    (ho : Delimited d opening) (hc : Delimited d closing) (key : κ) (pos : Nat)
    {ps : List (Piece P)} (hps : Tidy d w ps) :
    Tag.Edge.edges opening closing key pos (write d w ps) =
      locate d w (edgesAt d opening closing key) pos ps := by
  have hstart : ∀ {r : Recognizer κ} {mk : Tag κ → Tag.Edge κ}, (∀ t, (mk t).start = t.start) →
      ∀ n b, ∀ e ∈ ((tagAt d r n b).filter (·.content = key)).map mk, e.start = n := by
    intro r mk hmk n b e he
    obtain ⟨t, ht, rfl⟩ := List.mem_map.mp he
    obtain ⟨a, -, rfl⟩ := List.mem_map.mp (List.mem_filter.mp ht).1
    rw [hmk]
  rw [Tag.Edge.edges, scanFrom_write hd ho hps, scanFrom_write hd hc hps, filter_locate,
    filter_locate, map_locate, map_locate]
  exact merge_locate (hstart fun _ => rfl) (hstart fun _ => rfl) pos ps

theorem filter_tagAt [DecidableEq κ] (r : Recognizer κ) (key : κ) (pos : Nat) (body : Text) :
    (tagAt d r pos body).filter (·.content = key) =
      if readsAs d r key body then [⟨pos, d.enclose body, key, d.enclose_ne_nil body⟩] else [] := by
  unfold tagAt readsAs
  cases hr : reading d r body with
  | none => simp
  | some a => by_cases ha : a = key <;> simp [ha]

/-- Where a split closes. -/
def closeSpan (d : Delimiters) (w : P → Text) (pos : Nat)
    (x : List (Piece P) × Text × List (Piece P)) : Nat × Nat :=
  (pos + (write d w x.1).length, pos + (write d w x.1).length + (d.enclose x.2.1).length)

theorem closeSpan_cons (q : Piece P) (pos : Nat)
    (x : Option (List (Piece P) × Text × List (Piece P))) :
    (x.map fun x => (q :: x.1, x.2)).map (closeSpan d w pos) =
      x.map (closeSpan d w (pos + (q.text d w).length)) := by
  rw [Option.map_map]
  congr 1
  funext x
  simp [closeSpan, Nat.add_assoc]

/-- The first unmatched closing tag is where the outline is split. -/
theorem unmatched?_locate [DecidableEq κ] {opening closing : Recognizer κ} (key : κ) (depth : Nat)
    (pos : Nat) (ps : List (Piece P)) :
    (Tag.Edge.unmatched? depth (locate d w (edgesAt d opening closing key) pos ps)).map
        (fun t => (t.start, t.stop)) =
      (splitClose (readsAs d opening key) (readsAs d closing key) depth ps).map
        (closeSpan d w pos) := by
  fun_induction splitClose (readsAs d opening key) (readsAs d closing key) depth ps
    generalizing pos with
  | case1 => rfl
  | case2 depth p ps ih => rw [closeSpan_cons, locate, ih, Piece.text]
  | case3 body ps depth hc ho ih =>
    rw [closeSpan_cons, locate, edgesAt, filter_tagAt, filter_tagAt, if_pos ho,
      if_neg (by simp [hc])]
    exact ih _
  | case4 body ps hc ho =>
    rw [locate, edgesAt, filter_tagAt, filter_tagAt, if_neg (by simp [ho]), if_pos hc]
    simp [Tag.Edge.unmatched?, closeSpan, Tag.stop]
  | case5 body ps depth hc ho ih =>
    rw [closeSpan_cons, locate, edgesAt, filter_tagAt, filter_tagAt, if_neg (by simp [ho]),
      if_pos hc]
    exact ih _
  | case6 body ps depth hc ho ih =>
    rw [closeSpan_cons, locate, edgesAt, filter_tagAt, filter_tagAt, if_pos ho, if_pos hc]
    exact ih _
  | case7 body ps depth hc ho ih =>
    rw [closeSpan_cons, locate, edgesAt, filter_tagAt, filter_tagAt, if_neg (by simp [ho]),
      if_neg (by simp [hc])]
    exact ih _

theorem closing?_write [DecidableEq κ] (hd : d.Apart) {opening closing : Recognizer κ}
    (ho : Delimited d opening) (hc : Delimited d closing) (key : κ) (s : Text)
    {ps : List (Piece P)} (hps : Tidy d w ps) :
    (Tag.closing? opening closing key (s ++ write d w ps) s.length).map
        (fun t => (t.start, t.stop)) =
      (splitClose (readsAs d opening key) (readsAs d closing key) 0 ps).map
        (closeSpan d w s.length) := by
  rw [Tag.closing?, List.drop_left, edges_write hd ho hc key _ hps, unmatched?_locate]

/-! ## The pairs of a written outline -/

/-- The tags that open something, at a position. -/
def headsAt (d : Delimiters) (g : Pairing α) (pos : Nat) (body : Text) : List (Tag α) :=
  (g.heads body).map fun a => ⟨pos, d.enclose body, a, d.enclose_ne_nil body⟩

/-- A way of finding closing tags agrees with a pairing on a text. -/
def Closes (d : Delimiters) (w : P → Text) (g : Pairing α) (close? : Tag α → Option (Tag κ))
    (s : Text) : Prop :=
  ∀ (pre : Text) (body : Text) (a : α) (ps : List (Piece P)), Tidy d w ps →
    s = pre ++ (d.enclose body ++ write d w ps) →
    (close? ⟨pre.length, d.enclose body, a, d.enclose_ne_nil body⟩).map
        (fun t => (t.start, t.stop)) =
      (splitClose (g.opens a) (g.closes a) 0 ps).map
        (closeSpan d w (pre.length + (d.enclose body).length))

/-- An enclosure by its two ends, its opening, and what is inside. -/
def span {α κ : Type} (s : Text) (e : Tag.Enclosure α κ) : Nat × Nat × α × Text :=
  (e.opening.start, e.closing.stop, e.opening.content, e.body s)

/-- The pairs of an outline by their ends, their openings, and what is inside. -/
def spans (d : Delimiters) (w : P → Text) :
    (pos : Nat) → List (Segment P α) → List (Nat × Nat × α × List (Piece P))
  | _, [] => []
  | pos, .piece q :: ss => spans d w (pos + (q.text d w).length) ss
  | pos, .pair a front inside back :: ss =>
    let stop := pos + (d.enclose front).length + (write d w inside).length + (d.enclose back).length
    (pos, stop, a, inside) :: spans d w stop ss

theorem outermost_skip {close? : Tag α → Option (Tag κ)} {cursor : Nat} {ts us : List (Tag α)}
    (h : ∀ t ∈ ts, t.start < cursor ∨ close? t = none) :
    Tag.outermost close? cursor (ts ++ us) = Tag.outermost close? cursor us := by
  induction ts with
  | nil => rfl
  | cons t ts ih =>
    rw [List.cons_append, Tag.outermost, ih fun x hx => h x (by simp [hx])]
    rcases h t (by simp) with hlt | hn
    · rw [if_pos hlt]
    · rw [hn]
      split <;> rfl

theorem span_of_closing {e : Tag.Enclosure α κ} {s pre inside rest : Text}
    (hs : s = pre ++ (e.opening.lexeme ++ (inside ++ rest))) (hpre : e.opening.start = pre.length)
    (hclose : e.closing.start = e.opening.stop + inside.length) : e.body s = inside := by
  have hdrop : s.drop e.opening.stop = inside ++ rest := by
    rw [hs, Tag.stop, hpre, List.drop_append, List.drop_eq_nil_of_le (by omega), List.nil_append,
      Nat.add_sub_cancel_left, List.drop_left]
  rw [Tag.Enclosure.body, Text.slice, hdrop, hclose, Nat.add_sub_cancel_left, List.take_left]

section

variable {g : Pairing α} {close? : Tag α → Option (Tag κ)} {s pre body : Text} {a : α}
  {ps inside rest : List (Piece P)} {back : Text}

theorem start_of_mem_headsAt {n : Nat} {t : Tag α} (ht : t ∈ headsAt d g n body) : t.start = n := by
  obtain ⟨a, -, rfl⟩ := List.mem_map.mp ht
  rfl

/-- A tag that nothing closes in an outline has no closing tag in its text. -/
theorem Closes.eq_none (hclose : Closes d w g close? s) (hps : Tidy d w ps)
    (hs : s = pre ++ (d.enclose body ++ write d w ps))
    (hsplit : splitClose (g.opens a) (g.closes a) 0 ps = none) :
    close? ⟨pre.length, d.enclose body, a, d.enclose_ne_nil body⟩ = none := by
  have hspan := hclose pre body a ps hps hs
  rw [hsplit] at hspan
  simpa using hspan

/-- A tag that another closes in an outline has that one as its closing tag. -/
theorem Closes.exists_eq_some (hclose : Closes d w g close? s) (hps : Tidy d w ps)
    (hs : s = pre ++ (d.enclose body ++ write d w ps))
    (hsplit : splitClose (g.opens a) (g.closes a) 0 ps = some (inside, back, rest)) :
    ∃ c, close? ⟨pre.length, d.enclose body, a, d.enclose_ne_nil body⟩ = some c ∧
      c.start = pre.length + (d.enclose body).length + (write d w inside).length ∧
      c.stop = (pre ++ write d w (.tag body :: (inside ++ [.tag back]))).length := by
  have hspan := hclose pre body a ps hps hs
  rw [hsplit, Option.map_some] at hspan
  obtain ⟨c, hc, hcspan⟩ := Option.map_eq_some_iff.mp hspan
  obtain ⟨hstart, hstop⟩ := Prod.mk.inj hcspan
  refine ⟨c, hc, hstart, hstop.trans ?_⟩
  simp [Piece.text, Nat.add_assoc]

/-- A tag that opens no pair is passed over. -/
theorem outermost_unpaired (hclose : Closes d w g close? s) (hps : Tidy d w ps)
    (hs : s = pre ++ (d.enclose body ++ write d w ps)) (hnone : pairFrom g body ps = none)
    (cursor : Nat) :
    Tag.outermost close? cursor (locate d w (headsAt d g) pre.length (.tag body :: ps)) =
      Tag.outermost close? cursor
        (locate d w (headsAt d g) (pre.length + (d.enclose body).length) ps) := by
  rw [locate]
  refine outermost_skip fun t ht => .inr ?_
  obtain ⟨a, ha, rfl⟩ := List.mem_map.mp ht
  exact hclose.eq_none hps hs (by simpa using List.findSome?_eq_none_iff.mp hnone a ha)

/-- A pair is found where it opens, and what opens inside it is passed over. -/
theorem outermost_paired (hclose : Closes d w g close? s) (hps : Tidy d w ps)
    (hs : s = pre ++ (d.enclose body ++ write d w ps))
    (hsome : pairFrom g body ps = some (a, inside, back, rest)) {cursor : Nat}
    (hcursor : cursor ≤ pre.length) :
    ∃ c : Tag κ, c.start = pre.length + (d.enclose body).length + (write d w inside).length ∧
      c.stop = (pre ++ write d w (.tag body :: (inside ++ [.tag back]))).length ∧
      Tag.outermost close? cursor (locate d w (headsAt d g) pre.length (.tag body :: ps)) =
        ⟨⟨pre.length, d.enclose body, a, d.enclose_ne_nil body⟩, c⟩ ::
          Tag.outermost close? c.stop (locate d w (headsAt d g) c.stop rest) := by
  obtain ⟨before, after, hheads, hbefore, hsplit⟩ := pairFrom_eq_some hsome
  obtain ⟨c, hc, hstart, hstop⟩ := hclose.exists_eq_some hps hs hsplit
  obtain rfl := pairFrom_eq hsome
  let opening (a : α) : Tag α := ⟨pre.length, d.enclose body, a, d.enclose_ne_nil body⟩
  -- The tag may open pairs in more than one way; ways that no closing tag answers are passed over.
  have hskip : ∀ t ∈ before.map opening, t.start < cursor ∨ close? t = none := by
    intro t ht
    obtain ⟨b, hb, rfl⟩ := List.mem_map.mp ht
    exact .inr (hclose.eq_none hps hs (hbefore b hb))
  -- Once the pair is taken the cursor is behind it, so nothing that begins in it is outermost.
  have hlater : ∀ t ∈ after.map opening ++
      locate d w (headsAt d g) (pre.length + (d.enclose body).length) (inside ++ [.tag back]),
      t.start < c.stop ∨ close? t = none := by
    have hpos := List.length_pos_iff.mpr (d.enclose_ne_nil back)
    rw [hstop]
    intro t ht
    left
    rcases List.mem_append.mp ht with h | h
    · obtain ⟨b, -, rfl⟩ := List.mem_map.mp h
      simp [opening, Piece.text]
      omega
    · have := (start_of_mem_locate (fun _ _ _ => start_of_mem_headsAt) t h).2
      simp [Piece.text] at this ⊢
      omega
  have hbehind : pre.length + (d.enclose body).length + (write d w (inside ++ [.tag back])).length =
      c.stop := by
    rw [hstop]
    simp [Piece.text, Nat.add_assoc]
  refine ⟨c, hstart, hstop, ?_⟩
  calc Tag.outermost close? cursor (locate d w (headsAt d g) pre.length
        (.tag body :: (inside ++ .tag back :: rest)))
      = Tag.outermost close? cursor (opening a :: (after.map opening ++
          locate d w (headsAt d g) (pre.length + (d.enclose body).length)
            (inside ++ .tag back :: rest))) := by
        rw [locate, headsAt, hheads, List.map_append, List.append_assoc, outermost_skip hskip]
        rfl
    _ = ⟨opening a, c⟩ :: Tag.outermost close? c.stop (after.map opening ++
          locate d w (headsAt d g) (pre.length + (d.enclose body).length)
            (inside ++ .tag back :: rest)) := by
        rw [Tag.outermost, if_neg (by simpa [opening] using hcursor), hc]
    _ = ⟨opening a, c⟩ :: Tag.outermost close? c.stop (locate d w (headsAt d g) c.stop rest) := by
        rw [show inside ++ .tag back :: rest = inside ++ [.tag back] ++ rest by simp, locate_append,
          ← List.append_assoc, outermost_skip hlater, hbehind]

/-- The outermost enclosures of a written outline are its outermost pairs. -/
theorem span_outermost (hclose : Closes d w g close? s) (hps : Tidy d w ps)
    (hs : s = pre ++ write d w ps) {cursor : Nat} (hcursor : cursor ≤ pre.length) :
    (Tag.outermost close? cursor (locate d w (headsAt d g) pre.length ps)).map (span s) =
      (spans d w pre.length (segments g ps)).map
        fun x => (x.1, x.2.1, x.2.2.1, write d w x.2.2.2) := by
  fun_induction segments g ps generalizing pre cursor with
  | case1 => rfl
  | case2 p ps ih =>
    have hs' : s = (pre ++ w p) ++ write d w ps := by simpa [Piece.text] using hs
    have hcursor' : cursor ≤ (pre ++ w p).length := by simp; omega
    have := ih hps.tail hs' hcursor'
    simpa [locate, spans, Piece.text] using this
  | case3 body ps hnone ih =>
    have hs' : s = pre ++ (d.enclose body ++ write d w ps) := by simpa [Piece.text] using hs
    have hs'' : s = (pre ++ d.enclose body) ++ write d w ps := by simpa using hs'
    have hcursor' : cursor ≤ (pre ++ d.enclose body).length := by simp; omega
    rw [outermost_unpaired hclose hps.tail hs' hnone]
    simpa [spans, Piece.text] using ih hps.tail hs'' hcursor'
  | case4 body ps a inside back rest hsome hlt ih =>
    have hs' : s = pre ++ (d.enclose body ++ write d w ps) := by simpa [Piece.text] using hs
    obtain ⟨c, hstart, hstop, houtermost⟩ := outermost_paired hclose hps.tail hs' hsome hcursor
    obtain rfl := pairFrom_eq hsome
    have hbody : (⟨⟨pre.length, d.enclose body, a, d.enclose_ne_nil body⟩, c⟩ :
        Tag.Enclosure α κ).body s = write d w inside := by
      have htext :
          s = pre ++ (d.enclose body ++ (write d w inside ++ write d w (.tag back :: rest))) := by
        rw [hs']
        simp
      exact span_of_closing htext rfl hstart
    have hs'' : s = (pre ++ write d w (.tag body :: (inside ++ [.tag back]))) ++
        write d w rest := by
      rw [hs]
      simp
    have hrest := ih (fun q hq => hps.tail q (by simp [hq])) hs'' (Nat.le_of_eq hstop)
    rw [← hstop] at hrest
    rw [houtermost, List.map_cons, spans, hrest]
    simp [span, hbody, hstop, Piece.text, Nat.add_assoc]

end

/-! ## Splicing pairs -/

/-- A segment, and what takes its place if it is a pair. -/
def patchOf (d : Delimiters) (w : P → Text) (f : α → List (Piece P) → Text) :
    Segment P α → Text × Option Text
  | .piece q => (q.text d w, none)
  | .pair a front inside back =>
      (write d w (.tag front :: (inside ++ [.tag back])), some (f a inside))

/-- A segment after splicing. -/
def replaced (d : Delimiters) (w : P → Text) (f : α → List (Piece P) → Text) :
    Segment P α → Text
  | .piece q => q.text d w
  | .pair a _ inside _ => f a inside

/-- An outline without pairs is not changed. -/
theorem replaced_of_heads_nil {g : Pairing α} {ps : List (Piece P)}
    (h : ∀ body, .tag body ∈ ps → g.heads body = []) (f : α → List (Piece P) → Text) :
    (segments g ps).flatMap (replaced d w f) = write d w ps := by
  rw [segments_of_heads_nil h, List.flatMap_map]
  rfl

theorem patches_segments (f : α → List (Piece P) → Text) (pos : Nat) (ss : List (Segment P α)) :
    Text.patches pos (ss.map (patchOf d w f)) =
      (spans d w pos ss).map fun x => ⟨x.1, x.2.1, f x.2.2.1 x.2.2.2⟩ := by
  induction ss generalizing pos with
  | nil => rfl
  | cons g ss ih =>
    cases g with
    | piece q => exact ih _
    | pair a front inside back =>
      have hlen : pos + (write d w (.tag front :: (inside ++ [.tag back]))).length =
          pos + (d.enclose front).length + (write d w inside).length + (d.enclose back).length := by
        simp [Piece.text, Nat.add_assoc]
      rw [List.map_cons, patchOf, Text.patches, ih, spans, hlen]
      rfl

/-- Splicing the pairs of an outline replaces them among the segments. -/
theorem splice_spans (g : Pairing α) (ps : List (Piece P)) (f : α → List (Piece P) → Text) :
    (write d w ps).splice ((spans d w 0 (segments g ps)).map fun x =>
        ⟨x.1, x.2.1, f x.2.2.1 x.2.2.2⟩) =
      (segments g ps).flatMap (replaced d w f) := by
  have hwrite : write d w ps = ((segments g ps).map (patchOf d w f)).flatMap (·.1) := by
    rw [List.flatMap_map]
    have := congrArg (write d w) (flatMap_segments g ps)
    rw [write_flatMap] at this
    rw [← this]
    congr 1
    funext x
    cases x with
    | piece q => simp [Segment.pieces, patchOf]
    | pair a front inside back => rfl
  rw [← patches_segments, Text.splice, hwrite, Text.spliceFrom_patches, List.flatMap_map]
  congr 1
  funext x
  cases x <;> rfl

/-- Splicing the outermost enclosures replaces the pairs among the segments. -/
theorem splice_outermost {g : Pairing α} {close? : Tag α → Option (Tag κ)} {ps : List (Piece P)}
    (hclose : Closes d w g close? (write d w ps)) (hps : Tidy d w ps) (f : α → Text → Text) :
    (write d w ps).splice ((Tag.outermost close? 0 (locate d w (headsAt d g) 0 ps)).map fun e =>
        ⟨e.opening.start, e.closing.stop, f e.opening.content (e.body (write d w ps))⟩) =
      (segments g ps).flatMap (replaced d w fun a inside => f a (write d w inside)) := by
  have hspan := congrArg
    (List.map fun x : Nat × Nat × α × Text => (⟨x.1, x.2.1, f x.2.2.1 x.2.2.2⟩ : Edit))
    (span_outermost hclose hps (show write d w ps = [] ++ write d w ps from rfl)
      (Nat.le_refl ([] : Text).length))
  rw [List.map_map, List.map_map] at hspan
  rw [← splice_spans]
  exact congrArg (Text.splice (write d w ps)) hspan

/-- The pairs among segments: what they are, and what is inside. -/
def pairs : List (Segment P α) → List (α × List (Piece P))
  | [] => []
  | .piece _ :: ss => pairs ss
  | .pair a _ inside _ :: ss => (a, inside) :: pairs ss

theorem mem_pairs {ss : List (Segment P α)} {x : α × List (Piece P)} (h : x ∈ pairs ss) :
    ∃ front back, .pair x.1 front x.2 back ∈ ss := by
  induction ss with
  | nil => exact absurd h (by simp [pairs])
  | cons y ss ih =>
    cases y with
    | piece q =>
      obtain ⟨front, back, hx⟩ := ih h
      exact ⟨front, back, by simp [hx]⟩
    | pair a front inside back =>
      rcases List.mem_cons.mp h with rfl | h
      · exact ⟨front, back, by simp⟩
      · obtain ⟨front, back, hx⟩ := ih h
        exact ⟨front, back, by simp [hx]⟩

/-- What the outermost enclosures open and what is inside them. -/
theorem contents_outermost {g : Pairing α} {close? : Tag α → Option (Tag κ)} {ps : List (Piece P)}
    (hclose : Closes d w g close? (write d w ps)) (hps : Tidy d w ps) :
    (Tag.outermost close? 0 (locate d w (headsAt d g) 0 ps)).map
        (fun e => (e.opening.content, e.body (write d w ps))) =
      (pairs (segments g ps)).map fun x => (x.1, write d w x.2) := by
  have hspan := congrArg (List.map fun x : Nat × Nat × α × Text => x.2.2)
    (span_outermost hclose hps (show write d w ps = [] ++ write d w ps from rfl)
      (Nat.le_refl ([] : Text).length))
  rw [List.map_map, List.map_map] at hspan
  refine hspan.trans ?_
  generalize ([] : Text).length = pos
  induction segments g ps generalizing pos with
  | nil => rfl
  | cons x ss ih =>
    cases x with
    | piece q => exact ih _
    | pair a front inside back =>
      rw [spans, List.map_cons, ih, pairs, List.map_cons]
      rfl

/-- Openings that have no closing tag need not be looked at. -/
theorem outermost_filter {close? : Tag α → Option (Tag κ)} {p : Tag α → Bool} {ts : List (Tag α)}
    (h : ∀ t ∈ ts, p t = false → close? t = none) (cursor : Nat) :
    Tag.outermost close? cursor (ts.filter p) = Tag.outermost close? cursor ts := by
  induction ts generalizing cursor with
  | nil => rfl
  | cons t ts ih =>
    have ih := ih fun x hx => h x (by simp [hx])
    cases hp : p t with
    | true =>
      rw [List.filter_cons_of_pos hp, Tag.outermost, Tag.outermost]
      simp only [ih]
    | false =>
      rw [List.filter_cons_of_neg (by simp [hp]), Tag.outermost, h t (by simp) hp, ih]
      split <;> rfl

theorem mem_locate {γ : Type} {f : Nat → Text → List γ} {pos : Nat} {ps : List (Piece P)} {x : γ}
    (h : x ∈ locate d w f pos ps) : ∃ front body back,
      ps = front ++ .tag body :: back ∧ x ∈ f (pos + (write d w front).length) body := by
  induction ps generalizing pos with
  | nil => exact absurd h (by simp [locate])
  | cons q ps ih =>
    cases q with
    | plain p =>
      obtain ⟨front, body, back, rfl, hx⟩ := ih h
      refine ⟨.plain p :: front, body, back, rfl, ?_⟩
      rwa [write_cons, List.length_append, ← Nat.add_assoc]
    | tag b =>
      rcases List.mem_append.mp h with hx | hx
      · exact ⟨[], b, ps, rfl, hx⟩
      · obtain ⟨front, body, back, rfl, hx⟩ := ih hx
        refine ⟨.tag b :: front, body, back, rfl, ?_⟩
        rwa [write_cons, List.length_append, ← Nat.add_assoc]

end Outline

end Stencil
