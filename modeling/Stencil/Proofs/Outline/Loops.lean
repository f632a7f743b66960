import Stencil.Proofs.Outline.Pairs
import Stencil.Template.Loops

/-!
# Loops of an outline

Loops are pairs of tags with the same path. The openings of a text are those of the outline but for
legacy openings that are closed nowhere, which have no closing tag anyway; so expanding the loops
of an outline treats one segment after the other.
-/

namespace Stencil

namespace Outline

open Recognizer

variable {P : Type} {d : Delimiters} {w : P → Text}

/-- The opening grammar of a form of loops, by path. -/
def loopOpen (d : Delimiters) : LoopForm → Recognizer Text
  | .bound _ => d.loopOpening.map (·.path)
  | .legacy => d.legacyOpening.map (·.path)

/-- The closing grammar of a form of loops. -/
def loopClose (d : Delimiters) : LoopForm → Recognizer Text
  | .bound _ => d.loopClosing
  | .legacy => d.legacyClosing

/-- Loops are pairs with the same path. -/
def loopPairing (d : Delimiters) : Pairing LoopHead where
  heads body := (reading d d.loopOpening body).toList ++ (reading d d.legacyOpening body).toList
  opens head := readsAs d (loopOpen d head.form) head.path
  closes head := readsAs d (loopClose d head.form) head.path

theorem delimited_loopOpen (hd : d.Apart) (form : LoopForm) : Delimited d (loopOpen d form) := by
  cases form with
  | bound name => exact (Delimiters.delimited_loopOpening hd).map
  | legacy => exact (Delimiters.delimited_legacyOpening hd).map

theorem delimited_loopClose (hd : d.Apart) (form : LoopForm) : Delimited d (loopClose d form) := by
  cases form with
  | bound name => exact Delimiters.delimited_loopClosing hd
  | legacy => exact Delimiters.delimited_legacyClosing hd

theorem closes_loops (hd : d.Apart) (s : Text) :
    Closes d w (loopPairing d) (Loop.closing? d s) s := by
  intro pre body a ps hps hs
  have hclose := closing?_write hd (delimited_loopOpen hd a.form) (delimited_loopClose hd a.form)
    a.path (pre ++ d.enclose body) hps
  rw [List.append_assoc, ← hs, List.length_append] at hclose
  cases hf : a.form with
  | bound name =>
    rw [hf] at hclose
    simp only [Loop.closing?, hf, loopPairing]
    exact hclose
  | legacy =>
    rw [hf] at hclose
    simp only [Loop.closing?, hf, loopPairing]
    exact hclose

theorem headsAt_loops (d : Delimiters) (pos : Nat) (body : Text) :
    headsAt d (loopPairing d) pos body =
      tagAt d d.loopOpening pos body ++ tagAt d d.legacyOpening pos body := by
  simp [headsAt, loopPairing, tagAt]

/-- Only legacy openings have the legacy form. -/
theorem legacy_of_reading {body : Text} {head : LoopHead}
    (h : reading d d.legacyOpening body = some head) : head.form = .legacy := by
  rw [Delimiters.legacyOpening, reading_map] at h
  obtain ⟨x, -, rfl⟩ := Option.map_eq_some_iff.mp h
  rfl

theorem bound_of_reading {body : Text} {head : LoopHead}
    (h : reading d d.loopOpening body = some head) : head.form ≠ .legacy := by
  rw [Delimiters.loopOpening, reading_map] at h
  obtain ⟨x, -, rfl⟩ := Option.map_eq_some_iff.mp h
  simp

/-- Whether an opening is bound, or its path is among some closed ones. -/
def mayClose (closed : List Text) (t : Tag LoopHead) : Bool :=
  match t.content.form with
  | .bound _ => true
  | .legacy => closed.contains t.content.path

theorem openings_write (hd : d.Apart) {ps : List (Piece P)} (hps : Tidy d w ps) :
    Loop.openings d (write d w ps) =
      (locate d w (headsAt d (loopPairing d)) 0 ps).filter
        (mayClose ((Tag.scan d.legacyClosing (write d w ps)).map (·.content))) := by
  have hstart : ∀ {r : Recognizer LoopHead} n b, ∀ t ∈ tagAt d r n b, t.start = n := by
    intro r n b t ht
    obtain ⟨a, -, rfl⟩ := List.mem_map.mp ht
    rfl
  rw [Loop.openings]
  generalize (Tag.scan d.legacyClosing (write d w ps)).map (·.content) = closed
  rw [Tag.scan, Tag.scan, scanFrom_write hd (Delimiters.delimited_loopOpening hd) hps,
    scanFrom_write hd (Delimiters.delimited_legacyOpening hd) hps, filter_locate, filter_locate,
    merge_locate hstart fun n b t ht => hstart n b t (List.mem_filter.mp ht).1]
  congr 1
  funext n b
  rw [headsAt_loops, List.filter_append]
  congr 1
  · refine (List.filter_eq_self.mpr fun t ht => ?_).symm
    obtain ⟨a, ha, rfl⟩ := List.mem_map.mp ht
    have hform := bound_of_reading (Option.mem_toList.mp ha)
    unfold mayClose
    dsimp only
    cases hf : a.form with
    | bound name => rfl
    | legacy => exact absurd hf hform
  · refine List.filter_congr fun t ht => ?_
    obtain ⟨a, ha, rfl⟩ := List.mem_map.mp ht
    simp only [mayClose, legacy_of_reading (Option.mem_toList.mp ha), List.contains_eq_mem]

theorem Closes.none_of_splitClose {α κ : Type} {g : Pairing α} {close? : Tag α → Option (Tag κ)}
    {s pre body : Text} {a : α} {ps : List (Piece P)} (h : Closes d w g close? s)
    (hps : Tidy d w ps) (hs : s = pre ++ (d.enclose body ++ write d w ps))
    (hn : splitClose (g.opens a) (g.closes a) 0 ps = none) :
    close? ⟨pre.length, d.enclose body, a, d.enclose_ne_nil body⟩ = none := by
  have := h pre body a ps hps hs
  rw [hn] at this
  simpa using this

/-- An opening whose path is closed nowhere has no closing tag. -/
theorem closing?_of_not_mayClose (hd : d.Apart) {ps : List (Piece P)} (hps : Tidy d w ps) :
    ∀ t ∈ locate d w (headsAt d (loopPairing d)) 0 ps,
      mayClose ((Tag.scan d.legacyClosing (write d w ps)).map (·.content)) t = false →
        Loop.closing? d (write d w ps) t = none := by
  intro t ht hmay
  obtain ⟨front, body, back, rfl, hhead⟩ := mem_locate ht
  obtain ⟨a, -, rfl⟩ := List.mem_map.mp hhead
  rw [Nat.zero_add]
  have hback : Tidy d w back := fun q hq => hps q (by simp [hq])
  refine (closes_loops hd _).none_of_splitClose hback (by simp [Piece.text]) ?_
  cases hsplit : splitClose ((loopPairing d).opens a) ((loopPairing d).closes a) 0 back with
  | none => rfl
  | some x =>
    obtain ⟨inside, c, rest⟩ := x
    obtain ⟨hb, hc⟩ := splitClose_eq_some hsplit
    exfalso
    unfold mayClose at hmay
    dsimp only at hmay
    cases hf : a.form with
    | bound name => rw [hf] at hmay; exact absurd hmay (by simp)
    | legacy =>
      -- the closing tag that balances is one of the closing tags of the whole text
      rw [hf, List.contains_eq_mem, decide_eq_false_iff_not] at hmay
      apply hmay
      have hread : reading d d.legacyClosing c = some a.path := by
        simpa [loopPairing, readsAs, loopClose, hf] using hc
      rw [Tag.scan, scanFrom_write hd (Delimiters.delimited_legacyClosing hd) hps, map_locate, hb]
      simp [locate_append, locate, tagAt, hread]

theorem expandLoops_eq (d : Delimiters) (render : Text → Context → Text) (s : Text)
    (ctx : Context) :
    expandLoops d render s ctx =
      s.splice ((Loop.outermost d s).map fun loop =>
        ⟨loop.opening.start, loop.closing.stop,
          (Loop.rows ctx loop.opening.content).zipIdx.flatMap fun (row, index) =>
            let ctx := Loop.rowContext loop.opening.content.form ctx index row
            render (expandLoops d render (loop.body s) ctx) ctx⟩) := by
  rw [expandLoops]
  split
  · rename_i hs
    subst hs
    simp [Loop.outermost, Loop.openings, Tag.scan, Tag.scanFrom, Tag.outermost, Text.splice,
      Text.spliceFrom]
  · rfl

/-- Expanding the loops of an outline. -/
theorem expandLoops_write (hd : d.Apart) (render : Text → Context → Text) {ps : List (Piece P)}
    (hps : Tidy d w ps) (ctx : Context) :
    expandLoops d render (write d w ps) ctx =
      (segments (loopPairing d) ps).flatMap (replaced d w fun head inside =>
        (Loop.rows ctx head).zipIdx.flatMap fun x =>
          let inner := Loop.rowContext head.form ctx x.2 x.1
          render (expandLoops d render (write d w inside) inner) inner) := by
  rw [expandLoops_eq, Loop.outermost, openings_write hd hps,
    outermost_filter (closing?_of_not_mayClose hd hps)]
  exact splice_outermost (closes_loops hd _) hps fun head s =>
    (Loop.rows ctx head).zipIdx.flatMap fun x =>
      let inner := Loop.rowContext head.form ctx x.2 x.1
      render (expandLoops d render s inner) inner

end Outline

end Stencil
