import Stencil.Engine.Composition
import Stencil.Proofs.Outline.Choices
import Stencil.Proofs.Outline.Loops

/-!
# Families of texts with one outline

A weave says how the members of a family write the plain pieces they have in common, and which
pieces may occur at all. A family of texts belongs to it if one outline gives all of them. Under
contexts that give the members the same rows, the same truths, and values that the weave can write,
every pass of rendering turns a family into a family: what a tag is replaced by may differ from
member to member, where tags stand may not.
-/

namespace Stencil

open Recognizer

/-- How the members of a family write their pieces, and which pieces they may have. -/
structure Weave (d : Delimiters) (ι P : Type) where
  /-- How a member writes plain content. -/
  write : ι → P → Text
  /-- The pieces that may occur. -/
  admits : Piece P → Prop
  /-- A piece that may occur hides no tag, whichever member writes it. -/
  tidy : ∀ {q : Piece P}, admits q → ∀ i, q.Tidy d (write i)

namespace Weave

variable {d : Delimiters} {ι P : Type}

/-- A family of texts with one outline. -/
def Family (W : Weave d ι P) (s : ι → Text) : Prop :=
  ∃ ps : List (Piece P), (∀ q ∈ ps, W.admits q) ∧ ∀ i, s i = Outline.write d (W.write i) ps

variable {W : Weave d ι P}

theorem family_nil : W.Family fun _ => [] := ⟨[], by simp, fun _ => rfl⟩

theorem Family.append {s t : ι → Text} (hs : W.Family s) (ht : W.Family t) :
    W.Family fun i => s i ++ t i := by
  obtain ⟨ps, hps, hs⟩ := hs
  obtain ⟨qs, hqs, ht⟩ := ht
  refine ⟨ps ++ qs, fun q hq => ?_, fun i => by simp only [hs, ht, Outline.write_append]⟩
  rcases List.mem_append.mp hq with h | h
  · exact hps q h
  · exact hqs q h

theorem family_piece {q : Piece P} (h : W.admits q) : W.Family fun i => q.text d (W.write i) :=
  ⟨[q], by simpa using h, fun i => by simp⟩

theorem family_flatMap {β : Type} {xs : List β} {f : β → ι → Text}
    (h : ∀ x ∈ xs, W.Family (f x)) : W.Family fun i => xs.flatMap fun x => f x i := by
  induction xs with
  | nil => exact family_nil
  | cons x xs ih =>
    simp only [List.flatMap_cons]
    exact (h x (by simp)).append (ih fun y hy => h y (by simp [hy]))

theorem Family.congr {s t : ι → Text} (hs : W.Family s) (h : ∀ i, t i = s i) : W.Family t := by
  obtain ⟨ps, hps, hs⟩ := hs
  exact ⟨ps, hps, fun i => by rw [h, hs]⟩

theorem tidy_of_admits {ps : List (Piece P)} (h : ∀ q ∈ ps, W.admits q) (i : ι) :
    Outline.Tidy d (W.write i) ps :=
  fun q hq => W.tidy (h q hq) i

/-- Replacing pairs by families gives a family. -/
theorem family_replaced {α : Type} {g : Pairing α} {ps : List (Piece P)}
    (hps : ∀ q ∈ ps, W.admits q) {f : ι → α → List (Piece P) → Text}
    (hf : ∀ a front inside back, .pair a front inside back ∈ Outline.segments g ps →
      W.Family fun i => f i a inside) :
    W.Family fun i =>
      (Outline.segments g ps).flatMap (Outline.replaced d (W.write i) (f i)) := by
  refine family_flatMap fun x hx => ?_
  cases x with
  | piece q =>
      exact family_piece (hps q (Outline.mem_of_mem_pieces hx q (by simp [Segment.pieces])))
  | pair a front inside back => exact hf a front inside back hx

end Weave

/-- Families of contexts that rendering cannot tell apart, but by what a weave can write. -/
structure Weave.Scopes {ι P : Type} (e : Engine) (W : Weave e.delimiters ι P)
    (scope : (ι → Context) → Prop) : Prop where
  /-- A tag stays for every member, or each replaces it by something the weave writes. -/
  text : ∀ {c : ι → Context}, scope c → ∀ {body v},
    W.admits (.tag body) → reading e.delimiters e.delimiters.variableTag body = some v →
      (∀ i, e.substitution.text? (c i) v = none) ∨
        ∃ p, W.admits (.plain p) ∧ ∀ i, e.substitution.text? (c i) v = some (W.write i p)
  /-- The members have the same rows, and these lead to families again. -/
  rows : ∀ {c : ι → Context}, scope c → ∀ {body head},
    W.admits (.tag body) → head ∈ (Outline.loopPairing e.delimiters).heads body →
      ∃ rows, (∀ i, Loop.rows (c i) head = rows) ∧
        ∀ x ∈ rows.zipIdx, scope fun i => Loop.rowContext head.form (c i) x.2 x.1
  /-- The members agree on conditions. -/
  holds : ∀ {c : ι → Context}, scope c → ∀ {body condition},
    W.admits (.tag body) →
      (reading e.delimiters e.delimiters.conditionalTag body = some (.opening condition) ∨
        reading e.delimiters e.delimiters.conditionalTag body = some (.branch (some condition))) →
      ∀ x, Condition.read condition = .ok x → ∀ i j, x.holds (c i) = x.holds (c j)

namespace Weave

variable {ι P : Type} {e : Engine} {W : Weave e.delimiters ι P} {scope : (ι → Context) → Prop}
  {c : ι → Context} {s : ι → Text}

theorem Family.apply (hd : e.delimiters.Apart) (h : W.Scopes e scope) (hc : scope c)
    (hs : W.Family s) : W.Family fun i => e.substitution.apply (s i) (c i) := by
  obtain ⟨ps, hps, hs⟩ := hs
  have hdelimiters : e.substitution.delimiters = e.delimiters := rfl
  have hpass : ∀ i, e.substitution.apply (s i) (c i) =
      ps.flatMap (Outline.substituted e.substitution (W.write i) (c i)) := by
    intro i
    rw [hs i]
    exact Outline.apply_write (σ := e.substitution) hd (tidy_of_admits hps i) (c i)
  refine Family.congr (family_flatMap fun q hq => ?_) hpass
  cases q with
  | plain p => exact family_piece (hps _ hq)
  | tag body =>
    have hkeep : W.Family fun _ => e.delimiters.enclose body := family_piece (hps _ hq)
    cases hr : reading e.delimiters e.delimiters.variableTag body with
    | none => exact hkeep.congr fun i => by simp [Outline.substituted, hdelimiters, hr]
    | some v =>
      rcases h.text hc (hps _ hq) hr with hn | ⟨p, hp, hsome⟩
      · exact hkeep.congr fun i => by
          simp [Outline.substituted, hdelimiters, hr, hn i]
      · exact (family_piece hp).congr fun i => by
          simp [Outline.substituted, hdelimiters, hr, hsome i, Piece.text]

theorem Family.expandLoops (hd : e.delimiters.Apart) (h : W.Scopes e scope) (hc : scope c)
    (hs : W.Family s) {render : Text → Context → Text}
    (hrender : ∀ {c s}, scope c → W.Family s → W.Family fun i => render (s i) (c i)) :
    W.Family fun i => expandLoops e.delimiters render (s i) (c i) := by
  obtain ⟨ps, hps, hs⟩ := hs
  refine Family.congr (s := fun i =>
    Stencil.expandLoops e.delimiters render (Outline.write e.delimiters (W.write i) ps) (c i))
    ?_ fun i => by rw [hs i]
  clear hs
  -- the bodies of loops are shorter outlines
  induction hn : ps.length using Nat.strongRecOn generalizing ps c with
  | ind n ih =>
    refine Family.congr ?_ fun i =>
      Outline.expandLoops_write hd render (tidy_of_admits hps i) (c i)
    refine family_replaced hps fun head front inside back hpair => ?_
    have hpieces := Outline.mem_of_mem_pieces hpair
    have hfront : W.admits (.tag front) := hps _ (hpieces _ (by simp [Segment.pieces]))
    have hinside : ∀ q ∈ inside, W.admits q := fun q hq =>
      hps q (hpieces q (by simp [Segment.pieces, hq]))
    obtain ⟨rows, hrows, hnext⟩ := h.rows hc hfront (Outline.head_of_mem_segments hpair)
    have hlt : inside.length < n := hn ▸ Outline.length_inside_lt hpair
    refine Family.congr ?_ fun i => by rw [hrows i]
    exact family_flatMap fun x hx =>
      hrender (hnext x hx) (ih inside.length hlt (hnext x hx) inside hinside rfl)

theorem Family.resolveConditionals (hd : e.delimiters.Apart) (h : W.Scopes e scope) (hc : scope c)
    (hs : W.Family s) : W.Family fun i => resolveConditionals e.delimiters (c i) (s i) := by
  obtain ⟨ps, hps, hs⟩ := hs
  refine Family.congr (s := fun i =>
    Stencil.resolveConditionals e.delimiters (c i) (Outline.write e.delimiters (W.write i) ps))
    ?_ fun i => by rw [hs i]
  clear hs
  -- the branches of conditionals are shorter outlines
  induction hn : ps.length using Nat.strongRecOn generalizing ps with
  | ind n ih =>
    refine Family.congr ?_ fun i =>
      Outline.resolveConditionals_write hd (c i) (tidy_of_admits hps i)
    refine family_replaced hps fun condition front inside back hpair => ?_
    have hpieces := Outline.mem_of_mem_pieces hpair
    have hfront : W.admits (.tag front) := hps _ (hpieces _ (by simp [Segment.pieces]))
    have hinside : ∀ q ∈ inside, W.admits q := fun q hq =>
      hps q (hpieces q (by simp [Segment.pieces, hq]))
    have hlt : inside.length < n := hn ▸ Outline.length_inside_lt hpair
    have hread := Outline.reading_of_heads (Outline.head_of_mem_segments hpair)
    -- every member lets the same branch survive
    have hsame : ∀ i j,
        Outline.survivor (c i) (Outline.branches e.delimiters 0 (some condition) [] inside) =
          Outline.survivor (c j) (Outline.branches e.delimiters 0 (some condition) [] inside) := by
      intro i j
      refine Outline.survivor_congr fun condition' hmem y hy => ?_
      obtain ⟨x, hx⟩ := hmem
      rcases (Outline.branchOf_of_mem hx).condition with heq | ⟨body, hb, hr⟩
      · obtain rfl := Option.some.inj heq
        exact h.holds hc hfront (.inl hread) y hy i j
      · exact h.holds hc (hinside _ hb) (.inr hr) y hy i j
    by_cases hne : Nonempty ι
    · obtain ⟨j⟩ := hne
      cases hsurvivor : Outline.survivor (c j)
          (Outline.branches e.delimiters 0 (some condition) [] inside) with
      | none => exact family_nil.congr fun i => by rw [hsame i j, hsurvivor]; rfl
      | some branch =>
        obtain ⟨condition?, hmem⟩ := Outline.survivor_mem hsurvivor
        have hbranch := Outline.branchOf_of_mem hmem
        have hlen : branch.length ≤ inside.length := by simpa using hbranch.length
        refine (ih branch.length (by omega) branch (fun q hq => ?_) rfl).congr fun i => by
          rw [hsame i j, hsurvivor]
          rfl
        rcases hbranch.pieces q hq with hm | hm
        · exact absurd hm (by simp)
        · exact hinside q hm
    · exact family_nil.congr fun i => absurd ⟨i⟩ hne

/-- Rendering turns a family of composed texts into a family. -/
theorem Family.process (hd : e.delimiters.Apart) (hplugins : e.plugins = []) (h : W.Scopes e scope)
    (hc : scope c) (hs : W.Family s) (isDocument : Bool) :
    W.Family fun i => e.process (c i) isDocument (s i) := by
  have hexpanded : W.Family fun i => Stencil.expandLoops e.delimiters
      (fun body ctx => e.substitution.apply (Stencil.resolveConditionals e.delimiters ctx body) ctx)
      (s i) (c i) :=
    hs.expandLoops hd h hc fun hc hs => (hs.resolveConditionals hd h hc).apply hd h hc
  refine ((hexpanded.apply hd h hc).resolveConditionals hd h hc).congr fun i => ?_
  cases isDocument with
  | false => rfl
  | true =>
    unfold Engine.process
    rw [hplugins]
    rfl

end Weave

end Stencil
