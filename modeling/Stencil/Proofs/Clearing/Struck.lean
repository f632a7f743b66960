import Stencil.Proofs.Outline.Concealed
import Stencil.Proofs.Outline.Loops

/-!
# Tags that are struck

Two texts are twins if they have one outline, but for tags that are struck from one of them. A
struck tag is plain content: the one text still writes it, the other writes nothing. Where a struck
tag is none of the tags that a pass looks for, the pass takes twins to twins.
-/

namespace Stencil

open Recognizer

/-- Plain content of twins: text, or a tag that is struck. -/
inductive Remnant where
  /-- Text. -/
  | text (s : Text)
  /-- A tag, by what stands between its delimiters. -/
  | struck (body : Text)

namespace Remnant

/-- What the twin with all tags writes. -/
def full (d : Delimiters) : Remnant → Text
  | .text s => s
  | .struck body => d.enclose body

/-- What the other twin writes. -/
def bare : Remnant → Text
  | .text s => s
  | .struck _ => []

/-- What it is read as in the twin with all tags. -/
def kept : Remnant → Piece Text
  | .text s => .plain s
  | .struck body => .tag body

end Remnant

namespace Piece

/-- The piece of the twin with all tags. -/
def restored : Piece Remnant → Piece Text
  | .plain (.text s) => .plain s
  | .plain (.struck body) => .tag body
  | .tag body => .tag body

/-- A piece that is the same for both twins. -/
def shared : Piece Text → Piece Remnant
  | .plain s => .plain (.text s)
  | .tag body => .tag body

/-- No tag starts in a plain stretch and no delimiter in a tag, and tags are of some kind, as are
struck tags. -/
def Fits (d : Delimiters) (live struck : Text → Prop) : Piece Remnant → Prop
  | .plain (.text s) => d.Plain s
  | .plain (.struck body) => d.Free body ∧ struck body
  | .tag body => d.Free body ∧ live body

variable {d : Delimiters} {live live' struck struck' : Text → Prop} {q : Piece Remnant}

theorem restored_eq_bind : restored = Piece.bind Remnant.kept := by
  funext q
  rcases q with ⟨_ | _⟩ | _ <;> rfl

theorem text_bare (q : Piece Remnant) :
    (q.bind fun p => .plain p.bare).text d id = q.text d Remnant.bare := by
  cases q <;> rfl

theorem text_restored (q : Piece Remnant) : q.restored.text d id = q.text d (Remnant.full d) := by
  rcases q with ⟨_ | _⟩ | _ <;> rfl

theorem Fits.restored (h : q.Fits d live struck) : q.restored.Tidy d id := by
  rcases q with ⟨s | body⟩ | body
  · exact h
  · exact h.1
  · exact h.1

theorem Fits.tidy (h : q.Fits d live struck) : q.Tidy d Remnant.bare := by
  rcases q with ⟨s | body⟩ | body
  · exact h
  · exact Delimiters.plain_nil
  · exact h.1

theorem Fits.mono (h : q.Fits d live struck) (hlive : ∀ body, live body → live' body)
    (hstruck : ∀ body, struck body → struck' body) : q.Fits d live' struck' := by
  rcases q with ⟨s | body⟩ | body
  · exact h
  · exact ⟨h.1, hstruck body h.2⟩
  · exact ⟨h.1, hlive body h.2⟩

end Piece

namespace Outline

variable {d : Delimiters} {live live' struck struck' : Text → Prop}

/-! ## Outlines with struck tags restored -/

theorem write_restored (ps : List (Piece Remnant)) :
    write d id (ps.map Piece.restored) = write d (Remnant.full d) ps := by
  rw [write, write, List.flatMap_map]
  exact congrArg (List.flatMap · ps) (funext Piece.text_restored)

theorem write_bare (ps : List (Piece Remnant)) :
    write d id (ps.map (Piece.bind fun p => .plain p.bare)) = write d Remnant.bare ps := by
  rw [write, write, List.flatMap_map]
  exact congrArg (List.flatMap · ps) (funext Piece.text_bare)

theorem tidy_restored {ps : List (Piece Remnant)} (h : ∀ q ∈ ps, q.Fits d live struck) :
    Tidy d id (ps.map Piece.restored) := by
  intro q hq
  obtain ⟨x, hx, rfl⟩ := List.mem_map.mp hq
  exact (h x hx).restored

theorem tidy_bare {ps : List (Piece Remnant)} (h : ∀ q ∈ ps, q.Fits d live struck) :
    Tidy d Remnant.bare ps := fun q hq => (h q hq).tidy

/-! ## Twins -/

/-- A text with all its tags, and the same text with some of them struck. -/
def Twins (d : Delimiters) (live struck : Text → Prop) (full bare : Text) : Prop :=
  ∃ ps : List (Piece Remnant), (∀ q ∈ ps, q.Fits d live struck) ∧
    full = write d (Remnant.full d) ps ∧ bare = write d Remnant.bare ps

namespace Twins

variable {full bare full' bare' : Text}

theorem nil : Twins d live struck [] [] := ⟨[], by simp, rfl, rfl⟩

theorem piece {q : Piece Remnant} (h : q.Fits d live struck) :
    Twins d live struck (q.text d (Remnant.full d)) (q.text d Remnant.bare) :=
  ⟨[q], by simpa using h, by simp, by simp⟩

theorem append (h : Twins d live struck full bare) (h' : Twins d live struck full' bare') :
    Twins d live struck (full ++ full') (bare ++ bare') := by
  obtain ⟨ps, hps, rfl, rfl⟩ := h
  obtain ⟨qs, hqs, rfl, rfl⟩ := h'
  exact ⟨ps ++ qs, fun q hq => (List.mem_append.mp hq).elim (hps q) (hqs q), by simp, by simp⟩

theorem flatMap {β : Type} {xs : List β} {f g : β → Text}
    (h : ∀ x ∈ xs, Twins d live struck (f x) (g x)) :
    Twins d live struck (xs.flatMap f) (xs.flatMap g) := by
  induction xs with
  | nil => exact nil
  | cons x xs ih => exact (h x (.head _)).append (ih fun y hy => h y (.tail _ hy))

theorem mono (h : Twins d live struck full bare) (hlive : ∀ body, live body → live' body)
    (hstruck : ∀ body, struck body → struck' body) : Twins d live' struck' full bare := by
  obtain ⟨ps, hps, hfull, hbare⟩ := h
  exact ⟨ps, fun q hq => (hps q hq).mono hlive hstruck, hfull, hbare⟩

/-- Resolving conditionals takes twins to twins. -/
theorem resolveConditionals (hd : d.Apart) (ctx : Context)
    (hstruck : ∀ body, struck body → reading d d.conditionalTag body = none)
    (h : Twins d live struck full bare) :
    Twins d live struck (resolveConditionals d ctx full) (resolveConditionals d ctx bare) := by
  obtain ⟨ps, hps, rfl, rfl⟩ := h
  -- twins are two ways to read one outline
  have htidy : ∀ q ∈ ps, (q.bind Remnant.kept).Tidy d id :=
    fun q hq => Piece.restored_eq_bind ▸ (hps q hq).restored
  have htidy' : ∀ q ∈ ps, (q.bind fun p => .plain p.bare).Tidy d id := by
    intro q hq
    cases q with
    | plain p => exact (hps _ hq).tidy
    | tag body => exact (hps _ hq).1
  have hunread : ∀ p body, .plain p ∈ ps → Remnant.kept p = .tag body →
      reading d d.conditionalTag body = none := by
    intro p body hp hr
    cases p with
    | text s => exact absurd hr (by simp [Remnant.kept])
    | struck back => exact Piece.tag.inj hr ▸ hstruck back (hps _ hp).2
  have hfull := resolveConditionals_chosen hd ctx htidy hunread
  have hbare := resolveConditionals_chosen hd ctx htidy' fun p body _ hr => absurd hr (by simp)
  refine ⟨chosen d ctx ps, fun q hq => hps q (mem_of_mem_chosen hq), ?_, ?_⟩
  · rwa [← Piece.restored_eq_bind, write_restored, write_restored] at hfull
  · rwa [write_bare, write_bare] at hbare

end Twins

end Outline

end Stencil
