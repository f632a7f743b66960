import Stencil.Proofs.Composition.Lockstep
import Stencil.Proofs.Composition.Sources
import Stencil.Proofs.Opacity.Marker

/-!
# One value left open

Contexts that differ in the text of one key only. The texts that this key can have are the members
of a family, and a render writes characters, placeholders of regions, and holes where the key is
used. If sources use it in plain variable tags only, and never in a condition, no member can be
told from another but by what stands in the holes.
-/

namespace Stencil

open Recognizer ProtectedRegions

/-! ## Conditions that do not look at a key -/

/-- A path does not start at a key. -/
def Path.Avoids (key : String) (path : Text) : Prop := (Path.segments path).head? ≠ some key

namespace Expr

/-- No path of a condition starts at a key. -/
def Avoids (key : String) : Expr → Prop
  | .literal _ => True
  | .path p => Path.Avoids key p
  | .not x => x.Avoids key
  | .compare l _ r => l.Avoids key ∧ r.Avoids key
  | .and l r => l.Avoids key ∧ r.Avoids key
  | .or l r => l.Avoids key ∧ r.Avoids key

theorem value_congr {key : String} {c c' : Context}
    (h : ∀ p, Path.Avoids key p → c.resolve? p = c'.resolve? p) {x : Expr} (hx : x.Avoids key) :
    x.value c = x.value c' := by
  induction x with
  | literal v => rfl
  | path p => simp only [value, h p hx]
  | not x ih => simp only [value, ih hx]
  | compare l op r ihl ihr => simp only [value, ihl hx.1, ihr hx.2]
  | and l r ihl ihr => simp only [value, ihl hx.1, ihr hx.2]
  | or l r ihl ihr => simp only [value, ihl hx.1, ihr hx.2]

end Expr

/-- A tag that uses a key, if at all, without filters and not in a condition. -/
structure Delimiters.Plainly (d : Delimiters) (key : String) (body : Text) : Prop where
  /-- A variable tag has no filters for the key. -/
  filters : ∀ v, reading d d.variableTag body = some v →
    Path.Avoids key v.path ∨ v.chain? = none
  /-- A condition does not look at the key. -/
  condition : ∀ condition,
    reading d d.conditionalTag body = some (.opening condition) ∨
      reading d d.conditionalTag body = some (.branch (some condition)) →
    ∀ x, Condition.read condition = .ok x → x.Avoids key

/-- A text that starts no tag and opens no placeholder. -/
structure Delimiters.Inert (d : Delimiters) (t : Text) : Prop where
  /-- No tag starts. -/
  plain : d.Plain t
  /-- No placeholder opens. -/
  opener : opener ∉ t

/-! ## What is written -/

/-- The texts that the open value can have. -/
abbrev Delimiters.Filling (d : Delimiters) := { t : Text // d.Inert t }

/-- Characters as atoms. -/
def glyphs (s : Text) : List (Atom (Option Char)) := s.map fun c => .glyph (some c)

theorem shown_glyphs (v : Text) (region : Nat → Text) (s : Text) :
    shown (Text.holed v) region (glyphs s) = s := by
  induction s with
  | nil => rfl
  | cons c s ih =>
    rw [glyphs, List.map_cons, shown_cons_glyph, ← glyphs, ih]
    rfl

theorem some_mem_glyphs {s : Text} {c : Char} (h : .glyph (some c) ∈ glyphs s) : c ∈ s := by
  obtain ⟨x, hx, heq⟩ := List.mem_map.mp h
  rwa [← Option.some.inj (Atom.glyph.inj heq)]

/-- Texts with holes for the open value: the characters around the holes start no tag and open no
placeholder, and all tags are used by some source. -/
def opaqueWeave {e : Engine} (disk : Disk) (hd : e.delimiters.Apart) :
    Weave e.delimiters e.delimiters.Filling (List (Atom (Option Char))) where
  write i := shown (Text.holed i.1) placeholder
  admits
    | .plain p => ∀ c, .glyph (some c) ∈ p → c ≠ e.delimiters.mark ∧ c ≠ opener
    | .tag body => e.delimiters.Free body ∧ opener ∉ body ∧ e.Uses disk body
  tidy := by
    intro q hq i
    cases q with
    | tag body => exact hq.1
    | plain p =>
      intro hmem
      obtain ⟨a, ha, hmem⟩ := List.mem_flatMap.mp hmem
      cases a with
      | shelved index => exact hd.plain_placeholder index hmem
      | glyph bit =>
        cases bit with
        | none => exact i.2.plain hmem
        | some c => exact (hq c ha).1 (List.mem_singleton.mp hmem).symm

/-! ## What the members have in common -/

/-- An entry that is the same for all members, or the open value under its key. -/
def IsSecret (d : Delimiters) (key : String) (x : String × (d.Filling → Value)) : Prop :=
  (∃ u, x.2 = fun _ => u) ∨ (x.1 = key ∧ x.2 = fun i => .str (String.ofList i.1))

/-- The contexts that differ in an open value, wherever a render of one member leads. -/
def secretScope (e : Engine) (disk : Disk) (key : String) (v : e.delimiters.Filling)
    (outer : Context) (c : e.delimiters.Filling → Context) : Prop :=
  ∃ ds : Dict (e.delimiters.Filling → Value),
    (∀ x ∈ ds, IsSecret e.delimiters key x) ∧ (∀ i, c i = ds.pick i) ∧ e.Scope disk outer (c v)

variable {e : Engine} {disk : Disk} {key : String} {ds : Dict (e.delimiters.Filling → Value)}

theorem isSecret_constant {fields : Dict Value} :
    ∀ x ∈ Dict.constant fields, IsSecret e.delimiters key x := by
  intro x hx
  obtain ⟨y, -, rfl⟩ := List.mem_map.mp hx
  exact .inl ⟨y.2, rfl⟩

/-- A path leads all members to the same, or it is the key, and leads to the open value. -/
theorem resolve?_pick (hds : ∀ x ∈ ds, IsSecret e.delimiters key x) (path : Text) :
    (∃ r, ∀ i, Context.resolve? (ds.pick i) path = r) ∨
      (¬ Path.Avoids key path ∧
        ∀ i, Context.resolve? (ds.pick i) path = some (.str (String.ofList i.1))) := by
  cases hseg : Path.segments path with
  | nil => exact .inl ⟨none, fun i => by rw [Context.resolve?, hseg]⟩
  | cons first rest =>
    have hresolve : ∀ i, Context.resolve? (ds.pick i) path =
        ((ds.get? first).map (· i)).bind fun v => rest.foldlM Value.child? v := by
      intro i
      rw [Context.resolve?, hseg, ← Dict.get?_pick]
    cases hget : ds.get? first with
    | none => exact .inl ⟨none, fun i => by rw [hresolve, hget]; rfl⟩
    | some f =>
      rcases hds _ (Dict.mem_of_get? hget) with ⟨u, rfl⟩ | ⟨rfl, rfl⟩
      · exact .inl ⟨rest.foldlM Value.child? u, fun i => by rw [hresolve, hget]; rfl⟩
      · cases rest with
        | nil =>
          refine .inr ⟨by simp [Path.Avoids, hseg], fun i => ?_⟩
          rw [hresolve, hget]
          rfl
        | cons segment rest =>
          refine .inl ⟨none, fun i => ?_⟩
          rw [hresolve, hget]
          rfl

theorem text?_congr {σ : Substitution} {c c' : Context} {v : Variable}
    (h : c.resolve? v.path = c'.resolve? v.path) : σ.text? c v = σ.text? c' v := by
  unfold Substitution.text?
  rw [h]

/-- The members cannot be told apart, if sources use the key plainly. -/
theorem secretScope_scopes (hd : e.delimiters.Apart) {v : e.delimiters.Filling} {outer : Context}
    (husage : ∀ body, e.Uses disk body → e.delimiters.Plainly key body)
    (hputs : ∀ t, e.Puts disk outer t → e.delimiters.Inert t) :
    (opaqueWeave disk hd).Scopes e (secretScope e disk key v outer) where
  text := by
    rintro c ⟨ds, hds, hc, hscope⟩ body x hbody hread
    have huse : e.Uses disk body := hbody.2.2
    have hsame : (∃ r, ∀ i, e.substitution.text? (c i) x = r) →
        (∀ i, e.substitution.text? (c i) x = none) ∨
          ∃ p, (opaqueWeave disk hd).admits (.plain p) ∧
            ∀ i, e.substitution.text? (c i) x = some ((opaqueWeave disk hd).write i p) := by
      rintro ⟨r, hr⟩
      cases r with
      | none => exact .inl hr
      | some t =>
        have ht : e.delimiters.Inert t := hputs t ⟨c v, body, x, hscope, huse, hread, hr v⟩
        refine .inr ⟨glyphs t, fun y hy => ⟨?_, ?_⟩, fun i => ?_⟩
        · exact fun h => ht.plain (h ▸ some_mem_glyphs hy)
        · exact fun h => ht.opener (h ▸ some_mem_glyphs hy)
        · exact (hr i).trans (congrArg some (shown_glyphs _ _ t).symm)
    rcases resolve?_pick hds x.path with ⟨r, hr⟩ | ⟨hkey, hopen⟩
    · exact hsame ⟨e.substitution.text? (c v) x, fun i =>
        text?_congr (by rw [hc i, hc v, hr, hr])⟩
    · have hchain : x.chain? = none := ((husage body huse).filters x hread).resolve_left hkey
      by_cases hreserved : reservedWords.any (· = x.path) = true
      · exact .inl fun i => by rw [Substitution.text?, if_pos hreserved]
      · refine .inr ⟨[.glyph none], by simp [opaqueWeave], fun i => ?_⟩
        rw [Substitution.text?, if_neg hreserved, hc i, hopen i, hchain]
        simp [Substitution.filtered, Value.isScalar, Value.text, opaqueWeave, Text.holed]
  rows := by
    rintro c ⟨ds, hds, hc, hscope⟩ body head hbody hhead
    obtain ⟨rows, hrows⟩ : ∃ rows, ∀ i, Loop.rows (c i) head = rows := by
      rcases resolve?_pick hds head.path with ⟨r, hr⟩ | ⟨-, hopen⟩
      · exact ⟨Loop.rows (c v) head, fun i => by simp only [Loop.rows, hc, hr]⟩
      · exact ⟨[], fun i => by simp only [Loop.rows, hc, hopen]⟩
    refine ⟨rows, hrows, fun y hy => ?_⟩
    have hnext : e.Scope disk outer (Loop.rowContext head.form (c v) y.2 y.1) :=
      .row hscope hbody.2.2 hhead (by rwa [hrows v])
    cases hform : head.form with
    | bound name =>
      rw [hform] at hnext
      refine ⟨ds.set name fun _ => .object (Loop.bindings y.2 y.1), fun z hz => ?_, fun i => ?_,
        hnext⟩
      · rcases Dict.mem_set hz with rfl | hz
        · exact .inl ⟨_, rfl⟩
        · exact hds z hz
      · dsimp only
        rw [hc i, Loop.rowContext, ← Dict.set_pick]
    | legacy =>
      rw [hform] at hnext
      refine ⟨ds.merge (Dict.constant (Loop.bindings y.2 y.1)), fun z hz => ?_, fun i => ?_, hnext⟩
      · rcases Dict.mem_merge hz with hz | hz
        · exact hds z hz
        · exact isSecret_constant z hz
      · dsimp only
        rw [hc i, Loop.rowContext, ← Dict.merge_pick, Dict.pick_constant]
  holds := by
    rintro c ⟨ds, hds, hc, -⟩ body condition hbody hread x hx i j
    refine congrArg Value.isTruthy (Expr.value_congr (fun p hp => ?_)
      ((husage body hbody.2.2).condition condition hread x hx))
    rcases resolve?_pick hds p with ⟨r, hr⟩ | ⟨hkey, -⟩
    · rw [hc i, hc j, hr, hr]
    · exact absurd hp hkey

end Stencil
