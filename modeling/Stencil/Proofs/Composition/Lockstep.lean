import Stencil.Proofs.Composition.Outline
import Stencil.Proofs.Dict
import Stencil.Proofs.Outline.Weave

/-!
# Composition in lockstep

Renders whose contexts form a family compose in lockstep: they ask for the same templates in the
same order, put the same regions aside, and fail together with the same error; if they do not fail,
the composed texts are a family. Definitions of blocks are carried along as families as well.
-/

namespace Stencil

open Recognizer Outline

namespace Weave

variable {d : Delimiters} {ι P : Type} {W : Weave d ι P}

/-! ## Blocks -/

/-- A family of definitions. -/
def Definitions (W : Weave d ι P) (definitions : ι → Blocks) : Prop :=
  ∃ ds : Dict (ι → Text), (∀ x ∈ ds, W.Family x.2) ∧ ∀ i, definitions i = ds.pick i

theorem definitions_nil : W.Definitions fun _ => [] := ⟨[], by simp, fun _ => rfl⟩

theorem admits_inside {α : Type} {g : Pairing α} {ps inside : List (Piece P)} {a : α}
    {front back : Text} (hps : ∀ q ∈ ps, W.admits q)
    (h : .pair a front inside back ∈ segments g ps) : ∀ q ∈ inside, W.admits q :=
  fun q hq => hps q (mem_of_mem_pieces h q (by simp [Segment.pieces, hq]))

/-- Replacing blocks by a family of definitions gives a family. -/
theorem family_resolve (hd : d.Apart) {ds : Dict (ι → Text)} (hds : ∀ x ∈ ds, W.Family x.2)
    (active : List String) {ps : List (Piece P)} (hps : ∀ q ∈ ps, W.admits q) :
    W.Family fun i => Blocks.resolve d (ds.pick i) active (Outline.write d (W.write i) ps) := by
  refine Family.congr ?_ fun i => resolve_write hd _ active (tidy_of_admits hps i)
  refine family_replaced hps fun name front inside back hpair => ?_
  by_cases hn : name ∈ active
  · exact family_nil.congr fun i => by rw [definition, if_pos hn]
  · cases hget : ds.get? name with
    | some t =>
      obtain ⟨qs, hqs, ht⟩ : W.Family t := hds _ (Dict.mem_of_get? hget)
      refine (family_resolve hd hds (name :: active) hqs).congr fun i => ?_
      rw [definition, if_neg hn, Dict.get?_pick, hget, Option.map_some, Option.getD_some, ht]
    | none =>
      refine (family_resolve hd hds (name :: active) (admits_inside hps hpair)).congr fun i => ?_
      rw [definition, if_neg hn, Dict.get?_pick, hget, Option.map_none, Option.getD_none]
termination_by (Blocks.unentered (ds.map fun x => (x.1, ([] : Text))) active, ps.length)
decreasing_by
  · exact Prod.Lex.right' _ (Blocks.unentered_cons_le ..) (length_inside_lt hpair)
  · have hnone : Dict.get? (ds.map fun x => (x.1, ([] : Text))) name = some [] := by
      rw [Dict.get?_map ds fun _ => ([] : Text), hget]
      rfl
    exact .left _ _ (Blocks.unentered_cons_lt hnone hn)

theorem Definitions.resolve (hd : d.Apart) {definitions : ι → Blocks} {s : ι → Text}
    (hdefs : W.Definitions definitions) (hs : W.Family s) :
    W.Family fun i => Blocks.resolve d (definitions i) [] (s i) := by
  obtain ⟨ds, hds, hdefs⟩ := hdefs
  obtain ⟨ps, hps, hs⟩ := hs
  exact (family_resolve hd hds [] hps).congr fun i => by rw [hdefs, hs]

theorem Definitions.define {definitions : ι → Blocks} {s : ι → Text}
    (hdefs : W.Definitions definitions) (name : String) (hs : W.Family s) :
    W.Definitions fun i => Outline.define (definitions i) name (s i) := by
  obtain ⟨ds, hds, hdefs⟩ := hdefs
  cases hget : ds.get? name with
  | some t =>
    refine ⟨ds, hds, fun i => ?_⟩
    dsimp only
    rw [Outline.define, hdefs, if_pos (by rw [Dict.has, Dict.get?_pick, hget]; rfl)]
  | none =>
    refine ⟨ds.set name s, fun x hx => ?_, fun i => ?_⟩
    · rcases Dict.mem_set hx with rfl | h
      · exact hs
      · exact hds x h
    · dsimp only
      rw [Outline.define, hdefs, if_neg (by rw [Dict.has, Dict.get?_pick, hget]; simp),
        Dict.set_pick]

/-- The definitions collected from a family are a family. -/
theorem Definitions.collect (hd : d.Apart) {definitions : ι → Blocks} {s : ι → Text}
    (hdefs : W.Definitions definitions) (hs : W.Family s) :
    W.Definitions fun i => Blocks.collect d (s i) (definitions i) := by
  obtain ⟨ps, hps, hs⟩ := hs
  simp only [hs]
  clear hs s
  induction hn : ps.length using Nat.strongRecOn generalizing ps definitions with
  | ind n ih =>
    simp only [collect_write hd _ (tidy_of_admits hps _)]
    have hpairs : ∀ x ∈ pairs (segments (blockPairing d) ps),
        (∀ q ∈ x.2, W.admits q) ∧ x.2.length < n := by
      intro x hx
      obtain ⟨front, back, hpair⟩ := mem_pairs hx
      exact ⟨admits_inside hps hpair, hn ▸ length_inside_lt hpair⟩
    generalize pairs (segments (blockPairing d) ps) = xs at hpairs
    induction xs generalizing definitions with
    | nil => exact hdefs
    | cons x xs ihx =>
      obtain ⟨hadmits, hlt⟩ := hpairs x (by simp)
      simp only [List.foldl_cons]
      exact ihx (ih _ hlt (hdefs.define x.1 ⟨x.2, hadmits, fun _ => rfl⟩) x.2 hadmits rfl)
        fun y hy => hpairs y (by simp [hy])

/-! ## Runs that keep together -/

/-- Runs that keep together: they fail with one error, or give a family, and the progress is the
same; what has been put aside is of one kind. -/
def Lockstep (W : Weave d ι P) (kept : Text → Prop) (x : ι → Engine.Composed Text) : Prop :=
  ∃ p : Engine.Progress, (∀ content ∈ p.regions, kept content) ∧
    ((∃ stop, ∀ i, x i = (.error stop, p)) ∨ ∃ t, W.Family t ∧ ∀ i, x i = (.ok (t i), p))

variable {kept : Text → Prop}

theorem lockstep_ok {t : ι → Text} (ht : W.Family t) {p : Engine.Progress}
    (hp : ∀ content ∈ p.regions, kept content) : W.Lockstep kept fun i => (.ok (t i), p) :=
  ⟨p, hp, .inr ⟨t, ht, fun _ => rfl⟩⟩

theorem lockstep_error (stop : Stop Error) {p : Engine.Progress}
    (hp : ∀ content ∈ p.regions, kept content) : W.Lockstep kept fun _ => (.error stop, p) :=
  ⟨p, hp, .inl ⟨stop, fun _ => rfl⟩⟩

theorem Lockstep.andThen {x : ι → Engine.Composed Text}
    {next : ι → Text → Engine.Progress → Engine.Composed Text} (hx : W.Lockstep kept x)
    (hnext : ∀ t p, W.Family t → (∀ content ∈ p.regions, kept content) →
      W.Lockstep kept fun i => next i (t i) p) :
    W.Lockstep kept fun i => Engine.andThen (x i) (next i) := by
  obtain ⟨p, hp, ⟨stop, hstop⟩ | ⟨t, ht, hok⟩⟩ := hx
  · refine ⟨p, hp, .inl ⟨stop, fun i => ?_⟩⟩
    simp only [hstop, Engine.andThen]
  · simpa only [hok, Engine.andThen] using hnext t p ht hp

theorem lockstep_insertAll {visit : ι → String → Engine.Progress → Engine.Composed Text}
    (hvisit : ∀ name p, (∀ content ∈ p.regions, kept content) →
      W.Lockstep kept fun i => visit i name p)
    {ps : List (Piece P)} (hps : ∀ q ∈ ps, W.admits q) {p : Engine.Progress}
    (hp : ∀ content ∈ p.regions, kept content) :
    W.Lockstep kept fun i => Engine.insertAll d (W.write i) (visit i) ps p := by
  induction ps generalizing p with
  | nil => exact lockstep_ok family_nil hp
  | cons q ps ih =>
    have ih := fun {p} => ih (p := p) fun x hx => hps x (by simp [hx])
    have hq := hps q (by simp)
    cases q with
    | plain s =>
      exact (ih hp).andThen fun t p ht hp => lockstep_ok ((family_piece hq).append ht) hp
    | tag body =>
      cases hr : reading d d.includeTag body with
      | none =>
        simp only [Engine.insertAll, hr]
        exact (ih hp).andThen fun t p ht hp => lockstep_ok ((family_piece hq).append ht) hp
      | some name =>
        simp only [Engine.insertAll, hr]
        exact (hvisit name p hp).andThen fun s p hs hp =>
          (ih hp).andThen fun t p ht hp => lockstep_ok (hs.append ht) hp

end Weave

/-- A weave for the templates that an engine can load: how it stores plain text and placeholders,
and that its pieces are what sources are made of. -/
structure Weave.Library {ι P : Type} (e : Engine) (disk : Disk) (W : Weave e.delimiters ι P)
    (kept : Text → Prop) where
  /-- How plain text is stored. -/
  plain : Text → P
  /-- How placeholders are stored. -/
  shelved : Nat → P
  /-- Plain text is the same for every member. -/
  write_plain : ∀ i s, W.write i (plain s) = s
  /-- Placeholders are the same for every member. -/
  write_shelved : ∀ i n, W.write i (shelved n) = ProtectedRegions.placeholder n
  /-- Sources are sound, and made of what may occur. -/
  source : ∀ {name s}, Loader.loadFirst disk e.allLoaders name = .ok s →
    ∃ fs, s = Fragment.source e.delimiters fs ∧ Fragment.Sound e.delimiters fs ∧
      (∀ n, ∀ q ∈ Fragment.shelve plain shelved n fs, W.admits q) ∧
      ∀ content ∈ Fragment.contents fs, kept content

namespace Weave

variable {ι P : Type} {e : Engine} {disk : Disk} {W : Weave e.delimiters ι P} {kept : Text → Prop}
  {scope : (ι → Context) → Prop} {c : ι → Context}

theorem lockstep_finish (hd : e.delimiters.Apart) {fuel : Nat} {ancestry : Ancestry}
    (hcompose : ∀ {definitions : ι → Blocks} name p, W.Definitions definitions →
      (∀ content ∈ p.regions, kept content) →
        W.Lockstep kept fun i => e.compose disk (c i) fuel ancestry (definitions i) name p)
    {definitions : ι → Blocks} (hdefs : W.Definitions definitions) {s : ι → Text}
    (hs : W.Family s) {p : Engine.Progress} (hp : ∀ content ∈ p.regions, kept content) :
    W.Lockstep kept fun i => e.finish disk (c i) fuel ancestry (definitions i) (s i) p := by
  obtain ⟨ps, hps, hs'⟩ := hs
  simp only [hs', Engine.finish_write hd fuel ancestry _ (tidy_of_admits hps _)]
  cases firstTag e.delimiters e.delimiters.baseTag ps with
  | none => exact lockstep_ok (hdefs.resolve hd ⟨ps, hps, fun _ => rfl⟩) hp
  | some x =>
    obtain ⟨front, name, body, back⟩ := x
    refine (hcompose name p (hdefs.collect hd ⟨ps, hps, fun _ => rfl⟩) hp).andThen
      fun base p hbase hp => lockstep_ok ?_ hp
    have hleft : ∀ q ∈ unblocked e.delimiters ps, W.admits q :=
      fun q hq => hps q (mem_of_mem_unblocked hq)
    unfold Engine.withBase
    cases hfirst : firstTag e.delimiters e.delimiters.baseTag (unblocked e.delimiters ps) with
    | none => exact Family.append ⟨_, hleft, fun _ => rfl⟩ hbase
    | some y =>
      obtain ⟨front', name', body', back'⟩ := y
      have hsplit := (firstTag_eq_some hfirst).1
      refine Family.append ⟨front', fun q hq => hleft q ?_, fun _ => rfl⟩
        (hbase.append ⟨back', fun q hq => hleft q ?_, fun _ => rfl⟩)
      · rw [hsplit]
        simp [hq]
      · rw [hsplit]
        simp [hq]

/-- Renders whose contexts form a family compose in lockstep. -/
theorem lockstep_compose (hd : e.delimiters.Apart) (hplugins : e.plugins = [])
    (h : W.Scopes e scope) (hc : scope c) (hlib : W.Library e disk kept) (fuel : Nat)
    (ancestry : Ancestry) {definitions : ι → Blocks} (hdefs : W.Definitions definitions)
    (name : String) {p : Engine.Progress} (hp : ∀ content ∈ p.regions, kept content) :
    W.Lockstep kept fun i => e.compose disk (c i) fuel ancestry (definitions i) name p := by
  induction fuel generalizing ancestry definitions name p with
  | zero => exact lockstep_error _ hp
  | succ fuel ih =>
    by_cases hname : name ∈ ancestry
    · simp only [Engine.compose_succ, if_pos hname]
      exact lockstep_error _ hp
    · cases hload : Loader.loadFirst disk e.allLoaders name with
      | error err =>
        simp only [Engine.compose_succ, if_neg hname, Engine.request_run, hload, Engine.andThen]
        exact lockstep_error _ hp
      | ok source =>
        obtain ⟨fs, rfl, hsound, hadmits, hkept⟩ := hlib.source hload
        simp only [fun i => Engine.compose_source (c i) (w := W.write i) hd _ _
          (hlib.write_plain i) (hlib.write_shelved i) hsound hload
          (fun n => tidy_of_admits (hadmits n) i) fuel ancestry (definitions i) p hname]
        refine (lockstep_insertAll (fun name p hp => ?_) (hadmits _) ?_).andThen
          fun s p hs hp => lockstep_finish hd
            (fun name p hdefs hp => ih _ hdefs name hp) hdefs hs hp
        · exact (ih _ definitions_nil name hp).andThen fun s p hs hp =>
            lockstep_ok (hs.process hd hplugins h hc false) hp
        · intro content hcontent
          rcases List.mem_append.mp hcontent with hm | hm
          · exact hp content hm
          · exact hkept content hm

end Weave

end Stencil
