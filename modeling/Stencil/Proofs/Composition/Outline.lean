import Stencil.Proofs.Composition.Step
import Stencil.Proofs.Outline.Blocks
import Stencil.Proofs.Protection.Extract

/-!
# Composing outlines

One step of composition for a template whose source is sound, piece by piece: its includes are made
where their tags stand, its blocks are the pairs of its outline, and its base goes where its first
base tag stands outside them.
-/

namespace Stencil

namespace Outline

open Recognizer

variable {P α : Type} {d : Delimiters} {w : P → Text}

/-! ## The first tag of a grammar -/

/-- The first tag that a grammar reads: the pieces in front, what is read, the body, and the pieces
behind. -/
def firstTag (d : Delimiters) (r : Recognizer α) :
    List (Piece P) → Option (List (Piece P) × α × Text × List (Piece P))
  | [] => none
  | .plain p :: ps => (firstTag d r ps).map fun x => (.plain p :: x.1, x.2)
  | .tag body :: ps =>
    match reading d r body with
    | some a => some ([], a, body, ps)
    | none => (firstTag d r ps).map fun x => (.tag body :: x.1, x.2)

theorem firstTag_eq_some {r : Recognizer α} {ps front back : List (Piece P)} {a : α} {body : Text}
    (h : firstTag d r ps = some (front, a, body, back)) :
    ps = front ++ .tag body :: back ∧ reading d r body = some a := by
  have hstep : ∀ {q : Piece P} {ps front : List (Piece P)}
      {x : Option (List (Piece P) × α × Text × List (Piece P))},
      (∀ {tail}, x = some (tail, a, body, back) →
        ps = tail ++ .tag body :: back ∧ reading d r body = some a) →
      x.map (fun x => (q :: x.1, x.2)) = some (front, a, body, back) →
        q :: ps = front ++ .tag body :: back ∧ reading d r body = some a := by
    intro q ps front x ih hx
    obtain ⟨⟨tail, y⟩, rfl, heq⟩ := Option.map_eq_some_iff.mp hx
    simp only [Prod.mk.injEq] at heq
    obtain ⟨rfl, rfl⟩ := heq
    obtain ⟨hps, hr⟩ := ih rfl
    exact ⟨by rw [hps, List.cons_append], hr⟩
  fun_induction firstTag d r ps generalizing front with
  | case1 => exact absurd h (by simp)
  | case2 p ps ih => exact hstep ih h
  | case3 b ps a' hr =>
    simp only [Option.some.injEq, Prod.mk.injEq] at h
    obtain ⟨rfl, rfl, rfl, rfl⟩ := h
    exact ⟨rfl, hr⟩
  | case4 b ps hr ih => exact hstep ih h

theorem firstTag_of_forall_none {r : Recognizer α} {ps : List (Piece P)}
    (h : ∀ body, .tag body ∈ ps → reading d r body = none) : firstTag d r ps = none := by
  cases hfirst : firstTag d r ps with
  | none => rfl
  | some x =>
    obtain ⟨front, a, body, back⟩ := x
    obtain ⟨rfl, hread⟩ := firstTag_eq_some hfirst
    rw [h body (by simp)] at hread
    exact absurd hread (by simp)

/-- Where the first tag of a written outline is. -/
theorem head?_locate (r : Recognizer α) (pos : Nat) (ps : List (Piece P)) :
    (locate d w (tagAt d r) pos ps).head? =
      (firstTag d r ps).map fun x =>
        ⟨pos + (write d w x.1).length, d.enclose x.2.2.1, x.2.1, d.enclose_ne_nil x.2.2.1⟩ := by
  induction ps generalizing pos with
  | nil => rfl
  | cons q ps ih =>
    cases q with
    | plain p =>
      rw [locate, ih, firstTag, Option.map_map]
      congr 1
      funext x
      simp [Piece.text, Nat.add_assoc]
    | tag body =>
      rw [locate, firstTag, tagAt]
      cases hr : reading d r body with
      | some a => simp
      | none =>
        simp only [Option.toList_none, List.map_nil, List.nil_append, ih, Option.map_map]
        congr 1
        funext x
        simp [Piece.text, Nat.add_assoc]

/-- Putting a text in the place of a tag. -/
theorem splice_tag (front back : List (Piece P)) (body t : Text) :
    (write d w (front ++ .tag body :: back)).splice
        [⟨(write d w front).length, (write d w front).length + (d.enclose body).length, t⟩] =
      write d w front ++ (t ++ write d w back) := by
  have := Text.spliceFrom_patches 0
    [(write d w front, none), (d.enclose body, some t), (write d w back, none)]
  simpa [Text.patches, Text.patched, Text.splice, Piece.text] using this

/-- The pieces that are left when blocks are removed. -/
def unblocked (d : Delimiters) (ps : List (Piece P)) : List (Piece P) :=
  (segments (blockPairing d) ps).flatMap fun
    | .piece q => [q]
    | .pair _ _ _ _ => []

theorem mem_of_mem_unblocked {ps : List (Piece P)} {q : Piece P} (h : q ∈ unblocked d ps) :
    q ∈ ps := by
  obtain ⟨x, hx, hq⟩ := List.mem_flatMap.mp h
  cases x with
  | piece q' => exact mem_of_mem_pieces hx q (by simpa [Segment.pieces] using hq)
  | pair a front inside back => exact absurd hq (by simp)

theorem strip_write_unblocked (hd : d.Apart) {ps : List (Piece P)} (hps : Tidy d w ps) :
    Blocks.strip d (write d w ps) = write d w (unblocked d ps) := by
  rw [strip_write hd hps, unblocked, write_flatMap]
  congr 1
  funext x
  cases x <;> simp [replaced]

end Outline

namespace Engine

open Recognizer Outline

variable {P : Type} {e : Engine} {disk : Disk} {ctx : Context} {w : P → Text}

/-- Renders a template for an include. -/
def visit (e : Engine) (disk : Disk) (ctx : Context) (fuel : Nat) (ancestry : Ancestry)
    (name : String) (p : Progress) : Composed Text :=
  andThen (e.compose disk ctx fuel ancestry [] name p) fun s p => (.ok (e.process ctx false s), p)

/-- The text of an outline with its includes made, given how templates are rendered for them. -/
def insertAll (d : Delimiters) (w : P → Text)
    (visit : String → Progress → Composed Text) :
    List (Piece P) → Progress → Composed Text
  | [], p => (.ok [], p)
  | .plain s :: ps, p => andThen (insertAll d w visit ps p) fun t p => (.ok (w s ++ t), p)
  | .tag body :: ps, p =>
    match reading d d.includeTag body with
    | none => andThen (insertAll d w visit ps p) fun t p => (.ok (d.enclose body ++ t), p)
    | some name =>
      andThen (visit name p) fun s p => andThen (insertAll d w visit ps p) fun t p =>
        (.ok (s ++ t), p)

/-- Where no tag names a template, there is nothing to include. -/
theorem insertAll_write {d : Delimiters} (visit : String → Progress → Composed Text)
    {ps : List (Piece P)} (h : ∀ body, .tag body ∈ ps → reading d d.includeTag body = none)
    (p : Progress) : insertAll d w visit ps p = (.ok (write d w ps), p) := by
  induction ps with
  | nil => rfl
  | cons q ps ih =>
    have ih := ih fun body hbody => h body (by simp [hbody])
    cases q with
    | plain s => rw [insertAll, ih, write_cons]; rfl
    | tag body =>
      rw [insertAll, h body (by simp)]
      simp only [ih, write_cons]
      rfl

/-- Making the includes of an outline gives patches of its text, or fails. -/
theorem runAll_patches (fuel : Nat) (ancestry : Ancestry) (ps : List (Piece P)) (p : Progress) :
    ∃ (result : Except (Stop Error) (List (Text × Option Text))) (p' : Progress),
      (∀ patches, result = .ok patches → patches.flatMap (·.1) = write e.delimiters w ps) ∧
      (∀ pos, runAll (e.includeTemplate disk ctx fuel ancestry)
        (locate e.delimiters w (tagAt e.delimiters e.delimiters.includeTag) pos ps) p =
          (result.map (Text.patches pos), p')) ∧
      insertAll e.delimiters w (e.visit disk ctx fuel ancestry) ps p =
        (result.map (·.flatMap Text.patched), p') := by
  induction ps generalizing p with
  | nil => exact ⟨.ok [], p, by rintro _ ⟨⟩; rfl, fun _ => rfl, rfl⟩
  | cons q ps ih =>
    cases q with
    | plain s =>
      obtain ⟨result, p', hwrite, hrun, hinsert⟩ := ih p
      refine ⟨result.map ((w s, none) :: ·), p', ?_, fun pos => ?_, ?_⟩
      · intro patches hp
        cases result with
        | error err => exact absurd hp (by simp [Except.map])
        | ok rest =>
          obtain rfl := Except.ok.inj hp
          rw [List.flatMap_cons, hwrite rest rfl, write_cons]
          rfl
      · rw [locate, hrun]
        cases result <;> rfl
      · rw [insertAll, hinsert]
        cases result <;> rfl
    | tag body =>
      cases hr : reading e.delimiters e.delimiters.includeTag body with
      | none =>
        obtain ⟨result, p', hwrite, hrun, hinsert⟩ := ih p
        refine ⟨result.map ((e.delimiters.enclose body, none) :: ·), p', ?_, fun pos => ?_, ?_⟩
        · intro patches hp
          cases result with
          | error err => exact absurd hp (by simp [Except.map])
          | ok rest =>
            obtain rfl := Except.ok.inj hp
            rw [List.flatMap_cons, hwrite rest rfl, write_cons]
            rfl
        · rw [locate, tagAt, hr, Option.toList_none, List.map_nil, List.nil_append, hrun]
          cases result <;> rfl
        · rw [insertAll, hr]
          simp only
          rw [hinsert]
          cases result <;> rfl
      | some name =>
        have hvisit : ∀ t : Tag String, t.content = name →
            e.includeTemplate disk ctx fuel ancestry t p =
              andThen (e.visit disk ctx fuel ancestry name p) fun s p =>
                (.ok ⟨t.start, t.stop, s⟩, p) := by
          rintro t rfl
          rw [includeTemplate, bind_run, visit]
          rcases e.compose disk ctx fuel ancestry [] t.content p with ⟨r, p'⟩
          cases r <;> rfl
        rcases hv : e.visit disk ctx fuel ancestry name p with ⟨r, p'⟩
        cases r with
        | error err =>
          refine ⟨.error err, p', by simp, fun pos => ?_, ?_⟩
          · rw [locate, tagAt, hr, Option.toList_some, List.map_cons, List.map_nil,
              List.singleton_append, runAll, hvisit _ rfl, hv]
            rfl
          · rw [insertAll, hr]
            simp only
            rw [hv]
            rfl
        | ok s =>
          obtain ⟨result, p'', hwrite, hrun, hinsert⟩ := ih p'
          refine ⟨result.map ((e.delimiters.enclose body, some s) :: ·), p'', ?_, fun pos => ?_, ?_⟩
          · intro patches hp
            cases result with
            | error err => exact absurd hp (by simp [Except.map])
            | ok rest =>
              obtain rfl := Except.ok.inj hp
              rw [List.flatMap_cons, hwrite rest rfl, write_cons]
              rfl
          · rw [locate, tagAt, hr, Option.toList_some, List.map_cons, List.map_nil,
              List.singleton_append, runAll, hvisit _ rfl, hv]
            simp only [andThen]
            rw [hrun]
            cases result <;> rfl
          · rw [insertAll, hr]
            simp only
            rw [hv]
            simp only [andThen]
            rw [hinsert]
            cases result <;> rfl

/-- Making the includes of a written outline. -/
theorem includes_write {β : Type} (hd : e.delimiters.Apart) (fuel : Nat) (ancestry : Ancestry)
    {ps : List (Piece P)} (hps : Tidy e.delimiters w ps)
    (next : Text → Progress → Composed β) (p : Progress) :
    andThen (runAll (e.includeTemplate disk ctx fuel ancestry)
        (Tag.scan e.delimiters.includeTag (write e.delimiters w ps)) p)
        (fun edits => next ((write e.delimiters w ps).splice edits)) =
      andThen (insertAll e.delimiters w (e.visit disk ctx fuel ancestry) ps p) next := by
  obtain ⟨result, p', hwrite, hrun, hinsert⟩ :=
    @runAll_patches P e disk ctx w fuel ancestry ps p
  rw [Tag.scan, scanFrom_write hd (Delimiters.delimited_includeTag hd) hps, hrun, hinsert]
  cases result with
  | error err => rfl
  | ok patches =>
    simp only [Except.map, andThen, Text.splice]
    rw [← hwrite patches rfl, Text.spliceFrom_patches]

/-- Puts a base into what is left of a template. -/
def withBase (d : Delimiters) (w : P → Text) (ps : List (Piece P)) (base : Text) : Text :=
  match firstTag d d.baseTag ps with
  | some (front, _, _, back) => write d w front ++ (base ++ write d w back)
  | none => write d w ps ++ base

/-- What becomes of a written outline whose includes have been made. -/
theorem finish_write (hd : e.delimiters.Apart) (fuel : Nat) (ancestry : Ancestry)
    (definitions : Blocks) {ps : List (Piece P)} (hps : Tidy e.delimiters w ps) (p : Progress) :
    e.finish disk ctx fuel ancestry definitions (write e.delimiters w ps) p =
      match firstTag e.delimiters e.delimiters.baseTag ps with
      | none => (.ok (definitions.resolve e.delimiters [] (write e.delimiters w ps)), p)
      | some (_, name, _, _) =>
        andThen (e.compose disk ctx fuel ancestry
          (Blocks.collect e.delimiters (write e.delimiters w ps) definitions) name p) fun base p =>
            (.ok (withBase e.delimiters w (unblocked e.delimiters ps) base), p) := by
  have hbase := Delimiters.delimited_baseTag hd
  have hrest : Tidy e.delimiters w (unblocked e.delimiters ps) :=
    fun q hq => hps q (mem_of_mem_unblocked hq)
  rw [finish, Tag.scan, scanFrom_write hd hbase hps, head?_locate]
  cases firstTag e.delimiters e.delimiters.baseTag ps with
  | none => rfl
  | some x =>
    obtain ⟨front, name, body, back⟩ := x
    simp only [Option.map_some]
    congr 1
    funext base p
    rw [strip_write_unblocked hd hps, Tag.scan, scanFrom_write hd hbase hrest, head?_locate,
      withBase]
    cases hfirst : firstTag e.delimiters e.delimiters.baseTag (unblocked e.delimiters ps) with
    | none => rfl
    | some y =>
      obtain ⟨front', name', body', back'⟩ := y
      have hsplit := (firstTag_eq_some hfirst).1
      simp only [Option.map_some, Tag.stop, Nat.zero_add]
      rw [hsplit, splice_tag]

/-- Without a base tag, only blocks are left to resolve. -/
theorem finish_baseless (hd : e.delimiters.Apart) (fuel : Nat) (ancestry : Ancestry)
    (definitions : Blocks) {ps : List (Piece P)} (hps : Tidy e.delimiters w ps)
    (hbase : ∀ body, .tag body ∈ ps → reading e.delimiters e.delimiters.baseTag body = none)
    (p : Progress) :
    e.finish disk ctx fuel ancestry definitions (write e.delimiters w ps) p =
      (.ok (definitions.resolve e.delimiters [] (write e.delimiters w ps)), p) := by
  rw [finish_write hd fuel ancestry definitions hps, firstTag_of_forall_none hbase]

/-- One step of composition for a template with a sound source. -/
theorem compose_source (ctx : Context) (hd : e.delimiters.Apart) (plain : Text → P)
    (shelved : Nat → P) (hplain : ∀ s, w (plain s) = s)
    (hshelved : ∀ n, w (shelved n) = ProtectedRegions.placeholder n) {fs : List Fragment}
    (hfs : Fragment.Sound e.delimiters fs) {name : String}
    (hload : Loader.loadFirst disk e.allLoaders name = .ok (Fragment.source e.delimiters fs))
    (hps : ∀ n, Tidy e.delimiters w (Fragment.shelve plain shelved n fs)) (fuel : Nat)
    (ancestry : Ancestry) (definitions : Blocks) (p : Progress) (hname : name ∉ ancestry) :
    e.compose disk ctx (fuel + 1) ancestry definitions name p =
      andThen (insertAll e.delimiters w (e.visit disk ctx fuel (ancestry ++ [name]))
        (Fragment.shelve plain shelved p.regions.length fs)
        { regions := p.regions ++ Fragment.contents fs, requests := p.requests ++ [name] })
        (e.finish disk ctx fuel (ancestry ++ [name]) definitions) := by
  rw [compose_loaded hname hload
    (Fragment.extract_source hd plain shelved hplain hshelved p.regions hfs)]
  exact includes_write hd fuel (ancestry ++ [name]) (hps _)
    (e.finish disk ctx fuel (ancestry ++ [name]) definitions) _

end Engine

end Stencil
