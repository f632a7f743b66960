import Stencil.Proofs.Outline.Concealed
import Stencil.Proofs.Outline.Matched

/-!
# Outlines that are nested alike

An outline is nested if every tag that opens something is closed again, one inside the other. Then
its segments can be read off how it is nested, whatever follows it. Two outlines are parallel if
they are nested alike, with related pieces in the same places; the paths in their tags may differ.
Of parallel outlines, resolving conditionals leaves pieces that are related one by one.
-/

namespace Stencil

namespace Outline

open List (Forall₂)
open Recognizer

variable {P Q α : Type}

/-! ## WellNested outlines -/

/-- A nested outline, with its segments. Of what a tag may open, only that counts which is
`live`. -/
inductive WellNested (g : Pairing α) (live : α → Prop) (tags : Text → Prop) :
    List (Piece P) → List (Segment P α) → Prop where
  /-- The end. -/
  | nil : WellNested g live tags [] []
  /-- Plain content. -/
  | plain (p : P) {ps : List (Piece P)} {ss : List (Segment P α)}
      (rest : WellNested g live tags ps ss) :
    WellNested g live tags (.plain p :: ps) (.piece (.plain p) :: ss)
  /-- A tag of no pair. -/
  | other {body : Text} {ps : List (Piece P)} {ss : List (Segment P α)}
      (ignored : g.Ignores tags body)
    (quiet : ∀ a, live a → g.opens a body = false) (rest : WellNested g live tags ps ss) :
    WellNested g live tags (.tag body :: ps) (.piece (.tag body) :: ss)
  /-- A pair. To every other pair, its tags balance each other. -/
  | pair {a : α} {front back : Text} {inside ps : List (Piece P)} {ts ss : List (Segment P α)}
    (heads : g.heads front = [a]) (closes : live a ∧ g.closes a back = true)
    (balance : ∀ b, live b →
      g.closes b front = false ∧ g.opens b back = false ∧ g.closes b back = g.opens b front)
    (within : WellNested g live tags inside ts) (rest : WellNested g live tags ps ss) :
    WellNested g live tags (.tag front :: (inside ++ .tag back :: ps))
      (.pair a front inside back :: ss)

namespace WellNested

variable {g : Pairing α} {live : α → Prop} {tags : Text → Prop} {ps qs : List (Piece P)}
  {ss ts : List (Segment P α)}

theorem append (hps : WellNested g live tags ps ss) (hqs : WellNested g live tags qs ts) :
    WellNested g live tags (ps ++ qs) (ss ++ ts) := by
  induction hps with
  | nil => exact hqs
  | plain p _ ih => exact .plain p ih
  | other hignored hquiet _ ih => exact .other hignored hquiet ih
  | pair hheads hcloses hbalance hinside _ _ ih =>
    rw [List.cons_append, List.append_assoc]
    exact .pair hheads hcloses hbalance hinside ih

/-- A nested outline is passed over. -/
theorem passes (h : WellNested g live tags ps ss) {a : α} (ha : live a) :
    Passes (g.opens a) (g.closes a) ps := by
  induction h with
  | nil => exact .nil
  | plain p _ ih => exact ih.plain p
  | other hignored hquiet _ ih => exact ih.other (hquiet a ha) (hignored.closes a)
  | pair _ _ hbalance _ _ ih ih' =>
    obtain ⟨hfront, hback, hboth⟩ := hbalance a ha
    exact .enclosed hfront hback hboth ih ih'

/-- The segments of a nested outline are those it is nested with. -/
theorem segments_eq (h : WellNested g live tags ps ss)
    (htags : ∀ back, .tag back ∈ ps → tags back) :
    segments g ps = ss := by
  induction h with
  | nil => rw [segments]
  | plain p _ ih => rw [segments, ih fun back hback => htags back (.tail _ hback)]
  | other hignored _ _ ih =>
    have hrest := fun back hback => htags back (.tail _ hback)
    rw [segments_cons_none (pairFrom_of_ignores (hignored.mono hrest)), ih hrest]
  | @pair a front back inside ps _ _ hheads hcloses hbalance hinside _ _ ih =>
    obtain ⟨-, hback, -⟩ := hbalance a hcloses.1
    have hsplit := (hinside.passes hcloses.1).split hback hcloses.2 ps
    have hpair : pairFrom g front (inside ++ .tag back :: ps) = some (a, inside, back, ps) := by
      rw [pairFrom, hheads, List.findSome?_singleton, hsplit]
      rfl
    rw [segments_cons_some hpair, ih fun back hback => htags back (by simp [hback])]

end WellNested

/-! ## Parallel outlines -/

/-- Two outlines that are nested alike: related pieces in the same places, loops with related tags,
and conditionals whose tags are related. Branches may start `inside` of a conditional only. -/
inductive Parallel (d : Delimiters) (leaf : Piece P → Piece P → Prop)
    (loop : Text → Text → Text → Text → Prop) (choice : Text → Text → Prop) :
    (inside : Bool) → List (Piece P) → List (Piece P) → Prop where
  /-- The end of both. -/
  | nil {inside : Bool} : Parallel d leaf loop choice inside [] []
  /-- Two pieces. -/
  | leaf {inside : Bool} {q q' : Piece P} {ps qs : List (Piece P)} (related : leaf q q')
    (rest : Parallel d leaf loop choice inside ps qs) :
    Parallel d leaf loop choice inside (q :: ps) (q' :: qs)
  /-- Two tags that start branches. -/
  | branch {body body' : Text} {condition? : Option Text} {ps qs : List (Piece P)}
    (related : choice body body') (reads : reading d d.conditionalTag body =
      some (.branch condition?))
    (rest : Parallel d leaf loop choice true ps qs) :
    Parallel d leaf loop choice true (.tag body :: ps) (.tag body' :: qs)
  /-- Two loops. -/
  | loop {inside : Bool} {front back front' back' : Text} {us vs ps qs : List (Piece P)}
    (related : loop front back front' back') (within : Parallel d leaf loop choice false us vs)
    (rest : Parallel d leaf loop choice inside ps qs) :
    Parallel d leaf loop choice inside (.tag front :: (us ++ .tag back :: ps))
      (.tag front' :: (vs ++ .tag back' :: qs))
  /-- Two conditionals. -/
  | choice {inside : Bool} {front back front' back' condition : Text} {us vs ps qs : List (Piece P)}
    (opening : choice front front') (reads : reading d d.conditionalTag front =
      some (.opening condition))
    (closing : choice back back') (ends : reading d d.conditionalTag back = some .closing)
    (within : Parallel d leaf loop choice true us vs)
    (rest : Parallel d leaf loop choice inside ps qs) :
    Parallel d leaf loop choice inside (.tag front :: (us ++ .tag back :: ps))
      (.tag front' :: (vs ++ .tag back' :: qs))

namespace Parallel

variable {d : Delimiters} {leaf : Piece P → Piece P → Prop}
    {loop : Text → Text → Text → Text → Prop}
  {choice : Text → Text → Prop} {inside : Bool} {ps qs us vs : List (Piece P)}

theorem append (h : Parallel d leaf loop choice inside ps qs)
    (h' : Parallel d leaf loop choice inside us vs) :
    Parallel d leaf loop choice inside (ps ++ us) (qs ++ vs) := by
  induction h with
  | nil => exact h'
  | leaf hq _ ih => exact .leaf hq (ih h')
  | branch hb hr _ ih => exact .branch hb hr (ih h')
  | loop hl hwithin _ _ ih =>
    simp only [List.cons_append, List.append_assoc]
    exact .loop hl hwithin (ih h')
  | choice ho hr hc he hwithin _ _ ih =>
    simp only [List.cons_append, List.append_assoc]
    exact .choice ho hr hc he hwithin (ih h')

/-- Pieces that are related one by one. -/
theorem of_leaves (h : Forall₂ leaf ps qs) : Parallel d leaf loop choice inside ps qs := by
  induction h with
  | nil => exact .nil
  | cons hq _ ih => exact .leaf hq ih

theorem flatMap {β : Type} {xs : List β} {f g : β → List (Piece P)}
    (h : ∀ x ∈ xs, Parallel d leaf loop choice inside (f x) (g x)) :
    Parallel d leaf loop choice inside (xs.flatMap f) (xs.flatMap g) := by
  induction xs with
  | nil => exact .nil
  | cons x xs ih =>
    rw [List.flatMap_cons, List.flatMap_cons]
    exact (h x (by simp)).append (ih fun y hy => h y (by simp [hy]))

/-- What holds of related pieces, and of the tags in two outlines. -/
theorem forall_mem {A B : Piece P → Prop} (hleaf : ∀ {q q'}, leaf q q' → A q ∧ B q')
    (hloop : ∀ {front back front' back'}, loop front back front' back' →
      (A (.tag front) ∧ A (.tag back)) ∧ B (.tag front') ∧ B (.tag back'))
    (hchoice : ∀ {body body'}, choice body body' → A (.tag body) ∧ B (.tag body'))
    (h : Parallel d leaf loop choice inside ps qs) : (∀ q ∈ ps, A q) ∧ ∀ q ∈ qs, B q := by
  induction h with
  | nil => simp
  | leaf hq _ ih =>
    exact ⟨List.forall_mem_cons.mpr ⟨(hleaf hq).1, ih.1⟩,
      List.forall_mem_cons.mpr ⟨(hleaf hq).2, ih.2⟩⟩
  | branch hb _ _ ih =>
    exact ⟨List.forall_mem_cons.mpr ⟨(hchoice hb).1, ih.1⟩,
      List.forall_mem_cons.mpr ⟨(hchoice hb).2, ih.2⟩⟩
  | loop hl _ _ ih ih' =>
    simp only [List.forall_mem_cons, List.forall_mem_append]
    exact ⟨⟨(hloop hl).1.1, ih.1, (hloop hl).1.2, ih'.1⟩, (hloop hl).2.1,
      ih.2, (hloop hl).2.2, ih'.2⟩
  | choice ho _ hc _ _ _ ih ih' =>
    simp only [List.forall_mem_cons, List.forall_mem_append]
    exact ⟨⟨(hchoice ho).1, ih.1, (hchoice hc).1, ih'.1⟩, (hchoice ho).2,
      ih.2, (hchoice hc).2, ih'.2⟩

/-- Parallel outlines stay parallel where related pieces are mapped to related ones, and other tags
to themselves. -/
theorem map {P' : Type} {leaf' : Piece P' → Piece P' → Prop} {f g : Piece P → Piece P'}
    {us vs : List (Piece P)} (hleaf : ∀ {q q'}, leaf q q' → leaf' (f q) (g q'))
    (hloop : ∀ {front back front' back'}, loop front back front' back' →
    .tag back ∈ us → .tag back' ∈ vs → (f (.tag front) = .tag front ∧ f (.tag back) = .tag back) ∧
        g (.tag front') = .tag front' ∧ g (.tag back') = .tag back')
    (hchoice : ∀ {body body'}, choice body body' → f (.tag body) = .tag body ∧
    g (.tag body') = .tag body')
    (h : Parallel d leaf loop choice inside ps qs) (hps : ∀ q ∈ ps, q ∈ us)
    (hqs : ∀ q ∈ qs, q ∈ vs) :
    Parallel d leaf' loop choice inside (ps.map f) (qs.map g) := by
  induction h with
  | nil => exact .nil
  | leaf hq _ ih =>
    rw [List.forall_mem_cons] at hps hqs
    exact .leaf (hleaf hq) (ih hps.2 hqs.2)
  | branch hb hr _ ih =>
    rw [List.forall_mem_cons] at hps hqs
    rw [List.map_cons, List.map_cons, (hchoice hb).1, (hchoice hb).2]
    exact .branch hb hr (ih hps.2 hqs.2)
  | loop hl _ _ ih ih' =>
    simp only [List.forall_mem_cons, List.forall_mem_append] at hps hqs
    obtain ⟨-, hus, hback, hps⟩ := hps
    obtain ⟨-, hvs, hback', hqs⟩ := hqs
    obtain ⟨⟨hf, hf'⟩, hg, hg'⟩ := hloop hl hback hback'
    simp only [List.map_cons, List.map_append, hf, hf', hg, hg']
    exact .loop hl (ih hus hvs) (ih' hps hqs)
  | choice ho hr hc he _ _ ih ih' =>
    simp only [List.forall_mem_cons, List.forall_mem_append] at hps hqs
    obtain ⟨-, hus, -, hps⟩ := hps
    obtain ⟨-, hvs, -, hqs⟩ := hqs
    simp only [List.map_cons, List.map_append, hchoice ho, hchoice hc]
    exact .choice ho hr hc he (ih hus hvs) (ih' hps hqs)

end Parallel

/-! ## Conditionals -/

/-- Two tags of conditionals that say the same. -/
inductive SameChoice : Conditional → Conditional → Prop where
  /-- They open conditionals. -/
  | opening {condition condition' : Text} (truth : SameTruth condition condition') :
    SameChoice (.opening condition) (.opening condition')
  /-- They start branches. -/
  | branch {condition? condition'? : Option Text}
      (truth : Option.Rel SameTruth condition? condition'?) :
    SameChoice (.branch condition?) (.branch condition'?)
  /-- They close conditionals. -/
  | closing : SameChoice .closing .closing

/-- Related pieces are plain, and the related tags of conditionals say the same. -/
structure Lawful (d : Delimiters) (leaf : Piece P → Piece P → Prop) (choice : Text → Text → Prop) :
    Prop where
  /-- There are no tags among the pieces. -/
  plain : ∀ {q q'}, leaf q q' → (∃ p, q = .plain p) ∧ ∃ p', q' = .plain p'
  /-- The tags are read as tags of conditionals. -/
  reads : ∀ {body body'}, choice body body' → ∃ k k', reading d d.conditionalTag body = some k ∧
    reading d d.conditionalTag body' = some k' ∧ SameChoice k k'

namespace Lawful

variable {d : Delimiters} {leaf : Piece P → Piece P → Prop} {choice : Text → Text → Prop}
  {body body' : Text}

theorem opening (h : Lawful d leaf choice) (hb : choice body body') {condition : Text}
    (hr : reading d d.conditionalTag body = some (.opening condition)) :
    ∃ condition', reading d d.conditionalTag body' = some (.opening condition') ∧
      SameTruth condition condition' := by
  obtain ⟨k, k', hk, hk', hsame⟩ := h.reads hb
  obtain rfl := Option.some.inj (hr.symm.trans hk)
  cases hsame with
  | opening htruth => exact ⟨_, hk', htruth⟩

theorem branch (h : Lawful d leaf choice) (hb : choice body body') {condition? : Option Text}
    (hr : reading d d.conditionalTag body = some (.branch condition?)) :
    ∃ condition'?, reading d d.conditionalTag body' = some (.branch condition'?) ∧
      Option.Rel SameTruth condition? condition'? := by
  obtain ⟨k, k', hk, hk', hsame⟩ := h.reads hb
  obtain rfl := Option.some.inj (hr.symm.trans hk)
  cases hsame with
  | branch htruth => exact ⟨_, hk', htruth⟩

theorem closing (h : Lawful d leaf choice) (hb : choice body body')
    (hr : reading d d.conditionalTag body = some .closing) :
    reading d d.conditionalTag body' = some .closing := by
  obtain ⟨k, k', hk, hk', hsame⟩ := h.reads hb
  obtain rfl := Option.some.inj (hr.symm.trans hk)
  cases hsame with
  | closing => exact hk'

end Lawful

namespace Parallel

variable {d : Delimiters} {leaf : Piece P → Piece P → Prop} {choice : Text → Text → Prop}
    {inside : Bool}
  {ps qs us vs : List (Piece P)}

/-- Parallel outlines without loops. -/
abbrev Loopless (d : Delimiters) (leaf : Piece P → Piece P → Prop) (choice : Text → Text → Prop) :
    Bool → List (Piece P) → List (Piece P) → Prop :=
  Parallel d leaf (fun _ _ _ _ => False) choice

/-- Two segments of parallel outlines: related pieces, or conditionals that are nested alike. -/
inductive ChoiceMatched (d : Delimiters) (leaf : Piece P → Piece P → Prop)
    (choice : Text → Text → Prop) :
    Segment P Text → Segment P Text → Prop where
  /-- Two pieces. -/
  | piece {q q' : Piece P} (related : leaf q q') :
    ChoiceMatched d leaf choice (.piece q) (.piece q')
  /-- Two conditionals. -/
  | pair {condition condition' front back front' back' : Text} {us vs : List (Piece P)}
    (truth : SameTruth condition condition') (within : Loopless d leaf choice true us vs) :
    ChoiceMatched d leaf choice (.pair condition front us back) (.pair condition' front' vs back')

/-- Where no branch starts, parallel outlines fall into conditionals that are nested alike. -/
theorem nested_choices (hlaw : Lawful d leaf choice) (h : Loopless d leaf choice inside ps qs) :
    ∃ ss ts, WellNested (choicePairing d) (fun _ => True) (fun _ => True) ps ss ∧
      WellNested (choicePairing d) (fun _ => True) (fun _ => True) qs ts ∧
        (inside = false → Forall₂ (ChoiceMatched d leaf choice) ss ts) := by
  have hother : ∀ {body : Text} {condition? : Option Text},
      reading d d.conditionalTag body = some (.branch condition?) →
        (choicePairing d).Ignores (fun _ => True) body ∧
          ∀ a, True → (choicePairing d).opens a body = false := by
    intro body condition? hr
    refine ⟨⟨fun a => ?_, fun a ha => ?_⟩, fun a _ => ?_⟩
    · simp [choicePairing, closesChoice, hr]
    · simp [choicePairing, opensChoice, hr] at ha
    · simp [choicePairing, opensChoice, hr]
  have hpair : ∀ {front back condition : Text} {us ps : List (Piece P)}
      {ts ss : List (Segment P Text)},
      reading d d.conditionalTag front = some (.opening condition) →
        reading d d.conditionalTag back = some .closing →
          WellNested (choicePairing d) (fun _ => True) (fun _ => True) us ts →
            WellNested (choicePairing d) (fun _ => True) (fun _ => True) ps ss →
              WellNested (choicePairing d) (fun _ => True) (fun _ => True)
                (.tag front :: (us ++ .tag back :: ps)) (.pair condition front us back :: ss) := by
    intro front back condition us ps ts ss hfront hback
    refine .pair ?_ ⟨trivial, ?_⟩ fun a _ => ?_
    · simp [choicePairing, hfront]
    · simp [choicePairing, closesChoice, hback]
    · simp [choicePairing, opensChoice, closesChoice, hfront, hback]
  induction h with
  | nil => exact ⟨[], [], .nil, .nil, fun _ => .nil⟩
  | leaf hq _ ih =>
    obtain ⟨ss, ts, hss, hts, hmatched⟩ := ih
    obtain ⟨⟨p, rfl⟩, p', rfl⟩ := hlaw.plain hq
    exact ⟨_, _, hss.plain p, hts.plain p', fun hinside => .cons (.piece hq) (hmatched hinside)⟩
  | branch hb hr _ ih =>
    obtain ⟨ss, ts, hss, hts, -⟩ := ih
    obtain ⟨condition'?, hr', -⟩ := hlaw.branch hb hr
    exact ⟨_, _, .other (hother hr).1 (hother hr).2 hss, .other (hother hr').1 (hother hr').2 hts,
      fun hinside => absurd hinside (by simp)⟩
  | loop hl => exact hl.elim
  | choice ho hr hc he hwithin _ ih ih' =>
    obtain ⟨ss, ts, hss, hts, -⟩ := ih
    obtain ⟨ss', ts', hss', hts', hmatched⟩ := ih'
    obtain ⟨condition', hr', htruth⟩ := hlaw.opening ho hr
    exact ⟨_, _, hpair hr he hss hss', hpair hr' (hlaw.closing hc he) hts hts',
      fun hinside => .cons (.pair htruth hwithin) (hmatched hinside)⟩

/-- Inside of a conditional, parallel outlines belong to one branch of any conditional around it. -/
theorem kept (hlaw : Lawful d leaf choice) (h : Loopless d leaf choice inside ps qs)
    {low : Nat} (hlow : 0 < low) : Kept d low ps ∧ Kept d low qs := by
  induction h generalizing low with
  | nil => exact ⟨.nil, .nil⟩
  | leaf hq _ ih =>
    obtain ⟨⟨p, rfl⟩, p', rfl⟩ := hlaw.plain hq
    exact ⟨(ih hlow).1.plain p, (ih hlow).2.plain p'⟩
  | branch hb hr _ ih =>
    obtain ⟨condition'?, hr', -⟩ := hlaw.branch hb hr
    exact ⟨(ih hlow).1.branch hr hlow, (ih hlow).2.branch hr' hlow⟩
  | loop hl => exact hl.elim
  | choice ho hr hc he _ _ ih ih' =>
    obtain ⟨condition', hr', -⟩ := hlaw.opening ho hr
    exact ⟨.choice hr he (ih (Nat.succ_pos low)).1 (ih' hlow).1,
      .choice hr' (hlaw.closing hc he) (ih (Nat.succ_pos low)).2 (ih' hlow).2⟩

/-- Parallel outlines have branches whose conditions say the same, and which are parallel. -/
theorem branches (hlaw : Lawful d leaf choice) (h : Loopless d leaf choice inside ps qs)
    {condition? condition'? : Option Text}
    (hcondition : Option.Rel SameTruth condition? condition'?)
    (hsofar : Loopless d leaf choice false us vs) :
    Forall₂ (fun x y => Option.Rel SameTruth x.1 y.1 ∧ Loopless d leaf choice false x.2 y.2)
      (branches d 0 condition? us ps) (branches d 0 condition'? vs qs) := by
  induction h generalizing condition? condition'? us vs with
  | nil => exact .cons ⟨hcondition, hsofar⟩ .nil
  | leaf hq _ ih =>
    have hgrown := hsofar.append (.leaf hq .nil)
    obtain ⟨⟨p, rfl⟩, p', rfl⟩ := hlaw.plain hq
    exact ih hcondition hgrown
  | branch hb hr _ ih =>
    obtain ⟨next'?, hr', hnext⟩ := hlaw.branch hb hr
    rw [branches_branch hr, branches_branch hr']
    exact .cons ⟨hcondition, hsofar⟩ (ih hnext .nil)
  | loop hl => exact hl.elim
  | @choice _ front back front' back' condition us' vs' ps qs ho hr hc he hwithin _ _ ih =>
    -- a conditional inside of a branch belongs to it as a whole
    obtain ⟨hps, hqs⟩ := kept hlaw hwithin (Nat.succ_pos 0)
    obtain ⟨next, hr', -⟩ := hlaw.opening ho hr
    have hfront := (Kept.choice hr he hps .nil) 0 condition? us ps (Nat.le_refl 0)
    have hfront' := (Kept.choice hr' (hlaw.closing hc he) hqs .nil) 0 condition'? vs qs
        (Nat.le_refl 0)
    rw [List.cons_append, List.append_assoc] at hfront hfront'
    have hgrown := hsofar.append (.choice ho hr hc he hwithin .nil)
    exact hfront ▸ hfront' ▸ ih hcondition hgrown

/-- Of parallel outlines, resolving conditionals leaves pieces that are related one by one. -/
theorem chosen (hlaw : Lawful d leaf choice) (ctx : Context)
    (h : Loopless d leaf choice false ps qs) :
    Forall₂ leaf (chosen d ctx ps) (chosen d ctx qs) := by
  -- the branches of conditionals are shorter outlines
  induction hn : ps.length using Nat.strongRecOn generalizing ps qs with
  | ind n ih =>
    obtain ⟨ss, ts, hss, hts, hmatched⟩ := nested_choices hlaw h
    obtain rfl := hss.segments_eq fun _ _ => trivial
    obtain rfl := hts.segments_eq fun _ _ => trivial
    rw [chosen_eq, chosen_eq]
    refine List.rel_flatMap ((List.forall₂_and_left _ _).mpr ⟨fun _ => id, hmatched rfl⟩)
      fun x y hxy => ?_
    obtain ⟨hx, hxy⟩ := hxy
    cases hxy with
    | piece hq => exact .cons hq .nil
    | @pair condition condition' front back front' back' us vs htruth hwithin =>
      have hsurvivor := survivor_related ctx (branches hlaw hwithin (.some htruth) .nil)
      rw [Segment.leave, Segment.leave]
      cases hb : survivor ctx (Outline.branches d 0 (some condition) [] us) with
      | none =>
        rw [hb] at hsurvivor
        generalize survivor ctx (Outline.branches d 0 (some condition') [] vs) = y at hsurvivor
        cases hsurvivor
        exact .nil
      | some branch =>
        rw [hb] at hsurvivor
        generalize survivor ctx (Outline.branches d 0 (some condition') [] vs) = y at hsurvivor
        cases hsurvivor with
        | some hbranch =>
          have hlt : branch.length < n :=
            hn ▸ Nat.lt_of_le_of_lt (survivor_branches hb).2 (length_inside_lt hx)
          exact ih branch.length hlt hbranch rfl

end Parallel

end Outline

end Stencil
