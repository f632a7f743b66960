import Stencil.Proofs.Document.Pieces

/-!
# The passes over documents

Each pass over a text takes the outline of a document to the outline of another: one replaces loops
by what their rows make, one replaces values by their texts, and one replaces conditionals by the
branch that survives. None of them changes what the document means. When all three are through,
there are only text and regions left, and such a document is printed as what it means.
-/

namespace Stencil

open Recognizer Outline

variable {ρ : Type}

/-! ## Appending -/

/-- One document behind another. -/
def Doc.append : Doc ρ → Doc ρ → Doc ρ
  | .nil, doc => doc
  | .text s rest, doc => .text s (rest.append doc)
  | .region content rest, doc => .region content (rest.append doc)
  | .value path chain? rest, doc => .value path chain? (rest.append doc)
  | .loop head body rest, doc => .loop head body (rest.append doc)
  | .choice condition body others rest, doc => .choice condition body others (rest.append doc)

theorem Doc.pieces_append : ∀ doc doc' :
    Doc Nat, (doc.append doc').pieces = doc.pieces ++ doc'.pieces
  | .nil, _ => rfl
  | .text s rest, doc' => by simp [Doc.append, Doc.pieces_append rest doc']
  | .region index rest, doc' => by simp [Doc.append, Doc.pieces_append rest doc']
  | .value path chain? rest, doc' => by simp [Doc.append, Doc.pieces_append rest doc']
  | .loop head body rest, doc' => by simp [Doc.append, Doc.pieces_append rest doc']
  | .choice condition body others rest, doc' => by simp [Doc.append, Doc.pieces_append rest doc']

theorem Doc.meaning_append (e : Engine) (region : ρ → Text) (ctx : Context) : ∀ doc doc' : Doc ρ,
    (doc.append doc').meaning e region ctx = doc.meaning e region ctx ++ doc'.meaning e region ctx
  | .nil, _ => rfl
  | .text s rest,
      doc' => by simp [Doc.append, Doc.meaning, Doc.meaning_append e region ctx rest doc']
  | .region content rest, doc' => by
    simp [Doc.append, Doc.meaning, Doc.meaning_append e region ctx rest doc']
  | .value path chain? rest, doc' => by
    simp [Doc.append, Doc.meaning, Doc.meaning_append e region ctx rest doc']
  | .loop head body rest, doc' => by
    simp [Doc.append, Doc.meaning, Doc.meaning_append e region ctx rest doc']
  | .choice condition body others rest, doc' => by
    simp [Doc.append, Doc.meaning, Doc.meaning_append e region ctx rest doc']

theorem Doc.obeys_append {r : Rules ρ} {doc' : Doc ρ} (h' : doc'.Obeys r) :
    ∀ {doc : Doc ρ}, doc.Obeys r → (doc.append doc').Obeys r := by
  intro doc h
  cases doc with
  | nil => exact h'
  | text s rest => exact ⟨h.1, Doc.obeys_append h' h.2⟩
  | region content rest => exact ⟨h.1, Doc.obeys_append h' h.2⟩
  | value path chain? rest => exact ⟨h.1, Doc.obeys_append h' h.2⟩
  | loop head body rest => exact ⟨h.1, h.2.1, Doc.obeys_append h' h.2.2⟩
  | choice condition body others rest => exact ⟨h.1, h.2.1, h.2.2.1, Doc.obeys_append h' h.2.2.2⟩

/-! ## Resolving conditionals -/

mutual

/-- A document without conditionals: of each, what survives. -/
def Doc.settled (ctx : Context) : Doc ρ → Doc ρ
  | .nil => .nil
  | .text s rest => .text s (rest.settled ctx)
  | .region content rest => .region content (rest.settled ctx)
  | .value path chain? rest => .value path chain? (rest.settled ctx)
  | .loop head body rest => .loop head body (rest.settled ctx)
  | .choice condition body others rest =>
    ((survivor ctx ((some condition.trim, body.settled ctx) :: others.settled ctx)).getD
      .nil).append (rest.settled ctx)

/-- The branches behind the first, without conditionals, by their conditions. -/
def Branches.settled (ctx : Context) : Branches ρ → List (Option Text × Doc ρ)
  | .nil => []
  | .otherwise body => [(none, body.settled ctx)]
  | .elseif condition body others =>
    (some condition.trim, body.settled ctx) :: others.settled ctx

end

mutual

/-- Resolving conditionals keeps the meaning. -/
theorem Doc.meaning_settled (e : Engine) (region : ρ → Text) (ctx : Context) : ∀ doc : Doc ρ,
    (doc.settled ctx).meaning e region ctx = doc.meaning e region ctx
  | .nil => rfl
  | .text s rest => by rw [Doc.settled, Doc.meaning, Doc.meaning, rest.meaning_settled]
  | .region content rest => by rw [Doc.settled, Doc.meaning, Doc.meaning, rest.meaning_settled]
  | .value path chain? rest => by rw [Doc.settled, Doc.meaning, Doc.meaning, rest.meaning_settled]
  | .loop head body rest => by rw [Doc.settled, Doc.meaning, Doc.meaning, rest.meaning_settled]
  | .choice condition body others rest => by
    have hsurvivor := survivor_map ctx (fun doc => doc.meaning e region ctx)
      ((some condition.trim, body.settled ctx) :: others.settled ctx)
    rw [List.map_cons, others.meanings_settled, body.meaning_settled] at hsurvivor
    rw [Doc.settled, Doc.meaning_append, rest.meaning_settled, Doc.meaning, hsurvivor]
    cases survivor ctx ((some condition.trim, body.settled ctx) :: others.settled ctx) <;> rfl

/-- So it does in branches. -/
theorem Branches.meanings_settled (e : Engine) (region : ρ → Text) (ctx : Context) :
    ∀ others : Branches ρ,
      (others.settled ctx).map (fun x => (x.1, x.2.meaning e region ctx)) =
        others.meanings e region ctx
  | .nil => rfl
  | .otherwise body => by
    rw [Branches.settled, Branches.meanings, List.map_cons, body.meaning_settled]
    rfl
  | .elseif condition body others => by
    rw [Branches.settled, Branches.meanings, List.map_cons, body.meaning_settled,
      others.meanings_settled]

end

/-- Rules that allow no conditionals. -/
def Rules.unconditional (r : Rules ρ) : Rules ρ := { r with condition := fun _ => False }

mutual

/-- No conditionals are left. -/
theorem Doc.obeys_settled {r : Rules ρ} (hflat : ∀ head, ¬ r.loop head) (ctx : Context) :
    ∀ doc : Doc ρ, doc.Obeys r → (doc.settled ctx).Obeys r.unconditional
  | .nil, _ => trivial
  | .text _ rest, h => ⟨h.1, rest.obeys_settled hflat ctx h.2⟩
  | .region _ rest, h => ⟨h.1, rest.obeys_settled hflat ctx h.2⟩
  | .value _ _ rest, h => ⟨h.1, rest.obeys_settled hflat ctx h.2⟩
  | .loop head _ _, h => absurd h.1 (hflat head)
  | .choice condition body others rest, h => by
    obtain ⟨-, hbody, hothers, hrest⟩ := h
    refine Doc.obeys_append (rest.obeys_settled hflat ctx hrest) ?_
    cases hs : survivor ctx ((some condition.trim, body.settled ctx) :: others.settled ctx) with
    | none => trivial
    | some doc =>
      obtain ⟨condition?, hmem⟩ := survivor_mem hs
      rcases List.mem_cons.mp hmem with heq | hmem
      · exact (Prod.mk.inj heq).2 ▸ body.obeys_settled hflat ctx hbody
      · exact others.obeys_settled hflat ctx hothers _ hmem

/-- Nor are there any in branches. -/
theorem Branches.obeys_settled {r : Rules ρ} (hflat : ∀ head, ¬ r.loop head) (ctx : Context) :
    ∀ others : Branches ρ, others.Obeys r → ∀ x ∈ others.settled ctx, x.2.Obeys r.unconditional
  | .nil, _ => fun x hx => absurd hx (by simp [Branches.settled])
  | .otherwise body, h => by
    intro x hx
    obtain rfl := List.mem_singleton.mp hx
    exact body.obeys_settled hflat ctx h
  | .elseif condition body others, h => by
    intro x hx
    rcases List.mem_cons.mp hx with rfl | hx
    · exact body.obeys_settled hflat ctx h.2.1
    · exact others.obeys_settled hflat ctx h.2.2 x hx

end

section

variable {d : Delimiters} {legacy : List Text} {r : Rules Nat}

mutual

/-- Resolving the conditionals of the text of a document without loops. -/
theorem Doc.resolve (hd : d.Apart) (hr : r.Strict d legacy) (hflat : ∀ head, ¬ r.loop head)
    (ctx : Context) : ∀ doc : Doc Nat, doc.Obeys r →
      resolveConditionals d ctx (write d id doc.pieces) = write d id (doc.settled ctx).pieces
  | .nil, _ => by
    rw [Doc.pieces_nil, write_nil, resolveConditionals]
    rfl
  | .text s rest, h => by
    have htidy := Doc.tidy hd hr h
    rw [Doc.pieces_text] at htidy ⊢
    rw [resolveConditionals_plain hd ctx htidy,
      rest.resolve hd hr hflat ctx h.2]
    rfl
  | .region index rest, h => by
    have htidy := Doc.tidy hd hr h
    rw [Doc.pieces_region] at htidy ⊢
    rw [resolveConditionals_plain hd ctx htidy,
      rest.resolve hd hr hflat ctx h.2]
    rfl
  | .value path chain? rest, h => by
    have hother := conditionalTag_valueTag hd (hr.value h.1)
    have htidy := Doc.tidy hd hr h
    rw [Doc.pieces_value] at htidy ⊢
    rw [resolveConditionals_other hd ctx htidy hother,
      rest.resolve hd hr hflat ctx h.2]
    rfl
  | .loop head _ _, h => absurd h.1 (hflat head)
  | .choice condition body others rest, h => by
    have htidy := Doc.tidy hd hr h
    obtain ⟨hcondition, hbody, hothers, hrest⟩ := h
    have hs := suits_choices hd hr
    have hfront := (ChoiceTag.opening (hr.condition hcondition)).reading_eq hd
    have hback := (ChoiceTag.closing (d := d)).reading_eq hd
    have hclose : closesChoice d "endif".toList = true := by rw [closesChoice, hback]
    have hpasses := (body.passes hs hbody).append (others.passes hs hothers)
    rw [Doc.pieces_choice, ← List.append_assoc] at htidy ⊢
    have hsplit := hpasses.split (hs.choice hcondition).2.1 hclose rest.pieces
    -- resolving the branch that survives is letting one of the resolved branches survive
    have hbefore := survivor_map ctx
      (fun doc => resolveConditionals d ctx (write d id (Doc.pieces doc)))
      ((some condition.trim, body) :: others.bodies)
    have hafter := survivor_map ctx (fun doc => write d id (Doc.pieces doc))
      ((some condition.trim, body.settled ctx) :: others.settled ctx)
    rw [List.map_cons, body.resolve hd hr hflat ctx hbody,
      others.resolve hd hr hflat ctx hothers] at hbefore
    have hsame := hbefore.symm.trans hafter
    rw [resolveConditionals_choice hd ctx htidy hfront hsplit, rest.resolve hd hr hflat ctx hrest,
      branches_pieces hd hr hbody _ hothers, survivor_map, Option.map_map, Doc.settled,
      Doc.pieces_append, write_append]
    congr 1
    refine (congrArg (Option.getD · []) hsame).trans ?_
    cases survivor ctx ((some condition.trim, body.settled ctx) :: others.settled ctx) <;> rfl

/-- So it goes for branches. -/
theorem Branches.resolve (hd : d.Apart) (hr : r.Strict d legacy) (hflat : ∀ head, ¬ r.loop head)
    (ctx : Context) : ∀ others : Branches Nat, others.Obeys r →
      others.bodies.map (fun x => (x.1, resolveConditionals d ctx (write d id x.2.pieces))) =
        (others.settled ctx).map fun x => (x.1, write d id x.2.pieces)
  | .nil, _ => rfl
  | .otherwise body, h => by
    rw [Branches.bodies, Branches.settled, List.map_cons, body.resolve hd hr hflat ctx h]
    rfl
  | .elseif condition body others, h => by
    rw [Branches.bodies, Branches.settled, List.map_cons, body.resolve hd hr hflat ctx h.2.1,
      others.resolve hd hr hflat ctx h.2.2]
    rfl

end

end

/-! ## Replacing values -/

mutual

/-- A document without values: of each, its text. -/
def Doc.filled (σ : Substitution) (ctx : Context) : Doc ρ → Doc ρ
  | .nil => .nil
  | .text s rest => .text s (rest.filled σ ctx)
  | .region content rest => .region content (rest.filled σ ctx)
  | .value path chain? rest =>
    .text ((σ.text? ctx ⟨path, chain?.map Text.trim⟩).getD []) (rest.filled σ ctx)
  | .loop head body rest => .loop head body (rest.filled σ ctx)
  | .choice condition body others rest =>
    .choice condition (body.filled σ ctx) (others.filled σ ctx) (rest.filled σ ctx)

/-- Branches without values. -/
def Branches.filled (σ : Substitution) (ctx : Context) : Branches ρ → Branches ρ
  | .nil => .nil
  | .otherwise body => .otherwise (body.filled σ ctx)
  | .elseif condition body others => .elseif condition (body.filled σ ctx) (others.filled σ ctx)

end

mutual

/-- Replacing values keeps the meaning. -/
theorem Doc.meaning_filled (e : Engine) (region : ρ → Text) (ctx : Context) : ∀ doc : Doc ρ,
    (doc.filled e.substitution ctx).meaning e region ctx = doc.meaning e region ctx
  | .nil => rfl
  | .text s rest => by rw [Doc.filled, Doc.meaning, Doc.meaning, rest.meaning_filled]
  | .region content rest => by rw [Doc.filled, Doc.meaning, Doc.meaning, rest.meaning_filled]
  | .value path chain? rest => by rw [Doc.filled, Doc.meaning, Doc.meaning, rest.meaning_filled]
  | .loop head body rest => by rw [Doc.filled, Doc.meaning, Doc.meaning, rest.meaning_filled]
  | .choice condition body others rest => by
    rw [Doc.filled, Doc.meaning, Doc.meaning, body.meaning_filled, others.meanings_filled,
      rest.meaning_filled]

/-- So it does in branches. -/
theorem Branches.meanings_filled (e : Engine) (region : ρ → Text) (ctx : Context) :
    ∀ others : Branches ρ,
      (others.filled e.substitution ctx).meanings e region ctx = others.meanings e region ctx
  | .nil => rfl
  | .otherwise body => by
    rw [Branches.filled, Branches.meanings, Branches.meanings, body.meaning_filled]
  | .elseif condition body others => by
    rw [Branches.filled, Branches.meanings, Branches.meanings, body.meaning_filled,
      others.meanings_filled]

end

/-- Rules that allow no values. -/
def Rules.valueless (r : Rules ρ) : Rules ρ := { r with value := fun _ _ => False }

/-- Values have a text that is one. -/
def Rules.Filling (r : Rules ρ) (σ : Substitution) (ctx : Context) : Prop :=
  ∀ {path chain?}, r.value path chain? →
    ∃ t, σ.text? ctx ⟨path, chain?.map Text.trim⟩ = some t ∧ r.text t

mutual

/-- No values are left. -/
theorem Doc.obeys_filled {r : Rules ρ} {σ : Substitution} {ctx : Context}
    (hfilling : r.Filling σ ctx) (hflat : ∀ head, ¬ r.loop head) :
    ∀ doc : Doc ρ, doc.Obeys r → (doc.filled σ ctx).Obeys r.valueless
  | .nil, _ => trivial
  | .text _ rest, h => ⟨h.1, rest.obeys_filled hfilling hflat h.2⟩
  | .region _ rest, h => ⟨h.1, rest.obeys_filled hfilling hflat h.2⟩
  | .value path chain? rest, h => by
    obtain ⟨t, ht, htext⟩ := hfilling h.1
    rw [Doc.filled, ht]
    exact ⟨htext, rest.obeys_filled hfilling hflat h.2⟩
  | .loop head _ _, h => absurd h.1 (hflat head)
  | .choice _ body others rest, h =>
    ⟨h.1, body.obeys_filled hfilling hflat h.2.1, others.obeys_filled hfilling hflat h.2.2.1,
      rest.obeys_filled hfilling hflat h.2.2.2⟩

/-- Nor are there any in branches. -/
theorem Branches.obeys_filled {r : Rules ρ} {σ : Substitution} {ctx : Context}
    (hfilling : r.Filling σ ctx) (hflat : ∀ head, ¬ r.loop head) :
    ∀ others : Branches ρ, others.Obeys r → (others.filled σ ctx).Obeys r.valueless
  | .nil, _ => trivial
  | .otherwise body, h => body.obeys_filled hfilling hflat h
  | .elseif _ body others, h =>
    ⟨h.1, body.obeys_filled hfilling hflat h.2.1, others.obeys_filled hfilling hflat h.2.2⟩

end

section

variable {σ : Substitution} {legacy : List Text} {r : Rules Nat} {ctx : Context}

/-- A tag of a conditional is not replaced. -/
theorem substituted_choice (hd : σ.delimiters.Apart) {body : Text} {c : Conditional}
    (h : ChoiceTag σ.delimiters body c) :
    substituted σ id ctx (.tag body) = σ.delimiters.enclose body := by
  rw [substituted]
  cases hv : reading σ.delimiters σ.delimiters.variableTag body with
  | none => rfl
  | some v => rw [Option.map_some, h.text?_eq_none hd hv]; rfl

mutual

/-- Replacing the values in the outline of a document without loops. -/
theorem Doc.substitute (hd : σ.delimiters.Apart) (hr : r.Strict σ.delimiters legacy)
    (hfilling : r.Filling σ ctx) (hflat : ∀ head, ¬ r.loop head) : ∀ doc : Doc Nat, doc.Obeys r →
      doc.pieces.flatMap (substituted σ id ctx) = write σ.delimiters id (doc.filled σ ctx).pieces
  | .nil, _ => rfl
  | .text s rest, h => by
    rw [Doc.pieces_text, List.flatMap_cons, rest.substitute hd hr hfilling hflat h.2, Doc.filled,
      Doc.pieces_text, write_cons]
    rfl
  | .region index rest, h => by
    rw [Doc.pieces_region, List.flatMap_cons, rest.substitute hd hr hfilling hflat h.2, Doc.filled,
      Doc.pieces_region, write_cons]
    rfl
  | .value path chain? rest, h => by
    obtain ⟨t, ht, -⟩ := hfilling h.1
    rw [Doc.pieces_value, List.flatMap_cons, rest.substitute hd hr hfilling hflat h.2, Doc.filled,
      Doc.pieces_text, write_cons, substituted, reading_valueTag hd (hr.value h.1), Option.map_some,
      ht]
    rfl
  | .loop head _ _, h => absurd h.1 (hflat head)
  | .choice condition body others rest, h => by
    obtain ⟨hcondition, hbody, hothers, hrest⟩ := h
    rw [Doc.pieces_choice, List.flatMap_cons, List.flatMap_append, List.flatMap_append,
      List.flatMap_cons, substituted_choice hd (.opening (hr.condition hcondition)),
      substituted_choice hd .closing, body.substitute hd hr hfilling hflat hbody,
      others.substitute hd hr hfilling hflat hothers, rest.substitute hd hr hfilling hflat hrest,
      Doc.filled, Doc.pieces_choice, write_cons, write_append, write_append, write_cons]
    rfl

/-- So it goes for branches. -/
theorem Branches.substitute (hd : σ.delimiters.Apart) (hr : r.Strict σ.delimiters legacy)
    (hfilling : r.Filling σ ctx) (hflat : ∀ head, ¬ r.loop head) :
    ∀ others : Branches Nat, others.Obeys r →
      others.pieces.flatMap (substituted σ id ctx) =
        write σ.delimiters id (others.filled σ ctx).pieces
  | .nil, _ => rfl
  | .otherwise body, h => by
    rw [Branches.pieces_otherwise, List.flatMap_cons, substituted_choice hd .otherwise,
      body.substitute hd hr hfilling hflat h, Branches.filled,
      Branches.pieces_otherwise, write_cons]
    rfl
  | .elseif condition body others, h => by
    obtain ⟨hcondition, hbody, hothers⟩ := h
    rw [Branches.pieces_elseif, List.flatMap_cons, List.flatMap_append,
      substituted_choice hd (.elseif (hr.condition hcondition)),
      body.substitute hd hr hfilling hflat hbody, others.substitute hd hr hfilling hflat hothers,
      Branches.filled, Branches.pieces_elseif, write_cons, write_append]
    rfl

end

end

/-! ## Documents without loops -/

/-- A document of text and regions is printed as what it means. -/
theorem Doc.write_eq_meaning {r : Rules Nat} (hvalue : ∀ path chain?, ¬ r.value path chain?)
    (hloop : ∀ head, ¬ r.loop head) (hcondition : ∀ condition, ¬ r.condition condition)
    (e : Engine) (ctx : Context) : ∀ doc : Doc Nat, doc.Obeys r →
      write e.delimiters id doc.pieces = doc.meaning e ProtectedRegions.placeholder ctx
  | .nil, _ => rfl
  | .text s rest, h => by
    rw [Doc.pieces_text, write_cons, Doc.meaning,
      rest.write_eq_meaning hvalue hloop hcondition e ctx h.2]
    rfl
  | .region index rest, h => by
    rw [Doc.pieces_region, write_cons, Doc.meaning,
      rest.write_eq_meaning hvalue hloop hcondition e ctx h.2]
    rfl
  | .value path chain? _, h => absurd h.1 (hvalue path chain?)
  | .loop head _ _, h => absurd h.1 (hloop head)
  | .choice condition _ _ _, h => absurd h.1 (hcondition condition)

section

variable {e : Engine} {legacy : List Text} {r : Rules Nat} {ctx : Context} {doc : Doc Nat}

theorem Rules.Strict.unconditional {d : Delimiters} (hr : r.Strict d legacy) :
    r.unconditional.Strict d legacy :=
  ⟨hr.text, hr.value, hr.loop, fun h => absurd h id⟩

theorem Rules.Strict.valueless {d : Delimiters} (hr : r.Strict d legacy) :
    r.valueless.Strict d legacy :=
  ⟨hr.text, fun h => absurd h id, hr.loop, hr.condition⟩

/-- In the body of a loop, conditionals are resolved and then values are replaced. -/
theorem Doc.render_body (hd : e.delimiters.Apart) (hr : r.Strict e.delimiters legacy)
    (hfilling : r.Filling e.substitution ctx) (hflat : ∀ head, ¬ r.loop head) (h : doc.Obeys r) :
    e.substitution.apply (resolveConditionals e.delimiters ctx (write e.delimiters id doc.pieces))
      ctx = doc.meaning e ProtectedRegions.placeholder ctx := by
  have hsettled := doc.obeys_settled hflat ctx h
  have hfilled := (doc.settled ctx).obeys_filled (r := r.unconditional) hfilling hflat hsettled
  have htidy := Doc.tidy hd hr.unconditional hsettled
  calc e.substitution.apply
        (resolveConditionals e.delimiters ctx (write e.delimiters id doc.pieces)) ctx
      = e.substitution.apply (write e.delimiters id (doc.settled ctx).pieces) ctx := by
        rw [doc.resolve hd hr hflat ctx h]
    _ = (doc.settled ctx).pieces.flatMap (substituted e.substitution id ctx) :=
        apply_write (σ := e.substitution) hd htidy ctx
    _ = write e.delimiters id ((doc.settled ctx).filled e.substitution ctx).pieces :=
        (doc.settled ctx).substitute (r := r.unconditional) hd hr.unconditional
          hfilling hflat hsettled
    _ = ((doc.settled ctx).filled e.substitution ctx).meaning e ProtectedRegions.placeholder ctx :=
        Doc.write_eq_meaning (r := r.unconditional.valueless) (fun _ _ => id) hflat (fun _ => id) e
          ctx _ hfilled
    _ = doc.meaning e ProtectedRegions.placeholder ctx := by
        rw [Doc.meaning_filled, Doc.meaning_settled]

/-- In a whole document, values are replaced and then conditionals are resolved. -/
theorem Doc.render_whole (hd : e.delimiters.Apart) (hr : r.Strict e.delimiters legacy)
    (hfilling : r.Filling e.substitution ctx) (hflat : ∀ head, ¬ r.loop head) (h : doc.Obeys r) :
    resolveConditionals e.delimiters ctx
      (e.substitution.apply (write e.delimiters id doc.pieces) ctx) =
        doc.meaning e ProtectedRegions.placeholder ctx := by
  have hfilled := doc.obeys_filled hfilling hflat h
  have hsettled := (doc.filled e.substitution ctx).obeys_settled (r :=
    r.valueless) hflat ctx hfilled
  have htidy := Doc.tidy hd hr h
  calc resolveConditionals e.delimiters ctx
        (e.substitution.apply (write e.delimiters id doc.pieces) ctx)
      = resolveConditionals e.delimiters ctx
          (doc.pieces.flatMap (substituted e.substitution id ctx)) :=
        congrArg _ (apply_write (σ := e.substitution) hd htidy ctx)
    _ = resolveConditionals e.delimiters ctx
          (write e.delimiters id (doc.filled e.substitution ctx).pieces) :=
        congrArg _ (doc.substitute hd hr hfilling hflat h)
    _ = write e.delimiters id ((doc.filled e.substitution ctx).settled ctx).pieces :=
        Doc.resolve hd hr.valueless hflat ctx _ hfilled
    _ = ((doc.filled e.substitution ctx).settled ctx).meaning e ProtectedRegions.placeholder ctx :=
        Doc.write_eq_meaning (r := r.valueless.unconditional) (fun _ _ => id) hflat (fun _ => id) e
          ctx _ hsettled
    _ = doc.meaning e ProtectedRegions.placeholder ctx := by
        rw [Doc.meaning_settled, Doc.meaning_filled]

end

end Stencil
