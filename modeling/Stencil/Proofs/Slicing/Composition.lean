import Stencil.Engine.Composition
import Stencil.Proofs.Slicing.Passes

/-!
# Composition, stretch by stretch

Templates are put into the place of the tags that name them, in a text that is taken apart at these
tags. All passes run in between, each stretch by stretch. Nowhere is a stretch missing, whatever the
delimiters are: what comes out is what composition gives.
-/

namespace Stencil

namespace Engine

/-- Renders a composed text, stretch by stretch. -/
def process? (e : Engine) (ctx : Context) (isDocument : Bool) (s : Text) : Option Text := do
  let substitute := e.substitution.apply
  let renderBody? (body : Text) (ctx : Context) : Option Text := do
    let body ← resolveConditionals? e.delimiters ctx body
    return substitute body ctx
  let s ← expandLoops? e.delimiters renderBody? s ctx
  let s := substitute s ctx
  let s := if isDocument then e.plugins.apply s ctx else s
  resolveConditionals? e.delimiters ctx s

theorem process?_eq (e : Engine) (ctx : Context) (isDocument : Bool) (s : Text) :
    e.process? ctx isDocument s = some (e.process ctx isDocument s) := by
  have hbody : ∀ (body : Text) (ctx : Context), (do
      let body ← resolveConditionals? e.delimiters ctx body
      return e.substitution.apply body ctx) =
        some (e.substitution.apply (resolveConditionals e.delimiters ctx body) ctx) := by
    intro body ctx
    rw [resolveConditionals?_eq]
    rfl
  rw [process?]
  dsimp only
  rw [expandLoops?_eq hbody]
  exact resolveConditionals?_eq _ _ _

/-- A stretch in a step of composition. -/
def stretch {α : Type} (x? : Option α) : OptionT Composing α := OptionT.mk (pure x?)

@[simp] theorem stretch_some {α : Type} (x : α) : stretch (some x) = pure x := rfl

/-- Composes a template inside others, stretch by stretch. -/
def compose? (e : Engine) (disk : Disk) (ctx : Context) :
    (fuel : Nat) → Ancestry → Blocks → String → OptionT Composing Text
  | 0, _, _, _ => OptionT.lift (throw .outOfFuel)
  | fuel + 1, ancestry, definitions, name => do
    let ancestry ← OptionT.lift (liftM ((ancestry.enter name).mapError Stop.failed))
    let source ← OptionT.lift (e.request disk name)
    let text ← source.fillIn Found.span (fun t => do
      let included ← compose? e disk ctx fuel ancestry [] t.content
      stretch (e.process? ctx false included)) 0 (Tag.find e.delimiters.includeTag source)
    match (Tag.find e.delimiters.baseTag text).head? with
    | none => stretch (Blocks.resolve? e.delimiters definitions [] text)
    | some t => do
      let definitions ← stretch (Blocks.collect? e.delimiters text definitions)
      let base ← compose? e disk ctx fuel ancestry definitions t.content
      let rest ← stretch (Blocks.strip? e.delimiters text)
      match (Tag.find e.delimiters.baseTag rest).head? with
      | some t => rest.fillIn Found.span (fun _ => pure base) 0 [t]
      | none => return rest ++ base

section

variable {α β τ : Type}

theorem lift_bind (x : Composing α) (f : α → Composing β) :
    OptionT.lift (x >>= f) = OptionT.lift x >>= fun a => OptionT.lift (f a) := by
  refine OptionT.ext ?_
  simp

theorem mapM_eq_lift {f : τ → OptionT Composing α} {g : τ → Composing α} {xs : List τ}
    (h : ∀ x ∈ xs, f x = OptionT.lift (g x)) : xs.mapM f = OptionT.lift (xs.mapM g) := by
  induction xs with
  | nil => rw [List.mapM_nil, List.mapM_nil, OptionT.lift_pure]
  | cons x xs ih =>
    rw [List.mapM_cons, List.mapM_cons, h x (by simp), ih fun y hy => h y (by simp [hy]), lift_bind]
    refine bind_congr fun y => ?_
    rw [lift_bind]
    refine bind_congr fun ys => ?_
    rw [OptionT.lift_pure]

end

/-- No stretch is missing when a template is composed. -/
theorem compose?_eq (e : Engine) (disk : Disk) (ctx : Context) (fuel : Nat) (ancestry : Ancestry)
    (definitions : Blocks) (name : String) :
    e.compose? disk ctx fuel ancestry definitions name =
      OptionT.lift (e.compose disk ctx fuel ancestry definitions name) := by
  induction fuel generalizing ancestry definitions name with
  | zero => rfl
  | succ fuel ih =>
    rw [compose?, compose, lift_bind]
    refine bind_congr fun ancestry => ?_
    rw [lift_bind]
    refine bind_congr fun source => ?_
    have hincludes : source.fillIn Found.span (fun t => do
        let included ← e.compose? disk ctx fuel ancestry [] t.content
        stretch (e.process? ctx false included)) 0 (Tag.find e.delimiters.includeTag source) = do
          let edits ← OptionT.lift ((Tag.scan e.delimiters.includeTag source).mapM fun t => do
            let included ← e.compose disk ctx fuel ancestry [] t.content
            return (⟨t.start, t.stop, e.process ctx false included⟩ : Edit))
          return source.splice edits := by
      rw [Tag.find, Text.fillIn_tags (Delimiters.Grammar.includeTag.aligned_scan source)]
      refine congrArg (· >>= _) (mapM_eq_lift fun t _ => ?_)
      rw [Tag.content_found, ih, lift_bind, bind_assoc]
      refine bind_congr fun included => ?_
      rw [process?_eq, OptionT.lift_pure]
      rfl
    rw [hincludes, bind_assoc, lift_bind]
    refine bind_congr fun edits => ?_
    rw [pure_bind]
    dsimp only
    generalize source.splice edits = text
    rw [Tag.find, List.head?_map]
    cases (Tag.scan e.delimiters.baseTag text).head? with
    | none =>
      rw [Option.map_none]
      dsimp only
      rw [Blocks.resolve?_eq, OptionT.lift_pure]
      rfl
    | some t =>
      rw [Option.map_some]
      dsimp only
      rw [Blocks.collect?_eq, stretch_some, pure_bind, Tag.content_found, ih, lift_bind]
      refine bind_congr fun base => ?_
      rw [Blocks.strip?_eq, stretch_some, pure_bind]
      generalize Blocks.strip e.delimiters text = rest
      rw [Tag.find, List.head?_map]
      cases hhead : (Tag.scan e.delimiters.baseTag rest).head? with
      | none =>
        rw [Option.map_none]
        dsimp only
        rw [OptionT.lift_pure]
      | some t =>
        have halign : Tag.Aligned [t] rest := (Delimiters.Grammar.baseTag.aligned_scan rest).sublist
          (List.singleton_sublist.mpr (List.mem_of_head? hhead))
        have hfill := Text.fillIn_tags (M := OptionT Composing) halign fun _ => pure base
        rw [Option.map_some]
        dsimp only
        rw [OptionT.lift_pure]
        exact hfill.trans (by simp)

end Engine

/-- **No pass takes a stretch that is not there.** Whatever the delimiters are, what a grammar finds
in a text follows each other and is not empty, and each tag is a stretch of the text that starts
with the left delimiter and ends with the right one. So the passes over a text and the composition
of templates find every stretch that they take, and give what they give without looking. -/
theorem no_stretch_missing (d : Delimiters) :
    (∀ (α : Type) (r : Recognizer α), d.Grammar r → ∀ s,
      (Tag.find r s).Pairwise (fun t u => t.stop ≤ u.start) ∧
      ∀ t ∈ Tag.find r s, t.start < t.stop ∧
        ∃ body, s.cut? t.start t.stop = some (d.left ++ (body ++ d.right))) ∧
    (∀ render s ctx, expandLoops? d (fun body ctx => some (render body ctx)) s ctx =
      some (expandLoops d render s ctx)) ∧
    (∀ ctx s, resolveConditionals? d ctx s = some (resolveConditionals d ctx s)) ∧
    (∀ s, ∀ block ∈ Blocks.brackets d s,
      (s.cut? block.opening.start block.stop).isSome ∧ (block.body? s).isSome) ∧
    (∀ s, Blocks.strip? d s = some (Blocks.strip d s)) ∧
    (∀ definitions s, Blocks.collect? d s definitions = some (Blocks.collect d s definitions)) ∧
    (∀ definitions active s, Blocks.resolve? d definitions active s =
      some (Blocks.resolve d definitions active s)) ∧
    ∀ (e : Engine) disk ctx fuel ancestry definitions name,
      Engine.compose? { e with delimiters := d } disk ctx fuel ancestry definitions name =
        OptionT.lift
          (Engine.compose { e with delimiters := d } disk ctx fuel ancestry definitions name) := by
  refine ⟨fun α r hr s => ?_, fun render s ctx => expandLoops?_eq (fun _ _ => rfl) s ctx,
    fun ctx s => resolveConditionals?_eq d ctx s, fun s block hblock => ?_,
    fun s => Blocks.strip?_eq d s, fun definitions s => Blocks.collect?_eq d s definitions,
    fun definitions active s => Blocks.resolve?_eq d definitions active s,
    fun e disk ctx fuel ancestry definitions name =>
      Engine.compose?_eq _ disk ctx fuel ancestry definitions name⟩
  · obtain ⟨hord, hcut⟩ := hr.find_spec s
    exact ⟨hord, fun t ht => ⟨t.start_lt_stop, hcut t ht⟩⟩
  · rw [Blocks.brackets_eq] at hblock
    obtain ⟨e, he, rfl⟩ := List.mem_map.mp hblock
    have hlies := Blocks.lies_of_mem_outermost he
    obtain ⟨hlt, hbody⟩ := hlies.body?_found
    rw [hlies.cut?_found, hbody]
    exact ⟨rfl, rfl⟩

/-- Tags are found between delimiters that are the same, and a block behind a character of two
bytes. -/
theorem no_stretch_missing_percent :
    ∃ d : Delimiters, d.left = ['%'] ∧ d.right = ['%'] ∧
      (Tag.find d.variableTag "é%a%b%c%".toList).map Found.span = [(2, 5), (6, 9)] ∧
      (∃ body, Text.cut? "é%a%b%c%".toList 6 9 = some (d.left ++ (body ++ d.right))) ∧
      (Blocks.brackets d "é%block a%b%endblock%".toList).map Bracket.span = [(2, 22)] ∧
      (Text.cut? "é%block a%b%endblock%".toList 2 22).isSome ∧
      expandLoops? d (fun body _ => some body) "%a%b%/a%".toList [] =
        some (expandLoops d (fun body _ => body) "%a%b%/a%".toList []) := by
  let d : Delimiters := ⟨['%'], ['%'], by decide, by decide⟩
  obtain ⟨hfind, hloops, -, hblocks, -⟩ := no_stretch_missing d
  obtain ⟨-, hcut⟩ := hfind Variable d.variableTag .variableTag "é%a%b%c%".toList
  have htags : Tag.find d.variableTag "é%a%b%c%".toList =
      [⟨2, 5, ⟨['a'], none⟩, by decide⟩, ⟨6, 9, ⟨['c'], none⟩, by decide⟩] := rfl
  have hbrackets : Blocks.brackets d "é%block a%b%endblock%".toList =
      [⟨⟨2, 11, "a", by decide⟩, 12, 22⟩] := by
    have hopening : Tag.find d.blockOpening "é%block a%b%endblock%".toList =
        [⟨2, 11, "a", by decide⟩] := rfl
    have hedges : Tag.Edge.edges (d.blockOpening.map fun _ => ()) d.blockClosing () 10
        "b%endblock%".toList = [.closing ⟨11, "%endblock%".toList, (), by decide⟩] := by
      have hopenings : Tag.scanFrom (d.blockOpening.map fun _ => ()) 10 0 "b%endblock%".toList =
          [] := rfl
      have hclosings : Tag.scanFrom d.blockClosing 10 0 "b%endblock%".toList =
          [⟨11, "%endblock%".toList, (), by decide⟩] := rfl
      rw [Tag.Edge.edges, hopenings, hclosings]
      simp
    have hclosing : Tag.closingSpan? (d.blockOpening.map fun _ => ()) d.blockClosing ()
        "é%block a%b%endblock%".toList 11 = some (12, 22) := by
      have hclose : Tag.closing? (d.blockOpening.map fun _ => ()) d.blockClosing ()
          "é%block a%b%endblock%".toList 10 = some ⟨11, "%endblock%".toList, (), by decide⟩ :=
        congrArg (Tag.Edge.unmatched? 0) hedges
      have hpos : Text.indexOfOffset? "é%block a%b%endblock%".toList 11 = some 10 := rfl
      rw [Tag.closingSpan?, hpos, Option.bind_some, hclose]
      rfl
    rw [Blocks.brackets, hopening, Bracket.outermost, if_neg (by decide), hclosing]
    rfl
  refine ⟨d, rfl, rfl, by rw [htags]; rfl, ?_, by rw [hbrackets]; rfl, ?_, ?_⟩
  · exact (hcut ⟨6, 9, ⟨['c'], none⟩, by decide⟩ (by rw [htags]; simp)).2
  · exact (hblocks "é%block a%b%endblock%".toList ⟨⟨2, 11, "a", by decide⟩, 12, 22⟩
      (by rw [hbrackets]; simp)).1
  · exact hloops (fun body _ => body) "%a%b%/a%".toList []

end Stencil
