import Stencil.Proofs.Composition.Step

/-!
# Visits

A composition that succeeds visits one template after the other: it loads each, puts its protected
regions aside, makes its includes, and then resolves its blocks or visits its base. A visit is known
by what the blocks of the template are held against and by its text.

A render ends with the conditionals of the document: its draft is the text in front of that.
-/

namespace Stencil

namespace Engine

variable {α β : Type} {e : Engine} {disk : Disk} {ctx : Context} {fuel : Nat} {ancestry : Ancestry}
  {definitions : Blocks} {name : String} {t : Text} {p p' : Progress}

/-! ## What succeeds -/

theorem andThen_ok (a : α) (p : Progress) (next : α → Progress → Composed β) :
    andThen (.ok a, p) next = next a p := rfl

theorem andThen_error (stop : Stop Error) (p : Progress) (next : α → Progress → Composed β) :
    andThen (.error stop, p) next = (.error stop, p) := rfl

theorem andThen_eq_ok {x : Composed α} {next : α → Progress → Composed β} {b : β}
    (h : andThen x next = (.ok b, p')) : ∃ a p, x = (.ok a, p) ∧ next a p = (.ok b, p') := by
  obtain ⟨r, p⟩ := x
  cases r with
  | error err => exact absurd h (by simp [andThen])
  | ok a => exact ⟨a, p, rfl, h⟩

theorem runAll_cons_eq_ok {visit : α → Composing β} {x : α} {xs : List α} {ys : List β}
    (h : runAll visit (x :: xs) p = (.ok ys, p')) :
    ∃ y q ys', visit x p = (.ok y, q) ∧ runAll visit xs q = (.ok ys', p') ∧ ys = y :: ys' := by
  obtain ⟨y, q, hvisit, h⟩ := andThen_eq_ok h
  obtain ⟨ys', q', hrest, h⟩ := andThen_eq_ok h
  simp only [Prod.mk.injEq, Except.ok.injEq] at h
  obtain ⟨rfl, rfl⟩ := h
  exact ⟨y, q, ys', hvisit, hrest, rfl⟩

theorem request_eq_ok (h : e.request disk name p = (.ok t, p')) :
    ∃ source, Loader.loadFirst disk e.allLoaders name = .ok source ∧
      t = (ProtectedRegions.extract e.delimiters p.regions source).1 ∧
      p'.regions = (ProtectedRegions.extract e.delimiters p.regions source).2 := by
  rw [request_run] at h
  cases hload : Loader.loadFirst disk e.allLoaders name with
  | error err => rw [hload] at h; exact absurd (Prod.mk.inj h).1 (by simp)
  | ok source =>
    rw [hload] at h
    obtain ⟨ht, rfl⟩ := Prod.mk.inj h
    exact ⟨source, rfl, (Except.ok.inj ht).symm, rfl⟩

theorem includeTemplate_eq_ok {tag : Tag String} {edit : Edit}
    (h : e.includeTemplate disk ctx fuel ancestry tag p = (.ok edit, p')) :
    ∃ included, e.compose disk ctx fuel ancestry [] tag.content p = (.ok included, p') ∧
      edit = ⟨tag.start, tag.stop, e.process ctx false included⟩ := by
  unfold includeTemplate at h
  rw [bind_run] at h
  obtain ⟨included, q, hcompose, h⟩ := andThen_eq_ok h
  obtain ⟨hedit, rfl⟩ := Prod.mk.inj h
  exact ⟨included, hcompose, (Except.ok.inj hedit).symm⟩

theorem compose_eq_ok
    (h : e.compose disk ctx (fuel + 1) ancestry definitions name p = (.ok t, p')) :
    name ∉ ancestry ∧ ∃ text q edits q', e.request disk name p = (.ok text, q) ∧
      runAll (e.includeTemplate disk ctx fuel (ancestry ++ [name]))
        (Tag.scan e.delimiters.includeTag text)
        q = (.ok edits, q') ∧
      e.finish disk ctx fuel (ancestry ++ [name]) definitions (text.splice edits) q' =
        (.ok t, p') := by
  rw [compose_succ] at h
  by_cases hname : name ∈ ancestry
  · rw [if_pos hname] at h
    exact absurd (Prod.mk.inj h).1 (by simp)
  · rw [if_neg hname] at h
    obtain ⟨text, q, hrequest, h⟩ := andThen_eq_ok h
    obtain ⟨edits, q', hincludes, h⟩ := andThen_eq_ok h
    exact ⟨hname, text, q, edits, q', hrequest, hincludes, h⟩

/-- Puts a composed base into a text without its blocks. -/
def placeBase (d : Delimiters) (rest base : Text) : Text :=
  match (Tag.scan d.baseTag rest).head? with
  | some t => rest.splice [⟨t.start, t.stop, base⟩]
  | none => rest ++ base

theorem finish_eq_ok {text : Text}
    (h : e.finish disk ctx fuel ancestry definitions text p = (.ok t, p')) :
    (t = definitions.resolve e.delimiters [] text ∧ p' = p) ∨
      ∃ tag base, (Tag.scan e.delimiters.baseTag text).head? = some tag ∧
        e.compose disk ctx fuel ancestry (Blocks.collect e.delimiters text definitions)
          tag.content p = (.ok base, p') ∧
        t = placeBase e.delimiters (Blocks.strip e.delimiters text) base := by
  unfold finish at h
  split at h
  · obtain ⟨ht, rfl⟩ := Prod.mk.inj h
    exact .inl ⟨(Except.ok.inj ht).symm, rfl⟩
  · rename_i tag htag
    obtain ⟨base, q, hbase, h⟩ := andThen_eq_ok h
    refine .inr ⟨tag, base, htag, ?_⟩
    dsimp only at h
    cases hinner : (Tag.scan e.delimiters.baseTag (Blocks.strip e.delimiters text)).head? with
    | some inner =>
      rw [hinner] at h
      obtain ⟨ht, rfl⟩ := Prod.mk.inj h
      rw [placeBase, hinner]
      exact ⟨hbase, (Except.ok.inj ht).symm⟩
    | none =>
      rw [hinner] at h
      obtain ⟨ht, rfl⟩ := Prod.mk.inj h
      rw [placeBase, hinner]
      exact ⟨hbase, (Except.ok.inj ht).symm⟩

end Engine

/-! ## Visits -/

/-- A template that is visited in the course of a composition. -/
structure Visit where
  /-- Its name. -/
  name : String
  /-- The number of regions put aside before its own. -/
  count : Nat
  /-- The definitions of more derived templates. -/
  definitions : Blocks
  /-- Its text, with its regions put aside and its includes made. -/
  text : Text

namespace Engine

variable {e : Engine} {disk : Disk} {ctx : Context}

/-- The visits that a composition makes: its own, and those of the templates it includes and of its
base. -/
inductive Visits (e : Engine) (disk : Disk) (ctx : Context) :
    (fuel : Nat) → Ancestry → Blocks → String → Progress → Visit → Prop where
  /-- The template itself. -/
  | here {fuel : Nat} {ancestry : Ancestry} {definitions : Blocks} {name : String}
      {p q q' : Progress}
      {text : Text} {edits : List Edit} (request : e.request disk name p = (.ok text, q))
      (includes : runAll (e.includeTemplate disk ctx fuel (ancestry ++ [name]))
        (Tag.scan e.delimiters.includeTag text) q = (.ok edits, q')) :
      Visits e disk ctx (fuel + 1) ancestry definitions name p
        ⟨name, p.regions.length, definitions, text.splice edits⟩
  /-- A template that is included, behind those in front of it. -/
  | included {fuel : Nat} {ancestry : Ancestry} {definitions : Blocks} {name : String}
      {p q q' : Progress} {text : Text} {front back : List (Tag String)} {tag : Tag String}
      {edits : List Edit} {v : Visit} (request : e.request disk name p = (.ok text, q))
      (tags : Tag.scan e.delimiters.includeTag text = front ++ tag :: back)
      (before : runAll (e.includeTemplate disk ctx fuel (ancestry ++ [name])) front q =
      (.ok edits, q'))
      (visit : Visits e disk ctx fuel (ancestry ++ [name]) [] tag.content q' v) :
      Visits e disk ctx (fuel + 1) ancestry definitions name p v
  /-- The base. -/
  | base {fuel : Nat} {ancestry : Ancestry} {definitions : Blocks} {name : String}
      {p q q' : Progress}
      {text : Text} {edits : List Edit} {tag : Tag String} {v : Visit}
      (request : e.request disk name p = (.ok text, q))
      (includes : runAll (e.includeTemplate disk ctx fuel (ancestry ++ [name]))
        (Tag.scan e.delimiters.includeTag text) q = (.ok edits, q'))
      (tagged : (Tag.scan e.delimiters.baseTag (text.splice edits)).head? = some tag)
      (visit : Visits e disk ctx fuel (ancestry ++ [name])
        (Blocks.collect e.delimiters (text.splice edits) definitions) tag.content q' v) :
      Visits e disk ctx (fuel + 1) ancestry definitions name p v

/-- What is true of all visits of included templates is true of those of each, in its turn. -/
theorem forall_included {Good : Tag String → Progress → Prop} {visit : Tag String → Composing Edit}
    {tag : Tag String} {rest : List (Tag String)} {edit : Edit} {p q : Progress}
    (hvisit : visit tag p = (.ok edit, q))
    (h : ∀ front t back edits q, tag :: rest = front ++ t :: back →
    runAll visit front p = (.ok edits, q) → Good t q) :
    Good tag p ∧ ∀ front t back edits q', rest = front ++ t :: back →
      runAll visit front q = (.ok edits, q') → Good t q' := by
  refine ⟨h [] tag rest [] p rfl rfl, fun front t back edits q' hrest hrun => ?_⟩
  refine h (tag :: front) t back (edit :: edits) q' (by rw [hrest]; rfl) ?_
  simp only [runAll, hvisit, hrun, andThen]

/-! ## Drafts -/

/-- A text after its loops and its variables, in front of its conditionals. -/
def drafted (e : Engine) (ctx : Context) (s : Text) : Text :=
  e.substitution.apply (expandLoops e.delimiters e.renderBody s ctx) ctx

/-- The draft of a render: the document in front of its conditionals, and the regions put aside. -/
def draft (e : Engine) (disk : Disk) (name : String) (ctx : Context) :
    Except Error (Text × ProtectedRegions) :=
  match e.compose disk ctx (e.depthBound disk) [] [] name {} with
  | (.ok composed, p) => .ok (e.drafted ctx composed, p.regions)
  | (.error stop, _) => .error (reason name stop)

/-- A render resolves the conditionals of its draft and puts the regions back. -/
theorem renderFresh_draft (hplugins : e.plugins = []) (name : String) (ctx : Context) :
    (e.renderFresh disk name ctx).1 = (e.draft disk name ctx).map fun x =>
      x.2.restore (resolveConditionals e.delimiters ctx x.1) := by
  unfold draft
  cases h : e.compose disk ctx (e.depthBound disk) [] [] name {} with
  | mk r p =>
    cases r with
    | error stop => rw [renderFresh_error h]; rfl
    | ok composed => rw [renderFresh_ok h, process_eq hplugins]; rfl

theorem renderFresh_eq_ok (hplugins : e.plugins = []) {name : String} {ctx : Context}
    {output : Text} (h : (e.renderFresh disk name ctx).1 = .ok output) :
    ∃ text regions, e.draft disk name ctx = .ok (text, regions) ∧
      output = ProtectedRegions.restore regions (resolveConditionals e.delimiters ctx text) := by
  rw [renderFresh_draft hplugins] at h
  cases hdraft : e.draft disk name ctx with
  | error err => rw [hdraft] at h; exact absurd h (by simp [Except.map])
  | ok x =>
    rw [hdraft] at h
    exact ⟨x.1, x.2, rfl, (Except.ok.inj h).symm⟩

/-- What a render gives has just been rendered, or is kept. -/
theorem fresh_or_kept {σ : Type} {store : CacheStore σ} {s : σ} {name : String} {ctx : Context}
    {output : Text} (h : (e.render disk store s name ctx).outcome = .ok output) :
    (e.renderFresh disk name (e.effectiveContext ctx)).1 = .ok output ∨
      ∃ key, e.key? name (e.effectiveContext ctx) = some key ∧
      store.lookup? s key = some output := by
  rw [render_eq] at h
  split at h
  · exact absurd h (by simp)
  dsimp only at h
  split at h
  · exact .inl h
  · rename_i key hkey
    split at h
    · rename_i content hcontent
      obtain rfl := Except.ok.inj h
      exact .inr ⟨key, hkey, hcontent⟩
    · split at h
      · rename_i content requests hrender
        obtain rfl := Except.ok.inj h
        exact .inl (congrArg Prod.fst hrender)
      · exact absurd h (by simp)

end Engine

end Stencil
