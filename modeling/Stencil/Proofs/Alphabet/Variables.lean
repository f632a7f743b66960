import Stencil.Proofs.Alphabet.Filters

/-!
# How variable tags spell

A chain of filters may hold placeholders: between its bars, in the name of a stage, or in a
parameter. No filter has a name with a placeholder in it, so such a stage hands on what it is given;
every other stage has whole parameters. What takes the place of a variable tag is then spelled if
the values of the context are.
-/

namespace Stencil

open ProtectedRegions

/-- A registry whose filters refuse what is not admitted, as if they were not there. -/
def Filter.Registry.restrict (r : Registry) (admits : String → Value → List String → Bool) :
    Registry :=
  r.map fun (name, filter) => (name, fun v params =>
    if admits name v params then filter v params else .error (.unknown name))

namespace Alphabet

variable {A : Alphabet} {s t u : Text} {v w : Value} {c : Char} {r : Filter.Registry}

/-! ## Registries -/

/-- The filters of a registry keep values spelled, and have no openers in their names. -/
def Suits (A : Alphabet) (r : Filter.Registry) : Prop :=
  ∀ x ∈ r, opener ∉ x.1.toList ∧ ∀ {v params w}, A.SpellsValue v →
    (∀ p ∈ params, A.Spelled p.toList) → x.2 v params = .ok w → A.SpellsValue w

/-- Filters suit an alphabet if they keep the values that are admitted to them. -/
theorem suits_restrict {admits : String → Value → List String → Bool}
    (hr : ∀ x ∈ r, opener ∉ x.1.toList ∧ ∀ {v params w}, A.SpellsValue v →
      (∀ p ∈ params, A.Spelled p.toList) → admits x.1 v params = true → x.2 v params = .ok w →
      A.SpellsValue w) : A.Suits (r.restrict admits) := by
  intro x hx
  obtain ⟨⟨name, f⟩, hf, rfl⟩ := List.mem_map.mp hx
  obtain ⟨hname, hkeeps⟩ := hr _ hf
  refine ⟨hname, fun hv hparams hw => ?_⟩
  dsimp only at hw
  split at hw
  · rename_i hadmitted
    exact hkeeps hv hparams hadmitted hw
  · exact absurd hw (by simp)

theorem opener_not_mem_builtin {x : String × Filter} (hx : x ∈ Filter.Registry.builtin) :
    opener ∉ x.1.toList := by
  have hnames : ∀ name ∈ Filter.Registry.builtin.keys, opener ∉ name.toList := by decide
  exact hnames x.1 (List.mem_map_of_mem hx)

/-! ## Chains -/

/-- A spelled text may be cut at any character but an opener, unless there is an opener in front. -/
theorem Spelled.cut_or_opener (h : A.Spelled (u ++ c :: t)) (hc : c ≠ opener) :
    opener ∈ u ∨ A.Spelled u ∧ A.Spelled t := by
  generalize hs : u ++ c :: t = s at h
  induction h generalizing u with
  | nil => exact absurd hs (by simp)
  | @glyph x s hx hrest ih =>
    cases u with
    | nil =>
      obtain ⟨rfl, rfl⟩ := List.cons.inj hs
      exact .inr ⟨.nil, hrest⟩
    | cons y u =>
      obtain ⟨rfl, htail⟩ := List.cons.inj hs
      rcases ih htail with h | ⟨hu, ht⟩
      · exact .inl (List.mem_cons_of_mem _ h)
      · exact .inr ⟨.glyph hx hu, ht⟩
  | @shelved n s hn hrest ih =>
    cases u with
    | nil => exact absurd (List.cons.inj hs).1 hc
    | cons y u =>
      obtain ⟨rfl, -⟩ := List.cons.inj hs
      exact .inl (by simp)

theorem mem_trim {s : Text} {c : Char} (hc : c ∈ s) (hblank : isBlank c = false) : c ∈ s.trim := by
  have hdrop : ∀ {w : Text}, c ∈ w → c ∈ w.dropWhile isBlank := by
    intro w hw
    rw [← List.takeWhile_append_dropWhile (p := isBlank) (l := w), List.mem_append] at hw
    rcases hw with hw | hw
    · exact absurd (List.mem_takeWhile_imp hw) (by simp [hblank])
    · exact hw
  exact List.mem_reverse.mpr (hdrop (List.mem_reverse.mpr (hdrop hc)))

/-- A stage has whole parameters, or no filter has its name. -/
def Whole (A : Alphabet) (stage : Filter.Stage) : Prop :=
  opener ∈ stage.name.toList ∨ ∀ p ∈ stage.params, A.Spelled p.toList

theorem whole_of_parse? {stage : Filter.Stage} (h : A.Spelled s)
    (hstage : Filter.Stage.parse? s = some stage) : A.Whole stage := by
  unfold Filter.Stage.parse? at hstage
  dsimp only at hstage
  split at hstage
  · exact absurd hstage (by simp)
  split at hstage
  · obtain rfl := Option.some.inj hstage
    exact .inr fun p hp => absurd hp (by simp)
  · rename_i name params hsplit
    obtain rfl := Option.some.inj hstage
    obtain ⟨heq, -⟩ := Text.splitOnce?_eq_some.mp hsplit
    rcases (heq ▸ h.trim).cut_or_opener (by decide) with hopener | ⟨-, hparams⟩
    · refine .inl ?_
      rw [String.toList_ofList]
      exact mem_trim hopener (by decide)
    · refine .inr fun p hp => ?_
      obtain ⟨piece, hpiece, rfl⟩ := List.mem_map.mp hp
      rw [String.toList_ofList]
      exact (hparams.splitOn (foreign_of_not_mem (by decide)) piece hpiece).trim

theorem whole_of_mem_chain {stage : Filter.Stage} (h : A.Spelled s)
    (hstage : stage ∈ Filter.Chain.parse s) : A.Whole stage := by
  obtain ⟨piece, hpiece, hparse⟩ := List.mem_filterMap.mp hstage
  exact whole_of_parse? (h.splitOn (foreign_of_not_mem (by decide)) piece hpiece) hparse

/-- A stage without a filter of its name hands on what it is given. -/
theorem SpellsValue.stage (hr : A.Suits r) (hv : A.SpellsValue v) {stage : Filter.Stage}
    (hstage : A.Whole stage) : A.SpellsValue (r.stage v stage) := by
  unfold Filter.Registry.stage Filter.Registry.apply
  cases hget : r.get? stage.name with
  | none => exact hv  -- the parameters need not be whole
  | some f =>
    obtain ⟨hname, hkeeps⟩ := hr (stage.name, f) (Dict.mem_of_get? hget)
    dsimp only
    split
    · rename_i w hw
      rcases hstage with hopener | hparams
      · exact absurd hopener hname
      · exact hkeeps hv hparams hw
    · exact hv

theorem SpellsValue.run (hr : A.Suits r) (hv : A.SpellsValue v) {chain : Filter.Chain}
    (hchain : ∀ stage ∈ chain, A.Whole stage) : A.SpellsValue (r.run v chain) := by
  unfold Filter.Registry.run
  induction chain generalizing v with
  | nil => exact hv
  | cons stage chain ih =>
    obtain ⟨hstage, hchain⟩ := List.forall_mem_cons.mp hchain
    exact ih (hv.stage hr hstage) hchain

/-! ## Tags -/

variable {σ : Substitution} {ctx : Context} {d : Delimiters}

theorem spellsValue_filtered (hr : A.Suits σ.filters) (hv : A.SpellsValue v) {chain? : Option Text}
    (hchain : ∀ chain, chain? = some chain → A.Spelled chain) :
    A.SpellsValue (σ.filtered chain? v) := by
  unfold Substitution.filtered
  split
  · exact hv
  · rename_i chain
    split
    · exact hv
    · exact hv.run hr fun stage hstage => whole_of_mem_chain (hchain chain rfl) hstage

/-- What takes the place of a variable tag is spelled. -/
theorem spelled_text? (hr : A.Suits σ.filters) (hctx : A.SpellsContext ctx) {x : Variable}
    (hchain : ∀ chain, x.chain? = some chain → A.Spelled chain) (h : σ.text? ctx x = some t) :
    A.Spelled t := by
  unfold Substitution.text? at h
  split at h
  · exact absurd h (by simp)
  split at h
  · split at h
    · obtain rfl := Option.some.inj h
      exact (spellsValue_filtered hr .null hchain).text
    · exact absurd h (by simp)
  · rename_i v hv
    dsimp only at h
    split at h
    · obtain rfl := Option.some.inj h
      exact (spellsValue_filtered hr (hctx.resolve hv) hchain).text
    · exact absurd h (by simp)

/-- The chain of a variable tag is cut out of the text at the bar, at blanks and at the
delimiter. -/
theorem spelled_chain (hd : A.Spares d) (h : A.Spelled s) {tag : Tag Variable}
    (ht : Tag.Stands d.variableTag s tag) {chain : Text}
    (hchain : tag.content.chain? = some chain) :
    A.Spelled chain := by
  have hlexeme := spelled_lexeme hd d.encloses_variableTag h ht
  obtain ⟨start, lexeme, ⟨path, chain?⟩, hne⟩ := tag
  obtain rfl : chain? = some chain := hchain
  obtain ⟨front, g, g', hg, hg', rfl⟩ := Delimiters.variableTag_eq_some ht
  obtain ⟨-, -, hrest⟩ := hlexeme.around (foreign_of_not_mem (by decide))
  obtain ⟨-, hrest⟩ := hrest.drop_foreign fun c hc => foreign_of_isBlank (hg c hc)
  refine (hrest.before_foreign fun c hc => ?_).1
  rcases List.mem_append.mp hc with hc | hc
  · exact foreign_of_isBlank (hg' c hc)
  · exact hd c (List.mem_append_right _ hc)

/-- Replacing the variable tags of a text keeps it spelled. -/
theorem Spelled.substitute (hd : A.Spares σ.delimiters) (hr : A.Suits σ.filters)
    (hctx : A.SpellsContext ctx) (h : A.Spelled s) : A.Spelled (σ.apply s ctx) := by
  refine h.splice_map (Tag.ordered_scan _ _ _) fun tag htag => ?_
  have hstands := Tag.stands_of_mem_scan htag
  have htagged := σ.delimiters.encloses_variableTag
  refine ⟨⟨seam_start hd htagged h hstands, seam_stop hd htagged h hstands⟩, ?_⟩
  dsimp only
  cases htext : σ.text? ctx tag.content with
  | none => exact spelled_lexeme hd htagged h hstands
  | some t => exact spelled_text? hr hctx (fun chain hchain =>
      spelled_chain hd h hstands hchain) htext

end Alphabet

end Stencil
