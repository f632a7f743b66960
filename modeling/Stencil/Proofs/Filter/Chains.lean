import Stencil.Filter.Builtin
import Stencil.Proofs.Text.Pieces

/-!
# Chains of filters

A chain is a row of stages, so putting a bar between two chains runs one after the other, and a
stage that hands on the value it was given may as well not be there. A stage is written as its name,
and behind a colon its parameters separated by commas; a row of written stages reads back as it was,
empty parameters included.
-/

namespace Stencil.Filter

open Text (StartsSolid EndsSolid trim_eq_self_iff)

/-! ## Running -/

namespace Registry

variable {r : Registry} {v : Value} {s : Stage}

theorem run_append (r : Registry) (v : Value) (front back : Chain) :
    r.run v (front ++ back) = r.run (r.run v front) back :=
  List.foldl_append

/-- A stage hands on what its filter makes of the value. -/
theorem stage_eq {filter : Filter} {w : Value} (h : r.get? s.name = some filter)
    (hw : filter v s.params = .ok w) : r.stage v s = w := by
  unfold stage apply
  rw [h]
  simp only [hw]

/-- The stage hands on the value it is given: its filter is not there, or fails. -/
def Idle (r : Registry) (v : Value) (s : Stage) : Prop :=
  r.get? s.name = none ∨ ∃ filter e, r.get? s.name = some filter ∧ filter v s.params = .error e

theorem Idle.stage_eq (h : r.Idle v s) : r.stage v s = v := by
  unfold stage apply
  rcases h with h | ⟨filter, e, h, herror⟩
  · rw [h]
  · rw [h]
    simp only [herror]

/-- A stage that hands on the value that reaches it may be left out. -/
theorem run_of_idle {front : Chain} (h : r.Idle (r.run v front) s) (back : Chain) :
    r.run v (front ++ s :: back) = r.run v (front ++ back) := by
  rw [run_append, run_append]
  show r.run (r.stage (r.run v front) s) back = _
  rw [h.stage_eq]

end Registry

/-! ## Writing -/

namespace Stage

/-- The stage as it is written. -/
def text (s : Stage) : Text :=
  match s.params with
  | [] => s.name.toList
  | params => s.name.toList ++ ':' :: [','].intercalate (params.map String.toList)

/-- The stage can be written: blanks at the ends of names and parameters would be trimmed, and
separators in them would end them. -/
structure Writable (s : Stage) : Prop where
  /-- A stage has a name. -/
  name_ne : s.name ≠ ""
  /-- The name has no blanks around it. -/
  name_trimmed : Text.trim s.name.toList = s.name.toList
  /-- A bar would end the stage. -/
  name_bar : '|' ∉ s.name.toList
  /-- A colon would end the name. -/
  name_colon : ':' ∉ s.name.toList
  /-- The parameters have no blanks around them. -/
  params_trimmed : ∀ p ∈ s.params, Text.trim p.toList = p.toList
  /-- A bar would end the stage. -/
  params_bar : ∀ p ∈ s.params, '|' ∉ p.toList
  /-- A comma would end the parameter. -/
  params_comma : ∀ p ∈ s.params, ',' ∉ p.toList

variable {s : Stage}

theorem Writable.toList_ne_nil (h : s.Writable) : s.name.toList ≠ [] := by
  intro hnil
  exact h.name_ne (String.toList_inj.mp hnil)

theorem text_of_params_nil (h : s.params = []) : s.text = s.name.toList := by
  unfold text
  rw [h]

theorem text_of_params {p : String} {rest : List String} (h : s.params = p :: rest) :
    s.text = s.name.toList ++ ':' :: [','].intercalate (s.params.map String.toList) := by
  unfold text
  rw [h]

/-- Joined parameters end in no blank, since none of them does. -/
theorem endsSolid_intercalate {params : List Text} (h : ∀ p ∈ params, EndsSolid p) :
    EndsSolid ([','].intercalate params) := by
  induction params with
  | nil => exact fun c hc => nomatch hc
  | cons p rest ih =>
    obtain ⟨hp, hrest⟩ := List.forall_mem_cons.mp h
    cases rest with
    | nil => simpa [List.intercalate] using hp
    | cons q rest =>
      have hjoin : [','].intercalate (p :: q :: rest) =
          p ++ ([','] ++ [','].intercalate (q :: rest)) := by
        simp [List.intercalate]
      rw [hjoin]
      exact hp.append ((Text.endsSolid_singleton (by decide)).append (ih hrest))

theorem mem_intercalate {c sep : Char} {params : List Text} (h : c ∈ [sep].intercalate params) :
    c = sep ∨ ∃ p ∈ params, c ∈ p := by
  induction params with
  | nil => cases h
  | cons p rest ih =>
    cases rest with
    | nil => exact .inr ⟨p, List.mem_cons_self, by simpa [List.intercalate] using h⟩
    | cons q rest =>
      have hjoin : [sep].intercalate (p :: q :: rest) =
          p ++ sep :: [sep].intercalate (q :: rest) := by
        simp [List.intercalate]
      rw [hjoin, List.mem_append, List.mem_cons] at h
      rcases h with h | h | h
      · exact .inr ⟨p, List.mem_cons_self, h⟩
      · exact .inl h
      · rcases ih h with h | ⟨w, hw, hc⟩
        · exact .inl h
        · exact .inr ⟨w, List.mem_cons_of_mem p hw, hc⟩

theorem Writable.trim_text (h : s.Writable) : Text.trim s.text = s.text := by
  obtain ⟨hstart, hend⟩ := trim_eq_self_iff.mp h.name_trimmed
  cases hp : s.params with
  | nil =>
    rw [text_of_params_nil hp, h.name_trimmed]
  | cons p rest =>
    rw [text_of_params hp, trim_eq_self_iff]
    refine ⟨hstart.append h.toList_ne_nil _, hend.append ?_⟩
    have hparams : EndsSolid ([','].intercalate (s.params.map String.toList)) := by
      refine endsSolid_intercalate fun w hw => ?_
      obtain ⟨q, hq, rfl⟩ := List.mem_map.mp hw
      exact (trim_eq_self_iff.mp (h.params_trimmed q hq)).2
    exact (Text.endsSolid_singleton (c := ':') (by decide)).append hparams

theorem Writable.bar_not_mem_text (h : s.Writable) : '|' ∉ s.text := by
  intro hbar
  cases hp : s.params with
  | nil =>
    rw [text_of_params_nil hp] at hbar
    exact h.name_bar hbar
  | cons p rest =>
    rw [text_of_params hp, List.mem_append, List.mem_cons] at hbar
    rcases hbar with hbar | hbar | hbar
    · exact h.name_bar hbar
    · exact absurd hbar (by decide)
    · rcases mem_intercalate hbar with hbar | ⟨w, hw, hbar⟩
      · exact absurd hbar (by decide)
      · obtain ⟨q, hq, rfl⟩ := List.mem_map.mp hw
        exact h.params_bar q hq hbar

/-- A stage reads back. -/
theorem Writable.parse?_text (h : s.Writable) : parse? s.text = some s := by
  have hempty : s.text.isEmpty = false := by
    cases hp : s.params <;> simp [text, hp, h.name_ne]
  unfold parse?
  simp only [h.trim_text, hempty, Bool.false_eq_true, if_false]
  cases hp : s.params with
  | nil =>
    rw [text_of_params_nil hp, Text.splitOnce?_eq_none h.name_colon]
    simp only [String.ofList_toList, ← hp]
  | cons p rest =>
    have hsplit : Text.splitOnce? ':' s.text =
        some (s.name.toList, [','].intercalate (s.params.map String.toList)) :=
      Text.splitOnce?_eq_some.mpr ⟨text_of_params hp, h.name_colon⟩
    have hpieces : Text.splitOn ',' ([','].intercalate (s.params.map String.toList)) =
        s.params.map String.toList := by
      refine Text.splitOn_intercalate (by simp [hp]) fun w hw => ?_
      obtain ⟨q, hq, rfl⟩ := List.mem_map.mp hw
      exact h.params_comma q hq
    have hparams : (s.params.map String.toList).map (fun p => String.ofList (Text.trim p)) =
        s.params := by
      rw [List.map_map]
      conv => rhs; rw [← List.map_id s.params]
      refine List.map_congr_left fun q hq => ?_
      show String.ofList (Text.trim q.toList) = q
      rw [h.params_trimmed q hq, String.ofList_toList]
    simp only [hsplit, hpieces, hparams, h.name_trimmed, String.ofList_toList]

end Stage

namespace Chain

/-- A bar between two chains puts their stages in one row. -/
theorem parse_append_bar (a b : Text) : parse (a ++ '|' :: b) = parse a ++ parse b := by
  rw [parse, Text.splitOn_append_cons, List.filterMap_append]
  rfl

/-- The chain as it is written. -/
def text (chain : Chain) : Text := ['|'].intercalate (chain.map Stage.text)

/-- A chain reads back. -/
theorem parse_text_of_writable {chain : Chain} (h : ∀ s ∈ chain, s.Writable) :
    parse chain.text = chain := by
  by_cases hnil : chain = []
  · subst hnil
    rfl
  have hsplit : Text.splitOn '|' chain.text = chain.map Stage.text := by
    refine Text.splitOn_intercalate (by simpa using hnil) ?_
    intro p hp
    obtain ⟨s, hs, rfl⟩ := List.mem_map.mp hp
    exact (h s hs).bar_not_mem_text
  rw [parse, hsplit, List.filterMap_map]
  conv => rhs; rw [← List.filterMap_some (l := chain)]
  refine List.filterMap_congr fun s hs => ?_
  exact (h s hs).parse?_text

end Chain

/-- **Chains compose and degrade stage by stage.** A bar between two chains runs one on the result
of the other; a stage whose filter is not there, or fails on the value that reaches it, may be left
out; and a written chain reads back as it was. -/
theorem chains_compose (r : Registry) (v : Value) {chain : Chain} (h : ∀ s ∈ chain, s.Writable) :
    (∀ a b : Text, r.run v (Chain.parse (a ++ '|' :: b)) =
      r.run (r.run v (Chain.parse a)) (Chain.parse b)) ∧
    (∀ (front back : Chain) (s : Stage),
      (r.get? s.name = none ∨ ∃ filter e, r.get? s.name = some filter ∧
        filter (r.run v front) s.params = .error e) →
      r.run v (front ++ s :: back) = r.run v (front ++ back)) ∧
    Chain.parse chain.text = chain := by
  refine ⟨fun a b => ?_, fun front back s hs => Registry.run_of_idle hs back,
    Chain.parse_text_of_writable h⟩
  rw [Chain.parse_append_bar, Registry.run_append]

/-- A chain with an empty parameter, a colon within a parameter and a filter that is not there, and
a filter that fails for lack of a parameter. -/
theorem chains_compose_gaps :
    let chain : Chain := [⟨"default", [""]⟩, ⟨"nope", []⟩, ⟨"date", ["H:i", "", "x"]⟩]
    (∀ s ∈ chain, s.Writable) ∧ Chain.parse chain.text = chain ∧
    Registry.builtin.run (.str "x") ([⟨"upper", []⟩] ++ ⟨"limit_chars", []⟩ :: chain) =
      Registry.builtin.run (.str "x") ([⟨"upper", []⟩] ++ chain) := by
  intro chain
  have h : ∀ s ∈ chain, s.Writable := by
    intro s hs
    simp only [chain, List.mem_cons, List.not_mem_nil, or_false] at hs
    rcases hs with rfl | rfl | rfl <;> constructor <;> decide
  obtain ⟨-, hidle, hread⟩ := chains_compose Registry.builtin (.str "x") h
  exact ⟨h, hread, hidle _ _ _ (.inr ⟨limitChars, _, rfl, rfl⟩)⟩

end Stencil.Filter
