import Stencil.Proofs.Json.Members
import Stencil.Toml.Document

/-!
# The keys of TOML documents

A statement stores what it says under a key that is free, or in the place of what is there. So a
document that is read has no key twice, in no table of it, and neither has a value on the way.
-/

namespace Stencil.Toml

open Json (KeysOnce)

variable {v : Json} {s rest : Text}

/-- What is read has no key twice. -/
def ReadsOnce (o : Option (Json × Text)) : Prop := ∀ v rest, o = some (v, rest) → v.KeysOnce

theorem ReadsOnce.bind {α : Type} {o : Option α} {f : α → Option (Json × Text)}
    (h : ∀ x, ReadsOnce (f x)) : ReadsOnce (o.bind f) := by
  intro v rest hread
  obtain ⟨x, -, hx⟩ := Option.bind_eq_some_iff.mp hread
  exact h x v rest hx

theorem ReadsOnce.read (h : v.KeysOnce) (rest : Text) : ReadsOnce (some (v, rest)) := by
  rintro _ _ ⟨⟩
  exact h

/-- A value with what stands behind it. -/
theorem ReadsOnce.of_value {o : Option Json} (h : ∀ v, o = some v → v.KeysOnce) (rest : Text) :
    ReadsOnce (o.bind fun v => some (v, rest)) := by
  intro v rest' hread
  obtain ⟨w, hw, hv⟩ := Option.bind_eq_some_iff.mp hread
  cases hv
  exact h _ hw

/-! ## Scalars -/

theorem keysOnce_integer? {negative : Bool} {base : Nat} {digits : Text} (v : Json)
    (h : integer? negative base digits = some v) : v.KeysOnce := by
  obtain ⟨n, -, h⟩ := Option.bind_eq_some_iff.mp h
  extract_lets m at h
  split at h
  · cases h
    trivial
  · cases h

theorem keysOnce_float? (v : Json) (h : float? s = some v) : v.KeysOnce := by
  obtain ⟨f, -, h⟩ := Option.bind_eq_some_iff.mp h
  split at h
  · cases h
  split at h
  · cases h
    trivial
  · cases h
    trivial

theorem readsOnce_readDecimal (s : Text) : ReadsOnce (readDecimal s) := by
  have hfloat (t rest : Text) : ReadsOnce ((float? t).bind fun f => some (f, rest)) :=
    .of_value keysOnce_float? rest
  unfold readDecimal
  simp only [Option.bind_eq_bind, Option.pure_def]
  split <;> refine .bind fun whole => ?_ <;> split
  all_goals
    first
    | exact .of_value keysOnce_integer? _
    | exact .bind fun exponent => hfloat _ _
    | refine .bind fun fraction => ?_
      split <;> exact .bind fun exponent => hfloat _ _

theorem readsOnce_readNumber (s : Text) : ReadsOnce (readNumber s) := by
  have hbased (base : Nat) (s : Text) : ReadsOnce (readBased base s) :=
    .bind fun _ => .of_value keysOnce_integer? _
  unfold readNumber
  split
  · exact hbased 16 _
  · exact hbased 8 _
  · exact hbased 2 _
  split
  · exact .read (by trivial) _
  · exact .read (by trivial) _
  · exact readsOnce_readDecimal s

theorem readsOnce_readScalar (s : Text) : ReadsOnce (readScalar s) := by
  have hstring (o : Option (Text × Text)) :
      ReadsOnce (o.map fun p => (.str (String.ofList p.1), p.2)) := by
    intro v rest h
    obtain ⟨_, -, h⟩ := Option.map_eq_some_iff.mp h
    cases h
    trivial
  unfold readScalar
  split
  · exact hstring _
  · exact hstring _
  · exact .read (by trivial) _
  · exact .read (by trivial) _
  split
  · exact .read (by trivial) _
  · exact readsOnce_readNumber s

/-! ## Tables -/

variable {entries entries' : Entries} {item : Item} {key : String}

theorem entriesToJson_eq_map (entries : Entries) :
    entriesToJson entries = entries.map fun x => (x.1, x.2.toJson) := by
  induction entries with
  | nil => rfl
  | cons x entries ih =>
    obtain ⟨k, item⟩ := x
    rw [entriesToJson, ih, List.map_cons]

theorem tablesToJson_eq_map (tables : List Entries) :
    tablesToJson tables = tables.map fun entries => .obj (entriesToJson entries) := by
  induction tables with
  | nil => rfl
  | cons entries tables ih => rw [tablesToJson, ih, List.map_cons]

/-- No key is twice in a table, or in anything that the table holds. -/
def Entries.KeysOnce (entries : Entries) : Prop := (Json.obj (entriesToJson entries)).KeysOnce

theorem Entries.keysOnce_iff :
    entries.KeysOnce ↔ Dict.KeysUnique entries ∧ ∀ x ∈ entries, x.2.toJson.KeysOnce := by
  have hkeys : Dict.keys (entriesToJson entries) = Dict.keys entries := by
    rw [entriesToJson_eq_map, Dict.keys, List.map_map]
    rfl
  rw [KeysOnce, Json.KeysOnce, Json.membersKeysOnce_iff, Dict.KeysUnique, hkeys,
    entriesToJson_eq_map, List.forall_mem_map]
  rfl

theorem Entries.keysOnce_nil : Entries.KeysOnce [] :=
  Entries.keysOnce_iff.mpr ⟨List.nodup_nil, List.forall_mem_nil _⟩

theorem Entries.KeysOnce.get? (h : entries.KeysOnce) (hget : Dict.get? entries key = some item) :
    item.toJson.KeysOnce :=
  (Entries.keysOnce_iff.mp h).2 _ (Dict.mem_of_get? hget)

theorem Entries.KeysOnce.set (h : entries.KeysOnce) (hitem : item.toJson.KeysOnce) :
    Entries.KeysOnce (Dict.set entries key item) := by
  obtain ⟨hunique, hentries⟩ := Entries.keysOnce_iff.mp h
  refine Entries.keysOnce_iff.mpr ⟨hunique.set key item, fun x hx => ?_⟩
  rcases Dict.mem_set hx with rfl | hx
  · exact hitem
  · exact hentries x hx

theorem keysOnce_tables {tables : List Entries} :
    (Item.tables tables).toJson.KeysOnce ↔ ∀ entries ∈ tables, entries.KeysOnce := by
  rw [Item.toJson, Json.KeysOnce, tablesToJson_eq_map, Json.itemsKeysOnce_iff, List.forall_mem_map]
  rfl

/-- A change that keeps keys apart keeps them apart wherever it is made. -/
theorem Entries.KeysOnce.update {forAssignment : Bool} {change : Bool → Entries → Option Entries}
    (hchange : ∀ dotted {entries entries'}, Entries.KeysOnce entries →
      change dotted entries = some entries' → Entries.KeysOnce entries')
    {path : List String} {dotted : Bool} (h : entries.KeysOnce)
    (hupdate : Entries.update forAssignment change path dotted entries = some entries') :
    entries'.KeysOnce := by
  induction path generalizing dotted entries entries' with
  | nil => exact hchange dotted h hupdate
  | cons key path ih =>
    -- what is under the key is changed further in and put back: a new table, a table that is
    -- there, or the last of several tables
    rw [Entries.update] at hupdate
    split at hupdate
    · obtain ⟨inner, hinner, rfl⟩ := Option.map_eq_some_iff.mp hupdate
      exact h.set (ih Entries.keysOnce_nil hinner)
    · cases hupdate
    · rename_i implicit dotted inner hget
      split at hupdate
      · cases hupdate
      · obtain ⟨inner', hinner, rfl⟩ := Option.map_eq_some_iff.mp hupdate
        exact h.set (ih (h.get? hget) hinner)
    · rename_i tables hget
      split at hupdate
      · cases hupdate
      · rename_i last hlast
        obtain ⟨inner, hinner, rfl⟩ := Option.map_eq_some_iff.mp hupdate
        have htables := h.get? hget
        rw [keysOnce_tables] at htables
        refine h.set (keysOnce_tables.mpr fun table htable => ?_)
        rcases List.mem_append.mp htable with hfront | hinner'
        · exact htables table ((List.dropLast_sublist tables).mem hfront)
        · rw [List.mem_singleton.mp hinner']
          exact ih (htables last (List.mem_of_getLast? hlast)) hinner

/-- An assignment keeps keys apart. -/
theorem Entries.KeysOnce.assign {path : List String} (h : entries.KeysOnce) (hv : v.KeysOnce)
    (hassign : entries.assign path key v = some entries') : entries'.KeysOnce := by
  refine h.update (fun dotted {entries entries'} h hchange => ?_) hassign
  split at hchange
  · cases hchange
  · cases hchange
    exact h.set hv

theorem Entries.KeysOnce.assignIn {place path : List String} (h : entries.KeysOnce)
    (hv : v.KeysOnce) (hassign : entries.assignIn place path key v = some entries') :
    entries'.KeysOnce :=
  h.update (fun _ {_ _} h hchange => h.assign hv hchange) hassign

/-- So does opening a table. -/
theorem Entries.KeysOnce.openTable {path : List String} (h : entries.KeysOnce)
    (hopen : entries.openTable path key = some entries') : entries'.KeysOnce := by
  refine h.update (fun dotted {entries entries'} h hchange => ?_) hopen
  split at hchange
  · cases hchange
    exact h.set Entries.keysOnce_nil
  · rename_i inner hget
    cases hchange
    have hinner : (Json.obj (entriesToJson inner)).KeysOnce := h.get? hget
    exact h.set hinner
  · cases hchange

theorem Entries.KeysOnce.openNext {path : List String} (h : entries.KeysOnce)
    (hopen : entries.openNext path key = some entries') : entries'.KeysOnce := by
  refine h.update (fun dotted {entries entries'} h hchange => ?_) hopen
  split at hchange
  · cases hchange
    exact h.set (keysOnce_tables.mpr (by simpa using Entries.keysOnce_nil))
  · rename_i tables hget
    cases hchange
    have htables := keysOnce_tables.mp (h.get? hget)
    refine h.set (keysOnce_tables.mpr fun table htable => ?_)
    rcases List.mem_append.mp htable with htable | hnew
    · exact htables table htable
    · rw [List.mem_singleton.mp hnew]
      exact Entries.keysOnce_nil
  · cases hchange

/-! ## Values -/

theorem keysOnce_readItems {item : Text → Option (Json × Text)} (hitem : ∀ s, ReadsOnce (item s))
    {fuel : Nat} {items : List Json} (h : readItems item fuel s = some (items, rest)) :
    ∀ v ∈ items, v.KeysOnce := by
  induction fuel generalizing s items with
  | zero => cases h
  | succ fuel ih =>
    rw [readItems] at h
    split at h
    · cases h
      exact List.forall_mem_nil _
    split at h
    · cases h
    rename_i hv
    split at h
    · obtain ⟨⟨items, _⟩, hrest, h⟩ := Option.map_eq_some_iff.mp h
      cases h
      exact List.forall_mem_cons.mpr ⟨hitem _ _ _ hv, ih hrest⟩
    · cases h
      exact List.forall_mem_singleton.mpr (hitem _ _ _ hv)
    · cases h

theorem keysOnce_readInline {item : Text → Option (Json × Text)} (hitem : ∀ s, ReadsOnce (item s))
    {fuel : Nat} (hentries : entries.KeysOnce)
    (h : readInline item fuel entries s = some (entries', rest)) : entries'.KeysOnce := by
  induction fuel generalizing s entries with
  | zero => cases h
  | succ fuel ih =>
    rw [readInline] at h
    simp only [Option.bind_eq_bind, Option.bind_eq_some_iff, Prod.exists] at h
    obtain ⟨parts, _, -, _, -, v, _, hv, entries₁, hassign, h⟩ := h
    have hentries₁ : entries₁.KeysOnce := hentries.assign (hitem _ _ _ hv) hassign
    split at h
    · exact ih hentries₁ h
    · cases h
      exact hentries₁
    · cases h

/-- A value that is read has no key twice. -/
theorem readsOnce_readValue (d : Nat) (s : Text) : ReadsOnce (readValue d s) := by
  induction d generalizing s with
  | zero =>
    intro v rest h
    unfold readValue at h
    split at h
    · cases h
    · cases h
    · exact readsOnce_readScalar _ v rest h
  | succ d ih =>
    intro v rest h
    unfold readValue at h
    split at h
    · obtain ⟨⟨items, _⟩, hitems, h⟩ := Option.map_eq_some_iff.mp h
      cases h
      exact Json.itemsKeysOnce_iff.mpr (keysOnce_readItems ih hitems)
    · dsimp only at h
      split at h
      · cases h
        exact Entries.keysOnce_nil
      · obtain ⟨⟨entries, _⟩, hentries, h⟩ := Option.map_eq_some_iff.mp h
        cases h
        exact keysOnce_readInline ih Entries.keysOnce_nil hentries
    · exact readsOnce_readScalar _ v rest h

/-! ## Documents -/

/-- A statement keeps the keys of a draft apart. -/
theorem keysOnce_readStatement {draft draft' : Draft} (hdraft : draft.entries.KeysOnce)
    (h : readStatement draft s = some (draft', rest)) : draft'.entries.KeysOnce := by
  unfold readStatement at h
  split at h
  · simp only [Option.bind_eq_bind, Option.bind_eq_some_iff, Prod.exists] at h
    obtain ⟨parts, _, -, _, -, entries, hopen, _, -, h⟩ := h
    cases h
    exact hdraft.openNext hopen
  · simp only [Option.bind_eq_bind, Option.bind_eq_some_iff, Prod.exists] at h
    obtain ⟨parts, _, -, _, -, entries, hopen, _, -, h⟩ := h
    cases h
    exact hdraft.openTable hopen
  · simp only [Option.bind_eq_bind, Option.bind_eq_some_iff, Prod.exists] at h
    obtain ⟨parts, _, -, _, -, v, _, hv, entries, hassign, _, -, h⟩ := h
    cases h
    exact hdraft.assignIn (readsOnce_readValue _ _ _ _ hv) hassign

theorem keysOnce_readStatements {fuel : Nat} {draft : Draft} (hdraft : draft.entries.KeysOnce)
    (h : readStatements fuel draft s = some entries) : entries.KeysOnce := by
  induction fuel generalizing draft s with
  | zero => cases h
  | succ fuel ih =>
    rw [readStatements] at h
    split at h
    · cases h
      exact hdraft
    · obtain ⟨_, -, h⟩ := Option.bind_eq_some_iff.mp h
      exact ih hdraft h
    split at h
    · exact ih hdraft h
    · obtain ⟨⟨draft, _⟩, hstatement, h⟩ := Option.bind_eq_some_iff.mp h
      exact ih (keysOnce_readStatement hdraft hstatement) h

/-- **A document has no key twice**, in no table of it. -/
theorem keysOnce_parse? (h : parse? s = some v) : v.KeysOnce := by
  obtain ⟨entries, hentries, rfl⟩ := Option.map_eq_some_iff.mp h
  have hempty : (⟨[], []⟩ : Draft).entries.KeysOnce := Entries.keysOnce_nil
  exact keysOnce_readStatements hempty hentries

end Stencil.Toml
