import Mathlib.Algebra.BigOperators.Group.List.Basic
import Mathlib.Algebra.Ring.Nat
import Stencil.Proofs.Composition.Step
import Stencil.Proofs.Dict

/-!
# How deep composition goes

An engine can load no more different sources than its loaders hold, and composition goes deeper than
that before it is cut off. Templates inside each other have different names; so where there are no
more names than the bound on the depth allows, composition never gets to the bound.
-/

namespace Stencil

/-- The text of a file; none if it is no text, and for a directory. -/
def Node.text? : Node → Option Text
  | .file bytes => (String.fromUTF8? bytes).map String.toList
  | .directory => none

/-- A text has no more characters than bytes. -/
theorem length_le_size {bytes : ByteArray} {s : Text} (h : (Node.file bytes).text? = some s) :
    s.length ≤ bytes.size := by
  have hencode : ∀ cs : List Char, cs.length ≤ cs.utf8Encode.size := by
    intro cs
    induction cs with
    | nil => exact Nat.zero_le _
    | cons c cs ih =>
      have hone : [c].utf8Encode.size = c.utf8Size := by
        rw [List.utf8Encode_singleton, List.size_toByteArray, String.length_utf8EncodeChar]
      have := c.utf8Size_pos
      rw [List.utf8Encode_cons, ByteArray.size_append, List.length_cons]
      omega
  obtain ⟨text, htext, rfl⟩ := Option.map_eq_some_iff.mp h
  unfold String.fromUTF8? at htext
  split at htext
  · obtain rfl := Option.some.inj htext
    refine Nat.le_trans (hencode _) (Nat.le_of_eq ?_)
    rw [String.utf8Encode_toList]
    rfl
  · exact absurd htext (by simp)

namespace Disk

/-- The texts of the files. -/
def texts (disk : Disk) : List Text := disk.nodes.filterMap (·.2.text?)

variable {disk : Disk}

theorem mem_texts {path : FilePath} {s : Text} (h : disk.readText? path = some s) :
    s ∈ disk.texts := by
  have hnode : ∀ {place : Place} {bytes : ByteArray}, disk.get? place = some (.file bytes) →
      (place, Node.file bytes) ∈ disk.nodes := by
    intro place bytes hget
    rw [get?] at hget
    split at hget
    · exact absurd hget (by simp)
    · obtain ⟨front, back, hnodes, -⟩ := List.lookup_eq_some_iff.mp hget
      rw [hnodes]
      simp
  unfold readText? read at h
  cases hplace : disk.locate path with
  | error fault => simp [hplace, bind, Except.bind] at h
  | ok place =>
    simp only [hplace, bind, Except.bind] at h
    cases hget : disk.get? place with
    | none => simp [hget, throw, throwThe, MonadExceptOf.throw] at h
    | some node =>
      cases node with
      | directory => simp [hget, throw, throwThe, MonadExceptOf.throw] at h
      | file bytes =>
        simp only [hget, pure, Except.pure] at h
        exact List.mem_filterMap.mpr ⟨(place, .file bytes), hnode hget, h⟩

/-- The characters of all files, one more for each, are no more than what they take. -/
theorem sum_texts (disk : Disk) : (disk.texts.map (·.length + 1)).sum ≤ disk.size := by
  have hgrow : ∀ (nodes : List (Place × Node)) n,
      n + ((nodes.filterMap (·.2.text?)).map (·.length + 1)).sum ≤
        nodes.foldl (fun n x => match x.2 with
          | .file bytes => n + bytes.size + 1
          | .directory => n) n := by
    intro nodes
    induction nodes with
    | nil => exact fun n => Nat.le_refl n
    | cons x nodes ih =>
      intro n
      obtain ⟨place, node⟩ := x
      cases node with
      | directory => exact ih n
      | file bytes =>
        have := ih (n + bytes.size + 1)
        rw [List.foldl_cons, List.filterMap_cons]
        dsimp only
        cases htext : (Node.file bytes).text? with
        | none =>
          dsimp only
          omega
        | some s =>
          have := length_le_size htext
          rw [List.map_cons, List.sum_cons]
          omega
  have := hgrow disk.nodes 0
  rw [Nat.zero_add] at this
  exact this

end Disk

namespace Loader

variable {disk : Disk}

/-- The sources that a loader holds. -/
def texts (disk : Disk) : Loader → List Text
  | .memory sources => sources.map (·.2)
  | .directories _ _ => disk.texts

theorem mem_texts {loader : Loader} {name : String} {s : Text} (h : loader.load disk name = .ok s) :
    s ∈ loader.texts disk := by
  cases loader with
  | memory sources =>
    rw [load] at h
    cases hget : sources.get? name with
    | none => simp [hget] at h
    | some source =>
      rw [hget] at h
      obtain rfl := Except.ok.inj h
      exact List.mem_map.mpr ⟨(name, source), Dict.mem_of_get? hget, rfl⟩
  | directories dirs extension? =>
    rw [load] at h
    split at h
    · exact absurd h (by simp)
    · split at h
      · exact absurd h (by simp)
      · rename_i path _
        cases hread : disk.readText? path with
        | none => simp [hread] at h
        | some source =>
          rw [hread] at h
          exact Except.ok.inj h ▸ Disk.mem_texts hread

theorem length_texts (disk : Disk) (loader : Loader) :
    (loader.texts disk).length ≤ loader.capacity disk := by
  cases loader with
  | memory sources => simp [texts, capacity]
  | directories dirs extension? =>
    have hone : disk.texts.length ≤ (disk.texts.map (·.length + 1)).sum := by
      have := List.length_le_sum_of_one_le (disk.texts.map (·.length + 1)) (by simp)
      rwa [List.length_map] at this
    exact Nat.le_trans hone disk.sum_texts

/-- The names of the sources that a loader holds in memory. -/
def names : Loader → List String
  | .memory sources => sources.keys
  | .directories _ _ => []

/-- The sources that a loader holds in files. -/
def files (disk : Disk) : Loader → List Text
  | .memory _ => []
  | .directories _ _ => disk.texts

/-- A name in memory takes one, and a file as much as it has characters, and one more. -/
theorem length_names_add (disk : Disk) (loader : Loader) :
    loader.names.length + ((loader.files disk).map (·.length + 1)).sum ≤ loader.capacity disk := by
  cases loader with
  | memory sources => simp [names, files, capacity, Dict.keys]
  | directories dirs extension? =>
    have := disk.sum_texts
    simp only [names, files, capacity, List.length_nil]
    omega

theorem mem_names_or_mem_files {loader : Loader} {name : String} {s : Text}
    (h : loader.load disk name = .ok s) : name ∈ loader.names ∨ s ∈ loader.files disk := by
  cases loader with
  | memory sources =>
    rw [load] at h
    cases hget : sources.get? name with
    | none => simp [hget] at h
    | some source => exact .inl (List.mem_map.mpr ⟨(name, source), Dict.mem_of_get? hget, rfl⟩)
  | directories dirs extension? => exact .inr (mem_texts h)

/-- What is loaded is loaded by one of the loaders. -/
theorem exists_load {loaders : List Loader} {name : String} {s : Text}
    (h : loadFirst disk loaders name = .ok s) :
    ∃ loader ∈ loaders, loader.load disk name = .ok s := by
  induction loaders with
  | nil => simp [loadFirst] at h
  | cons loader loaders ih =>
    rw [loadFirst] at h
    cases hload : loader.load disk name with
    | ok source =>
      rw [hload] at h
      exact ⟨loader, by simp, h ▸ hload⟩
    | error err =>
      rw [hload] at h
      dsimp only at h
      split at h
      · obtain ⟨other, hmem, hother⟩ := ih h
        exact ⟨other, by simp [hmem], hother⟩
      · exact absurd h (by simp)

end Loader

namespace Engine

variable {e : Engine} {disk : Disk}

/-- What no loader has more of than its capacity takes no more than composition can go deep. -/
theorem sum_lt_depthBound (e : Engine) {disk : Disk} {f : Loader → Nat}
    (h : ∀ loader, f loader ≤ loader.capacity disk) :
    (e.allLoaders.map f).sum + 1 < e.depthBound disk := by
  have hgrow : ∀ (loaders : List Loader) n, n + (loaders.map f).sum ≤
      loaders.foldl (fun n loader => n + loader.capacity disk) n := by
    intro loaders
    induction loaders with
    | nil => exact fun n => Nat.le_refl n
    | cons loader loaders ih =>
      intro n
      have hloader := h loader
      have := ih (n + loader.capacity disk)
      rw [List.foldl_cons, List.map_cons, List.sum_cons]
      omega
  have := hgrow e.allLoaders 2
  rw [depthBound]
  omega

/-- Different sources are fewer than composition can go deep. -/
theorem length_lt_depthBound (e : Engine) (disk : Disk) {texts : List Text}
    (hnodup : texts.Nodup)
    (h : ∀ s ∈ texts, ∃ name, Loader.loadFirst disk e.allLoaders name = .ok s) :
    texts.length < e.depthBound disk := by
  have hsubset : texts ⊆ e.allLoaders.flatMap (Loader.texts disk) := by
    intro s hs
    obtain ⟨name, hname⟩ := h s hs
    obtain ⟨loader, hmem, hload⟩ := Loader.exists_load hname
    exact List.mem_flatMap.mpr ⟨loader, hmem, Loader.mem_texts hload⟩
  have hlength := hnodup.length_le_of_subset hsubset
  have := e.sum_lt_depthBound (Loader.length_texts disk)
  rw [List.length_flatMap] at hlength
  omega

/-- The names in memory and the characters in files, one more for each file, take no more than
composition can go deep. -/
theorem length_names_add_lt_depthBound (e : Engine) (disk : Disk) :
    (e.allLoaders.flatMap Loader.names).length +
      ((e.allLoaders.flatMap (Loader.files disk)).map (·.length + 1)).sum + 1 <
        e.depthBound disk := by
  have hbound := e.sum_lt_depthBound (Loader.length_names_add disk)
  have hsum : ∀ loaders : List Loader,
      (loaders.flatMap Loader.names).length +
        ((loaders.flatMap (Loader.files disk)).map (·.length + 1)).sum =
      (loaders.map fun loader => loader.names.length +
        ((loader.files disk).map (·.length + 1)).sum).sum := by
    intro loaders
    induction loaders with
    | nil => rfl
    | cons loader loaders ih =>
      simp only [List.flatMap_cons, List.length_append, List.map_append, List.sum_append,
        List.map_cons, List.sum_cons]
      omega
  rw [hsum]
  exact hbound

end Engine

/-! ## Names that have not been entered -/

namespace Ancestry

/-- How many names of a list have not been entered. -/
def remaining (names : List String) (path : Ancestry) : Nat := names.countP (· ∉ path)

variable {names : List String} {path : Ancestry} {name : String}

theorem remaining_le (names : List String) (path : Ancestry) :
    remaining names path ≤ names.length :=
  List.countP_le_length

theorem remaining_concat_le (names : List String) (path : Ancestry) (name : String) :
    remaining names (path ++ [name]) ≤ remaining names path := by
  refine List.countP_mono_left fun other _ h => ?_
  simp only [List.mem_append, not_or, decide_eq_true_eq] at h ⊢
  exact h.1

/-- Entering a name of the list leaves fewer. -/
theorem remaining_concat_lt (hname : name ∈ names) (hpath : name ∉ path) :
    remaining names (path ++ [name]) < remaining names path := by
  obtain ⟨front, back, rfl⟩ := List.append_of_mem hname
  have hfront := remaining_concat_le front path name
  have hback := remaining_concat_le back path name
  unfold remaining at hfront hback ⊢
  rw [List.countP_append, List.countP_append, List.countP_cons_of_neg (by simp),
    List.countP_cons_of_pos (by simpa using hpath)]
  omega

end Ancestry

namespace Engine

open Ancestry

variable {e : Engine} {disk : Disk} {ctx : Context}

/-- Where only the names of a list can be loaded, composition does not run out of fuel that is more
than those that have not been entered: templates inside each other have different names. -/
theorem compose_ne_outOfFuel {names : List String}
    (hnames : ∀ name s, Loader.loadFirst disk e.allLoaders name = .ok s → name ∈ names) {fuel : Nat}
    {ancestry : Ancestry} (hfuel : remaining names ancestry < fuel) (definitions : Blocks)
    (name : String) (p : Progress) :
    (e.compose disk ctx fuel ancestry definitions name p).1 ≠ .error .outOfFuel := by
  have hstops : StopsWith (· ≠ .outOfFuel)
      (e.compose disk ctx fuel ancestry definitions name p) := by
    induction fuel generalizing ancestry definitions name p with
    | zero => omega
    | succ fuel ih =>
      refine StopsWith.compose (by simp) (by simp) (fun source hname hload => ?_) definitions p
      -- Composition enters no name twice, so each level of it uses up one name and one of the fuel.
      have hlt := remaining_concat_lt (hnames name source hload) hname
      exact ih (by omega)
  exact fun h => hstops _ h rfl

/-- With sources in memory only, composition can go deeper than there are names. -/
theorem remaining_keys_lt_depthBound (hloaders : e.loaders = []) (disk : Disk) :
    remaining e.sources.keys [] < e.depthBound disk := by
  have hkeys := remaining_le e.sources.keys []
  have hbound := e.sum_lt_depthBound (Loader.length_names_add disk)
  simp only [allLoaders, hloaders, List.map_cons, List.map_nil, List.sum_cons, List.sum_nil,
    Loader.names, Loader.files] at hbound
  omega

/-- With sources in memory only, the bound on the depth of composition is no limit. -/
theorem compose_depthBound_ne_outOfFuel (hloaders : e.loaders = []) (definitions : Blocks)
    (name : String) (p : Progress) :
    (e.compose disk ctx (e.depthBound disk) [] definitions name p).1 ≠ .error .outOfFuel := by
  refine compose_ne_outOfFuel (fun name s hload => ?_) (remaining_keys_lt_depthBound hloaders disk)
    definitions name p
  obtain ⟨loader, hmem, hload⟩ := Loader.exists_load hload
  rw [allLoaders, hloaders, List.mem_singleton] at hmem
  subst hmem
  exact (Loader.mem_names_or_mem_files hload).resolve_right (by simp [Loader.files])

end Engine

end Stencil
