import Mathlib.Data.List.Nodup
import Stencil.Proofs.Disk.Ways

/-!
# Removing files

Every place has one entry, and writing, making directories and removing keep it so. Then the entries
of a directory are what is found behind it. Removing entries leaves all others, and as long as no
directory is removed, every way to a directory stays open.
-/

namespace Stencil

namespace Disk

variable {disk disk' : Disk} {place target goal : Place} {name : Text} {node : Node}
  {pieces : List Text} {places : List Place}

/-! ## One entry for each place -/

/-- Every place has one entry. -/
def PlacesUnique (disk : Disk) : Prop := (disk.nodes.map (·.1)).Nodup

instance (disk : Disk) : Decidable disk.PlacesUnique := inferInstanceAs (Decidable (List.Nodup _))

theorem PlacesUnique.erase (h : disk.PlacesUnique) (target : Place) :
    (disk.erase target).PlacesUnique :=
  h.sublist (List.filter_sublist.map _)

theorem PlacesUnique.set (h : disk.PlacesUnique) (target : Place) (node : Node) :
    (disk.set target node).PlacesUnique := by
  refine List.nodup_cons.mpr ⟨fun hmem => ?_, h.erase target⟩
  obtain ⟨x, hx, heq⟩ := List.mem_map.mp hmem
  simpa [heq] using List.of_mem_filter hx

theorem PlacesUnique.makeWay (h : disk.PlacesUnique)
    (hmade : disk.makeWay place pieces = .ok disk') :
    disk'.PlacesUnique := by
  induction pieces generalizing disk place with
  | nil =>
    rw [Disk.makeWay] at hmade
    split at hmade
    · obtain rfl := Except.ok.inj hmade
      exact h
    · cases hmade
  | cons piece pieces ih =>
    rcases leads_or_lacks disk place piece with ⟨next, hnext⟩ | hlacks | ⟨fault, hfault⟩
    · exact ih h (hnext.makeWay_eq ▸ hmade)
    · exact ih (h.set _ _) (hlacks.makeWay_eq ▸ hmade)
    · rw [(hfault pieces).2] at hmade
      cases hmade

theorem PlacesUnique.get?_eq_some_iff (h : disk.PlacesUnique) (hplace : place ≠ []) :
    disk.get? place = some node ↔ (place, node) ∈ disk.nodes := by
  have hnonempty : ¬ place.isEmpty = true := by simpa using hplace
  unfold PlacesUnique at h
  rw [get?, if_neg hnonempty]
  generalize disk.nodes = nodes at h ⊢
  induction nodes with
  | nil => simp
  | cons x nodes ih =>
    obtain ⟨p, n⟩ := x
    obtain ⟨hp, h⟩ := List.nodup_cons.mp h
    rw [List.lookup_cons, List.mem_cons]
    by_cases heq : place = p
    · subst heq
      have hnone : (place, node) ∉ nodes := fun hmem => hp (List.mem_map.mpr ⟨_, hmem, rfl⟩)
      simp [hnone, eq_comm]
    · rw [beq_eq_false_iff_ne.mpr heq]
      simpa [heq] using ih h

/-- The entries of a directory are what is found behind it. -/
theorem PlacesUnique.mem_entries (h : disk.PlacesUnique) :
    (name, node) ∈ disk.entries place ↔ disk.get? (place ++ [name]) = some node := by
  rw [h.get?_eq_some_iff (by simp), entries, List.mem_filterMap]
  constructor
  · rintro ⟨⟨other, n⟩, hmem, hentry⟩
    dsimp only at hentry
    split at hentry
    · rename_i last hlast
      split at hentry
      · rename_i hfront
        obtain ⟨rfl, rfl⟩ := Prod.mk.inj (Option.some.inj hentry)
        obtain ⟨front, rfl⟩ := List.getLast?_eq_some_iff.mp hlast
        rw [List.dropLast_concat] at hfront
        rwa [hfront] at hmem
      · cases hentry
    · cases hentry
  · intro hmem
    exact ⟨_, hmem, by simp⟩

/-- Each entry of a directory is the entry of its place. -/
theorem entries_sublist (disk : Disk) (place : Place) :
    List.Sublist ((disk.entries place).map fun x => place ++ [x.1]) (disk.nodes.map (·.1)) := by
  rw [entries]
  induction disk.nodes with
  | nil => exact .slnil
  | cons x nodes ih =>
    obtain ⟨other, n⟩ := x
    rw [List.filterMap_cons, List.map_cons]
    dsimp only
    split
    · rename_i hnone
      exact ih.cons _
    · rename_i entry hentry
      split at hentry
      · rename_i last hlast
        split at hentry
        · rename_i hfront
          obtain rfl := Option.some.inj hentry
          obtain ⟨front, rfl⟩ := List.getLast?_eq_some_iff.mp hlast
          rw [List.dropLast_concat] at hfront
          rw [List.map_cons, hfront]
          exact ih.cons_cons _
        · cases hentry
      · cases hentry

/-! ## Removing entries -/

theorem get?_erase (disk : Disk) (target other : Place) (ht : target ≠ []) :
    (disk.erase target).get? other = if other = target then none else disk.get? other := by
  by_cases hother : other = []
  · subst hother
    rw [if_neg (Ne.symm ht)]
    rfl
  · have hnonempty : ¬ other.isEmpty = true := by simpa using hother
    rw [get?, get?, if_neg hnonempty, if_neg hnonempty, erase]
    by_cases heq : other = target
    · subst heq
      rw [if_pos rfl, List.lookup_eq_none_iff]
      intro x hx
      have hne : x.1 ≠ other := by simpa using List.of_mem_filter hx
      exact bne_iff_ne.mpr hne.symm
    · rw [if_neg heq]
      exact lookup_filter_ne heq disk.nodes

/-- Removes some entries. -/
def eraseAll (disk : Disk) (places : List Place) : Disk := places.foldl erase disk

theorem get?_eraseAll (hplaces : ∀ p ∈ places, p ≠ []) (disk : Disk) (other : Place) :
    (disk.eraseAll places).get? other = if other ∈ places then none else disk.get? other := by
  induction places generalizing disk with
  | nil => rfl
  | cons target places ih =>
    obtain ⟨ht, hplaces⟩ := List.forall_mem_cons.mp hplaces
    refine (ih hplaces (disk.erase target)).trans ?_
    rw [get?_erase _ _ _ ht]
    by_cases heq : other = target
    · simp [heq]
    · simp [heq]

theorem PlacesUnique.eraseAll (h : disk.PlacesUnique) (places : List Place) :
    (disk.eraseAll places).PlacesUnique := by
  induction places generalizing disk with
  | nil => exact h
  | cons target places ih => exact ih (h.erase target)

theorem eraseAll_customs (disk : Disk) (places : List Place) :
    (disk.eraseAll places).workingPlace = disk.workingPlace ∧
      (disk.eraseAll places).nameLimit? = disk.nameLimit? := by
  induction places generalizing disk with
  | nil => exact ⟨rfl, rfl⟩
  | cons target places ih => exact ih (disk.erase target)

end Disk

end Stencil
