import Stencil.Disk.Basic
import Stencil.Proofs.Disk.Steps

/-!
# Ways through the file system

A path is followed name by name, so a longer path is followed by going on from where a shorter one
leads. Making the directories of a path changes nothing where they are already there, and otherwise
only adds what was missing on the way. Writing a file in a directory leaves every way to it open,
since no way goes on behind a file.
-/

namespace Stencil

namespace Disk

open FilePath (isVoid IsName)

variable {disk disk' : Disk} {place next target goal : Place} {name piece : Text}
  {pieces rest : List Text}

/-! ## Entries -/

theorem lookup_filter_ne {other : Place} (hne : other ≠ target) (nodes : List (Place × Node)) :
    (nodes.filter (·.1 ≠ target)).lookup other = nodes.lookup other := by
  induction nodes with
  | nil => rfl
  | cons x nodes ih =>
    obtain ⟨p, n⟩ := x
    by_cases hp : p = target
    · subst hp
      rw [List.filter_cons_of_neg (by simp), ih, List.lookup_cons, beq_eq_false_iff_ne.mpr hne]
    · rw [List.filter_cons_of_pos (by simpa using hp), List.lookup_cons, List.lookup_cons, ih]

theorem get?_set (disk : Disk) (target other : Place) (node : Node) (ht : target ≠ []) :
    (disk.set target node).get? other = if other = target then some node else disk.get? other := by
  rw [get?, get?]
  by_cases hother : other = []
  · subst hother
    rw [if_neg (Ne.symm ht)]
    rfl
  · have hnonempty : ¬ other.isEmpty = true := by simpa using hother
    rw [if_neg hnonempty, if_neg hnonempty, set, List.lookup_cons]
    by_cases heq : other = target
    · simp [heq]
    · rw [if_neg heq, beq_eq_false_iff_ne.mpr heq, lookup_filter_ne heq]

theorem hasDirectory_iff : disk.hasDirectory place = true ↔ disk.get? place = some .directory := by
  rw [hasDirectory]
  rcases disk.get? place with _ | _ | _ <;> simp

theorem hasDirectory_eq_false_iff :
    disk.hasDirectory place = false ↔ disk.get? place ≠ some .directory := by
  rw [Bool.eq_false_iff, ne_eq, hasDirectory_iff]

/-! ## Following a path -/

theorem walk_append (disk : Disk) (place : Place) (pieces rest : List Text) :
    disk.walk place (pieces ++ rest) = (disk.walk place pieces).bind (disk.walk · rest) := by
  induction pieces generalizing place with
  | nil => rfl
  | cons piece pieces ih =>
    rw [List.cons_append, walk, walk]
    split
    · rfl
    split
    · exact ih place
    split
    · exact ih _
    split
    · rfl
    split
    · rfl
    · exact ih _

theorem walk_append_iff :
    disk.walk place (pieces ++ rest) = .ok goal ↔
      ∃ middle, disk.walk place pieces = .ok middle ∧ disk.walk middle rest = .ok goal := by
  rw [walk_append]
  cases disk.walk place pieces with
  | error e => simp [Except.bind]
  | ok middle => simp [Except.bind]

/-- A slash more or less in front of a name makes no difference. -/
theorem walk_void (disk : Disk) (place : Place) (name : Text) :
    disk.walk place [[], name] = disk.walk place [name] := by
  rw [walk]
  split
  · rename_i h
    rw [walk, if_pos h]
  · rfl

/-- The way to an entry of a directory leads through the directory. -/
theorem locate_join {dir : FilePath} (h : IsName name) :
    disk.locate (dir.join name) =
      (disk.walk (disk.origin dir) dir.pieces).bind (disk.walk · [name]) := by
  have horigin : disk.origin (dir.join name) = disk.origin dir := by
    rw [origin, origin, FilePath.isAbsolute_join dir h.not_isAbsolute]
  have hnonempty : ¬ List.isEmpty (dir.join name) = true := by
    simpa using FilePath.join_ne_nil dir h
  rw [locate, if_neg hnonempty, horigin]
  rcases FilePath.pieces_join dir h.not_isAbsolute with hp | ⟨front, hfront, hp⟩
  · rw [hp, h.pieces_eq, walk_append]
  · rw [hp, h.pieces_eq, hfront, ← walk_append, List.append_assoc, List.singleton_append,
      walk_append, walk_append]
    congr 1
    funext q
    exact (walk_void disk q name).symm

/-- Going on into an entry of a directory. -/
theorem walk_name (h : IsName name) (hlimit : disk.nameLimit? = none)
    (hplace : disk.hasDirectory place = true) :
    disk.walk place [name] =
      if (disk.get? (place ++ [name])).isNone then .error .notFound else .ok (place ++ [name]) := by
  have hadmits : disk.admits name = true := by rw [admits, hlimit]
  rw [walk, if_neg (by simp [hplace]), if_neg (by simp [h.void]), if_neg h.parent,
    if_neg (by simp [hadmits])]
  rfl

theorem read_of_locate {path : FilePath} {bytes : ByteArray} (h : disk.locate path = .ok place)
    (hfile : disk.get? place = some (.file bytes)) : disk.read path = .ok bytes := by
  simp only [read, h, bind, Except.bind, hfile]
  rfl

theorem read_of_locate_error {path : FilePath} {fault : Fault}
    (h : disk.locate path = .error fault) :
    disk.read path = .error fault := by
  simp only [read, h, bind, Except.bind]

/-- What one name of a path does where the way goes on. -/
inductive Leads (disk : Disk) (place : Place) (piece : Text) : Place → Prop
  /-- A name that says nothing stays. -/
  | stay (hplace : disk.hasDirectory place = true) (hvoid : isVoid piece = true) :
      Leads disk place piece place
  /-- Two points go up. -/
  | up (hplace : disk.hasDirectory place = true) (hvoid : ¬ isVoid piece = true)
      (hparent : piece = ['.', '.']) : Leads disk place piece place.dropLast
  /-- Any other name goes to an entry that is there. -/
  | enter (hplace : disk.hasDirectory place = true) (hvoid : ¬ isVoid piece = true)
      (hparent : piece ≠ ['.', '.']) (hadmits : disk.admits piece = true)
      (hentry : ¬ (disk.get? (place ++ [piece])).isNone = true) :
      Leads disk place piece (place ++ [piece])

theorem Leads.hasDirectory (h : disk.Leads place piece next) : disk.hasDirectory place = true := by
  cases h <;> assumption

/-- Past a name, a path is followed from where the name leads. -/
theorem Leads.walk_eq (h : disk.Leads place piece next) :
    disk.walk place (piece :: rest) = disk.walk next rest := by
  rw [walk, if_neg (by simp [h.hasDirectory])]
  cases h with
  | stay _ hvoid => rw [if_pos hvoid]
  | up _ hvoid hparent => rw [if_neg hvoid, if_pos hparent]
  | enter _ hvoid hparent hadmits hentry =>
    rw [if_neg hvoid, if_neg hparent, if_neg (by simp [hadmits]), if_neg hentry]

/-- Past a name that leads on, directories are made from where it leads. -/
theorem Leads.makeWay_eq (h : disk.Leads place piece next) :
    disk.makeWay place (piece :: rest) = disk.makeWay next rest := by
  rw [makeWay, if_neg (by simp [h.hasDirectory])]
  cases h with
  | stay _ hvoid => rw [if_pos hvoid]
  | up _ hvoid hparent => rw [if_neg hvoid, if_pos hparent]
  | enter _ hvoid hparent hadmits hentry =>
    rw [if_neg hvoid, if_neg hparent, if_neg (by simp [hadmits])]
    dsimp only
    rw [if_neg hentry]

/-- A name leads on where it led before, as long as the directory and the entry are there. -/
theorem Leads.transfer (h : disk.Leads place piece next) (hplace : disk'.hasDirectory place = true)
    (hlimit : disk'.nameLimit? = disk.nameLimit?)
    (hnext : ∀ node, disk.get? next = some node → (disk'.get? next).isSome = true) :
    disk'.Leads place piece next := by
  cases h with
  | stay _ hvoid => exact .stay hplace hvoid
  | up _ hvoid hparent => exact .up hplace hvoid hparent
  | enter _ hvoid hparent hadmits hentry =>
    obtain ⟨node, hnode⟩ := Option.ne_none_iff_exists'.mp (mt Option.isNone_iff_eq_none.mpr hentry)
    refine .enter hplace hvoid hparent (by rwa [admits, hlimit]) ?_
    rw [Option.isNone_iff_eq_none, ← ne_eq, Option.ne_none_iff_isSome]
    exact hnext node hnode

/-- The entry that a name should lead to is missing. -/
structure Lacks (disk : Disk) (place : Place) (piece : Text) : Prop where
  hasDirectory : disk.hasDirectory place = true
  void : ¬ isVoid piece = true
  parent : piece ≠ ['.', '.']
  admits : disk.admits piece = true
  missing : disk.get? (place ++ [piece]) = none

theorem Lacks.walk_eq (h : disk.Lacks place piece) :
    disk.walk place (piece :: rest) = .error .notFound := by
  rw [walk, if_neg (by simp [h.hasDirectory]), if_neg h.void, if_neg h.parent,
    if_neg (by simp [h.admits]), if_pos (by simp [h.missing])]

theorem Lacks.makeWay_eq (h : disk.Lacks place piece) :
    disk.makeWay place (piece :: rest) =
      (disk.set (place ++ [piece]) .directory).makeWay (place ++ [piece]) rest := by
  rw [makeWay, if_neg (by simp [h.hasDirectory]), if_neg h.void, if_neg h.parent,
    if_neg (by simp [h.admits])]
  dsimp only
  rw [if_pos (by simp [h.missing])]

/-- A name leads on, or its entry is missing, or it cannot be followed and nothing can be made. -/
theorem leads_or_lacks (disk : Disk) (place : Place) (piece : Text) :
    (∃ next, disk.Leads place piece next) ∨ disk.Lacks place piece ∨
      ∃ fault, ∀ rest, disk.walk place (piece :: rest) = .error fault ∧
        disk.makeWay place (piece :: rest) = .error fault := by
  by_cases hplace : disk.hasDirectory place = true
  swap
  · refine .inr (.inr ⟨.notADirectory, fun rest => ⟨?_, ?_⟩⟩)
    · rw [walk, if_pos (by simp [hplace])]
    · rw [makeWay, if_pos (by simp [hplace])]
  by_cases hvoid : isVoid piece = true
  · exact .inl ⟨_, .stay hplace hvoid⟩
  by_cases hparent : piece = ['.', '.']
  · exact .inl ⟨_, .up hplace hvoid hparent⟩
  by_cases hadmits : disk.admits piece = true
  swap
  · refine .inr (.inr ⟨.nameTooLong, fun rest => ⟨?_, ?_⟩⟩)
    · rw [walk, if_neg (by simp [hplace]), if_neg hvoid, if_neg hparent, if_pos (by simp [hadmits])]
    · rw [makeWay, if_neg (by simp [hplace]), if_neg hvoid, if_neg hparent,
        if_pos (by simp [hadmits])]
  by_cases hentry : (disk.get? (place ++ [piece])).isNone = true
  · exact .inr (.inl ⟨hplace, hvoid, hparent, hadmits, Option.isNone_iff_eq_none.mp hentry⟩)
  · exact .inl ⟨_, .enter hplace hvoid hparent hadmits hentry⟩

/-- A path leads somewhere when its first name leads on and the rest leads there. -/
theorem walk_cons_iff :
    disk.walk place (piece :: rest) = .ok goal ↔
      ∃ next, disk.Leads place piece next ∧ disk.walk next rest = .ok goal := by
  constructor
  · intro h
    rcases leads_or_lacks disk place piece with ⟨next, hnext⟩ | hlacks | ⟨fault, hfault⟩
    · exact ⟨next, hnext, hnext.walk_eq ▸ h⟩
    · rw [hlacks.walk_eq] at h
      cases h
    · rw [(hfault rest).1] at h
      cases h
  · rintro ⟨next, hnext, h⟩
    rw [hnext.walk_eq, h]

/-- A way to a directory leads through directories only, so it stays open where all of them stay. -/
theorem walk_of_directories (h : disk.walk place pieces = .ok goal)
    (hgoal : disk.hasDirectory goal = true) (hlimit : disk'.nameLimit? = disk.nameLimit?)
    (hstay : ∀ other, disk.hasDirectory other = true → disk'.hasDirectory other = true) :
    disk'.walk place pieces = .ok goal := by
  induction pieces generalizing place with
  | nil => exact h
  | cons piece pieces ih =>
    obtain ⟨next, hnext, h⟩ := walk_cons_iff.mp h
    -- the next place is the goal, or a directory that the way goes on from
    have hdirectory : disk.hasDirectory next = true := by
      cases pieces with
      | nil =>
        obtain rfl := Except.ok.inj h
        exact hgoal
      | cons piece' pieces =>
        obtain ⟨_, hleads, -⟩ := walk_cons_iff.mp h
        exact hleads.hasDirectory
    refine walk_cons_iff.mpr ⟨next, hnext.transfer (hstay _ hnext.hasDirectory) hlimit ?_, ih h⟩
    exact fun _ _ => Option.isSome_of_eq_some (hasDirectory_iff.mp (hstay _ hdirectory))

/-! ## Writing a file -/

section Written

variable {bytes : ByteArray} (ht : target ≠ []) (hfile : disk.hasDirectory target = false)

include ht hfile

/-- Directories stay where a file is written that is not in the place of one. -/
theorem hasDirectory_set_file {other : Place} (h : disk.hasDirectory other = true) :
    (disk.set target (.file bytes)).hasDirectory other = true := by
  have hne : other ≠ target := by
    rintro rfl
    rw [hfile] at h
    cases h
  rw [hasDirectory_iff, get?_set _ _ _ _ ht, if_neg hne, ← hasDirectory_iff]
  exact h

/-- No way goes on behind a file, so the ways to a directory stay when a file is written. -/
theorem walk_set_file (h : disk.walk place pieces = .ok goal)
    (hgoal : disk.hasDirectory goal = true) :
    (disk.set target (.file bytes)).walk place pieces = .ok goal :=
  walk_of_directories h hgoal rfl fun _ => hasDirectory_set_file ht hfile

end Written

/-! ## Making the directories of a path -/

/-- Nothing is made where the way is open. -/
theorem makeWay_of_walk (h : disk.walk place pieces = .ok goal)
    (hgoal : disk.hasDirectory goal = true) : disk.makeWay place pieces = .ok disk := by
  induction pieces generalizing place with
  | nil =>
    obtain rfl := Except.ok.inj h
    rw [makeWay, if_pos hgoal]
  | cons piece pieces ih =>
    obtain ⟨next, hnext, h⟩ := walk_cons_iff.mp h
    rw [hnext.makeWay_eq, ih h]

/-- Where directories can be made, the way is open or an entry is missing on it. -/
theorem walk_of_makeWay (h : disk.makeWay place pieces = .ok disk') :
    (∃ goal, disk.walk place pieces = .ok goal ∧ disk.hasDirectory goal = true) ∨
      disk.walk place pieces = .error .notFound := by
  induction pieces generalizing place with
  | nil =>
    rw [makeWay] at h
    split at h
    · exact .inl ⟨_, rfl, ‹_›⟩
    · cases h
  | cons piece pieces ih =>
    rcases leads_or_lacks disk place piece with ⟨next, hnext⟩ | hlacks | ⟨fault, hfault⟩
    · rw [hnext.makeWay_eq] at h
      rw [hnext.walk_eq]
      exact ih h
    · exact .inr hlacks.walk_eq
    · rw [(hfault pieces).2] at h
      cases h

/-- A disk that has all the entries of another, and the same customs. -/
structure Grows (disk disk' : Disk) : Prop where
  /-- Relative paths start where they did. -/
  workingPlace : disk'.workingPlace = disk.workingPlace
  /-- Names can be as long as they could. -/
  nameLimit? : disk'.nameLimit? = disk.nameLimit?
  /-- Every entry is still there. -/
  get? : ∀ {place node}, disk.get? place = some node → disk'.get? place = some node

theorem Grows.refl (disk : Disk) : disk.Grows disk := ⟨rfl, rfl, id⟩

theorem Grows.trans {disk'' : Disk} (h : disk.Grows disk') (h' : disk'.Grows disk'') :
    disk.Grows disk'' :=
  ⟨h'.workingPlace.trans h.workingPlace, h'.nameLimit?.trans h.nameLimit?,
    fun hnode => h'.get? (h.get? hnode)⟩

/-- A new entry where there was none. -/
theorem grows_set {node : Node} (hnone : disk.get? target = none) :
    disk.Grows (disk.set target node) where
  workingPlace := rfl
  nameLimit? := rfl
  get? := by
    intro place node' hnode
    have ht : target ≠ [] := by
      rintro rfl
      rw [Disk.get?] at hnone
      cases hnone
    have hne : place ≠ target := by
      rintro rfl
      rw [hnone] at hnode
      cases hnode
    rw [get?_set _ _ _ _ ht, if_neg hne, hnode]

theorem Grows.hasDirectory (h : disk.Grows disk') (hplace : disk.hasDirectory place = true) :
    disk'.hasDirectory place = true :=
  hasDirectory_iff.mpr (h.get? (hasDirectory_iff.mp hplace))

theorem Grows.leads (h : disk.Grows disk') (hleads : disk.Leads place piece next) :
    disk'.Leads place piece next :=
  hleads.transfer (h.hasDirectory hleads.hasDirectory) h.nameLimit? fun _ hnode =>
    Option.isSome_of_eq_some (h.get? hnode)

/-- Where directories are made, the names lead on as soon as the first directory is made. -/
theorem makeWay_cons (h : disk.makeWay place (piece :: rest) = .ok disk') :
    ∃ disk₁ next, disk.Grows disk₁ ∧ disk₁.Leads place piece next ∧
      disk₁.makeWay next rest = .ok disk' := by
  rcases leads_or_lacks disk place piece with ⟨next, hnext⟩ | hlacks | ⟨fault, hfault⟩
  · exact ⟨disk, next, .refl disk, hnext, hnext.makeWay_eq ▸ h⟩
  · have hgrows : disk.Grows (disk.set (place ++ [piece]) .directory) := grows_set hlacks.missing
    refine ⟨_, _, hgrows, .enter (hgrows.hasDirectory hlacks.hasDirectory) hlacks.void
      hlacks.parent hlacks.admits ?_, hlacks.makeWay_eq ▸ h⟩
    rw [get?_set _ _ _ _ (by simp), if_pos rfl]
    simp
  · rw [(hfault rest).2] at h
    cases h

/-- Making directories adds them, and opens the way. -/
theorem grows_makeWay (h : disk.makeWay place pieces = .ok disk') :
    disk.Grows disk' ∧
      ∃ goal, disk'.walk place pieces = .ok goal ∧ disk'.hasDirectory goal = true := by
  induction pieces generalizing disk place with
  | nil =>
    rw [makeWay] at h
    split at h
    · obtain rfl := Except.ok.inj h
      exact ⟨.refl disk, _, rfl, ‹_›⟩
    · cases h
  | cons piece pieces ih =>
    obtain ⟨disk₁, next, hgrows, hleads, h⟩ := makeWay_cons h
    obtain ⟨hgrows', goal, hwalk, hgoal⟩ := ih h
    refine ⟨hgrows.trans hgrows', goal, ?_, hgoal⟩
    exact walk_cons_iff.mpr ⟨next, hgrows'.leads hleads, hwalk⟩

/-- Once its directories are made, a path leads to a directory, and no entry is lost. -/
theorem grows_makeDirectories {path : FilePath} (h : disk.makeDirectories path = .ok disk') :
    disk.Grows disk' ∧
      ∃ goal, disk'.walk (disk'.origin path) path.pieces = .ok goal ∧
        disk'.hasDirectory goal = true := by
  obtain ⟨hgrows, goal, hwalk, hgoal⟩ := grows_makeWay h
  have horigin : disk'.origin path = disk.origin path := by
    rw [origin, origin, hgrows.workingPlace]
  exact ⟨hgrows, goal, horigin ▸ hwalk, hgoal⟩

end Disk

end Stencil
