import Stencil.Template.Loader
import Stencil.Proofs.Disk.Ways

/-!
# Loading from directories

A loader of directories refuses the names that start at the root or lead upwards, and no others.
What it looks at for any other name lies in one of its directories, and its answer depends on
nothing else. It makes no difference that the check is made on the path with the extension added:
the extension belongs to the last name of the path, which stays the name of an entry.
-/

namespace Stencil

namespace Disk

open FilePath (namesOf stepsOf)

variable {disk : Disk} {dir rel : FilePath} {place goal : Place} {pieces : List Text}

/-- Without a step upwards, a path leads to the place with the names of the path behind it. -/
theorem walk_eq_append (h : disk.walk place pieces = .ok goal)
    (hparent : .parent ∉ stepsOf pieces) :
    goal = place ++ namesOf pieces := by
  induction pieces generalizing place with
  | nil =>
    obtain rfl := Except.ok.inj h
    exact (List.append_nil place).symm
  | cons piece pieces ih =>
    obtain ⟨next, hnext, h⟩ := walk_cons_iff.mp h
    rw [← List.singleton_append, FilePath.stepsOf_append, List.mem_append, not_or] at hparent
    have hgoal : goal = next ++ namesOf pieces := ih h hparent.2
    cases hnext with
    | stay _ hvoid => simp [hgoal, namesOf, hvoid]
    | up _ _ hup => exact absurd (hup ▸ hparent.1) (by decide)
    | enter _ hvoid hname => simp [hgoal, namesOf, hvoid, hname]

theorem readText?_eq_some {path : FilePath} {source : Text}
    (h : disk.readText? path = some source) :
    ∃ bytes, (∃ place, disk.locate path = .ok place ∧ disk.get? place = some (.file bytes)) ∧
      String.fromUTF8? bytes = some (String.ofList source) := by
  rw [readText?] at h
  split at h
  · rename_i bytes hread
    obtain ⟨s, hs, rfl⟩ := Option.map_eq_some_iff.mp h
    refine ⟨bytes, ?_, by rw [hs, String.ofList_toList]⟩
    rw [read] at hread
    cases hlocate : disk.locate path with
    | error fault => simp [hlocate, bind, Except.bind] at hread
    | ok place =>
      refine ⟨place, rfl, ?_⟩
      simp only [hlocate, bind, Except.bind] at hread
      split at hread
      · obtain rfl := Except.ok.inj hread
        assumption
      · cases hread
      · cases hread
  · cases h

/-- A path that does not lead out of a directory leads to a place below it. -/
theorem locate_join_eq (hrel : ¬ rel.LeadsOut) (h : disk.locate (dir.join rel) = .ok goal) :
    ∃ place, disk.walk (disk.origin dir) dir.pieces = .ok place ∧
      goal = place ++ namesOf rel.pieces := by
  have hrelative : rel.isAbsolute = false := Bool.eq_false_iff.mpr (not_or.mp hrel).1
  have hparent : .parent ∉ stepsOf rel.pieces := by
    simp [FilePath.stepsOf_of_not_leadsOut hrel]
  have hwalk : disk.walk (disk.origin dir) (dir.join rel).pieces = .ok goal := by
    rw [locate] at h
    split at h
    · cases h
    · rwa [origin, FilePath.isAbsolute_join dir hrelative] at h
  rcases FilePath.pieces_join dir hrelative with hp | ⟨front, hfront, hp⟩
  · obtain ⟨place, hplace, hwalk⟩ := walk_append_iff.mp (hp ▸ hwalk)
    exact ⟨place, hplace, walk_eq_append hwalk hparent⟩
  · obtain ⟨place, hplace, hwalk⟩ := walk_append_iff.mp (hp ▸ hwalk)
    refine ⟨place, ?_, walk_eq_append hwalk hparent⟩
    -- the way goes on from the place, so the slash behind it may stand there
    obtain ⟨piece, pieces, hpieces⟩ : ∃ piece pieces, rel.pieces = piece :: pieces :=
      List.exists_cons_of_ne_nil (Text.splitOn_ne_nil '/' rel)
    obtain ⟨next, hnext, -⟩ := walk_cons_iff.mp (hpieces ▸ hwalk)
    have hstay : disk.Leads place [] place := .stay hnext.hasDirectory rfl
    rw [hfront, walk_append, hplace]
    exact hstay.walk_eq

end Disk

namespace Loader

open FilePath (Component LeadsOut Inward Within)

variable {disk disk' : Disk} {dirs : List FilePath} {extension? : Option Text} {name : String}

/-! ## The path of a name -/

theorem filePath_cases (extension? : Option Text) (name : String) :
    filePath extension? name = name.toList ∨
      ∃ extension, extension? = some extension ∧
        filePath extension? name = FilePath.addExtension name.toList extension := by
  cases extension? with
  | none => exact .inl rfl
  | some extension =>
    simp only [filePath]
    split
    · exact .inr ⟨extension, rfl, rfl⟩
    · exact .inl rfl

/-- The path of the file that a name means has the steps of the name, except that the last entry
may get an extension. -/
theorem components_filePath (name : String)
    (hextension : ∀ extension ∈ extension?, '/' ∉ extension) :
    (filePath extension? name).components = FilePath.components name.toList ∨
      ∃ front last extension, extension? = some extension ∧
        FilePath.components name.toList = front ++ [.normal last] ∧
        (filePath extension? name).components = front ++ [.normal (last ++ '.' :: extension)] := by
  rcases filePath_cases extension? name with h | ⟨extension, hsome, h⟩
  · exact .inl (congrArg _ h)
  rcases hlast : FilePath.fileName? name.toList with _ | last
  · rw [FilePath.addExtension, hlast] at h
    exact .inl (congrArg _ h)
  · obtain ⟨front, hname, hpath⟩ :=
      FilePath.components_addExtension hlast (hextension extension hsome)
    exact .inr ⟨front, last, extension, hsome, hname, h ▸ hpath⟩

/-- An extension adds no step other than to an entry, and takes none away. -/
theorem mem_components_filePath (hextension : ∀ extension ∈ extension?, '/' ∉ extension)
    {step : Component} (hstep : ∀ entry, step ≠ .normal entry) :
    step ∈ (filePath extension? name).components ↔ step ∈ FilePath.components name.toList := by
  rcases components_filePath name hextension with h | ⟨front, last, extension, -, hname, hpath⟩
  · rw [h]
  · rw [hname, hpath, List.mem_append, List.mem_append, List.mem_singleton, List.mem_singleton]
    simp only [hstep]

theorem leadsOut_filePath (hextension : ∀ extension ∈ extension?, '/' ∉ extension) :
    (filePath extension? name).LeadsOut ↔ LeadsOut name.toList := by
  rw [LeadsOut, LeadsOut, ← FilePath.root_mem_components, ← FilePath.root_mem_components,
    mem_components_filePath hextension (by simp), mem_components_filePath hextension (by simp)]

/-! ## The answer -/

theorem load_of_leadsOut (h : (filePath extension? name).LeadsOut) :
    (directories dirs extension?).load disk name = .error (.escapingTemplateName name) := by
  have hcontained : (filePath extension? name).isContained = false :=
    Bool.eq_false_iff.mpr fun hc => FilePath.isContained_iff.mp hc h
  rw [load, hcontained]
  rfl

/-- The path of any other name is looked for in every directory, and the first file is read. -/
theorem load_of_not_leadsOut (h : ¬ (filePath extension? name).LeadsOut) :
    (directories dirs extension?).load disk name =
      match (candidates dirs extension? name).find? disk.isFile with
      | none => .error (.notInDirectories name (dirs.map String.ofList))
      | some path =>
        match disk.readText? path with
        | some source => .ok source
        | none => .error (.unreadableTemplate (String.ofList path)) := by
  rw [load, FilePath.isContained_iff.mpr h]
  rfl

theorem kind_ne_of_not_leadsOut {e : Error} (h : ¬ (filePath extension? name).LeadsOut)
    (he : (directories dirs extension?).load disk name = .error e) :
    e.kind ≠ .invalidTemplateName := by
  rw [load_of_not_leadsOut h] at he
  split at he
  · obtain rfl := Except.error.inj he
    simp [Error.kind]
  · split at he
    · cases he
    · obtain rfl := Except.error.inj he
      simp [Error.kind]

/-- A loader looks at nothing but its candidates. -/
theorem load_congr
    (h : ∀ path ∈ candidates dirs extension? name,
      disk.isFile path = disk'.isFile path ∧ disk.readText? path = disk'.readText? path) :
    (directories dirs extension?).load disk name =
      (directories dirs extension?).load disk' name := by
  have hfind : (candidates dirs extension? name).find? disk.isFile =
      (candidates dirs extension? name).find? disk'.isFile := by
    rw [← List.head?_filter, ← List.head?_filter]
    exact congrArg _ (List.filter_congr fun path hpath => (h path hpath).1)
  rw [load, load, hfind]
  split
  · rfl
  split
  · rfl
  · rename_i path hpath
    rw [(h path (List.mem_of_find?_eq_some hpath)).2]

/-- The source that is loaded is the content of a file below one of the directories. -/
theorem exists_file_of_load {source : Text}
    (h : (directories dirs extension?).load disk name = .ok source) :
    ∃ dir ∈ dirs, ∃ place, disk.walk (disk.origin dir) dir.pieces = .ok place ∧
      ∃ entries : List Text, (∀ entry ∈ entries, FilePath.IsName entry) ∧
        ∃ bytes, disk.get? (place ++ entries) = some (.file bytes) ∧
          String.fromUTF8? bytes = some (String.ofList source) := by
  have hpath : ¬ (filePath extension? name).LeadsOut := by
    intro hleads
    rw [load_of_leadsOut hleads] at h
    cases h
  rw [load_of_not_leadsOut hpath] at h
  split at h
  · cases h
  rename_i path hfind
  split at h
  swap
  · cases h
  rename_i hread
  obtain rfl := Except.ok.inj h
  obtain ⟨dir, hdir, rfl⟩ := List.mem_map.mp (List.mem_of_find?_eq_some hfind)
  obtain ⟨bytes, ⟨goal, hgoal, hfile⟩, hsource⟩ := Disk.readText?_eq_some hread
  obtain ⟨place, hplace, rfl⟩ := Disk.locate_join_eq hpath hgoal
  exact ⟨dir, hdir, place, hplace, _, fun _ => FilePath.isName_of_mem_namesOf,
    bytes, hfile, hsource⟩

/-- **Templates are loaded from inside the directories.** A name is refused exactly when it starts
at the root or leads upwards. For every other name the path of its file only stays or goes to
entries, and each path that the loader looks at is one of the directories joined with it, so that
its normal form is that of the directory with names of entries behind it; nothing else of the disk
makes a difference to the answer. A source is the content of a file below one of the directories.
The extension is added to the last name of the path, if at all,
and changes no other step of it. -/
theorem load_stays_inside (dirs : List FilePath) (extension? : Option Text) (name : String)
    (hextension : ∀ extension ∈ extension?, '/' ∉ extension) :
    let loader := directories dirs extension?
    let path := filePath extension? name
    (∀ disk, ((∃ e, loader.load disk name = .error e ∧ e.kind = .invalidTemplateName) ↔
        LeadsOut name.toList) ∧
      (LeadsOut name.toList → loader.load disk name = .error (.escapingTemplateName name))) ∧
    (¬ LeadsOut name.toList → path.Inward ∧
      ∀ probed ∈ candidates dirs extension? name, ∃ dir ∈ dirs,
        probed = dir.join path ∧ Within dir probed) ∧
    (∀ disk disk' : Disk,
      (∀ probed ∈ candidates dirs extension? name,
        disk.isFile probed = disk'.isFile probed ∧ disk.readText? probed = disk'.readText? probed) →
      loader.load disk name = loader.load disk' name) ∧
    (∀ (disk : Disk) (source : Text), loader.load disk name = .ok source →
      ∃ dir ∈ dirs, ∃ place, disk.walk (disk.origin dir) dir.pieces = .ok place ∧
        ∃ entries : List Text, (∀ entry ∈ entries, FilePath.IsName entry) ∧
          ∃ bytes, disk.get? (place ++ entries) = some (.file bytes) ∧
            String.fromUTF8? bytes = some (String.ofList source)) ∧
    (path.components = FilePath.components name.toList ∨
      ∃ front last extension, extension? = some extension ∧
        FilePath.components name.toList = front ++ [.normal last] ∧
        path.components = front ++ [.normal (last ++ '.' :: extension)]) := by
  intro loader path
  have hleads : path.LeadsOut ↔ LeadsOut name.toList := leadsOut_filePath hextension
  refine ⟨fun disk => ⟨⟨?_, fun h => ?_⟩, fun h => load_of_leadsOut (hleads.mpr h)⟩, fun h => ?_,
    fun disk disk' => load_congr, fun disk source h => exists_file_of_load h,
    components_filePath name hextension⟩
  · rintro ⟨e, he, hkind⟩
    by_contra h
    exact kind_ne_of_not_leadsOut (hleads.not.mpr h) he hkind
  · exact ⟨_, load_of_leadsOut (hleads.mpr h), rfl⟩
  · have hpath : ¬ path.LeadsOut := hleads.not.mpr h
    refine ⟨FilePath.inward_of_not_leadsOut hpath, fun probed hprobed => ?_⟩
    obtain ⟨dir, hdir, rfl⟩ := List.mem_map.mp hprobed
    exact ⟨dir, hdir, rfl, FilePath.within_join dir hpath⟩

theorem load_stays_inside_menu :
    (∀ extension ∈ some "html".toList, '/' ∉ extension) ∧
      (¬ LeadsOut "parts//menu".toList ∧ Within "site".toList "site/parts//menu.html".toList) ∧
      (LeadsOut "parts/../../menu".toList ∧
        ∀ disk, (directories ["site".toList] (some "html".toList)).load disk "parts/../../menu" =
          .error (.escapingTemplateName "parts/../../menu")) := by
  have hextension : ∀ extension ∈ some "html".toList, '/' ∉ extension := by decide
  have hinside : ¬ LeadsOut "parts//menu".toList := by decide
  have houtside : LeadsOut "parts/../../menu".toList := by decide
  obtain ⟨-, hprobed, -⟩ := load_stays_inside ["site".toList] _ "parts//menu" hextension
  obtain ⟨dir, hdir, -, hwithin⟩ := (hprobed hinside).2 "site/parts//menu.html".toList (by decide)
  obtain ⟨hrefused, -⟩ := load_stays_inside ["site".toList] _ "parts/../../menu" hextension
  rw [List.mem_singleton.mp hdir] at hwithin
  exact ⟨hextension, ⟨hinside, hwithin⟩, houtside, fun disk => (hrefused disk).2 houtside⟩

end Loader

end Stencil
