import Mathlib.Data.Set.Card
import Stencil.Command.Run
import Stencil.Proofs.Cache.Files
import Stencil.Proofs.Disk.Removal

/-!
# Emptying the cache directory

The store in files and the command that clears it share nothing but the extension of cache files.
Every name that the store gives to a file has that extension, so what was put, under whatever key,
is what is removed.

The invariant is that of a tidy disk: the directory of the store can be made, and none of the
directories in it has the name of a cache file. Puts keep it, since they write files only, and
clearing keeps it, since it removes files only. On a tidy disk everything with the name of a cache
file is a file, and can be removed.

The empty path is no directory to the command, while the store takes it for the working directory.
Cache files that were put there stay.
-/

namespace Stencil

namespace CacheStore

variable {disk disk' : Disk} {dir : FilePath} {place goal : Place} {name : Text}

/-! ## Names with the extension -/

/-- A name with the extension of cache files. -/
def IsCacheName (name : Text) : Prop := FilePath.extensionOf? name = some fileExtension

instance (name : Text) : Decidable (IsCacheName name) := inferInstanceAs (Decidable (_ = _))

theorem fileStem_ne_nil (key : String) : fileStem key ≠ [] := by
  have hplain : ∀ {k : String}, isPlainKey k = true → k.toList ≠ [] := by
    intro k hk
    simpa using (Bool.and_eq_true_iff.mp hk).1
  cases hkey : isPlainKey key with
  | true => exact fileStem_of_plain hkey ▸ hplain hkey
  | false => exact fileStem_of_not_plain hkey ▸ hplain (isPlainKey_digest key)

/-- The file of every key has the extension. -/
theorem isCacheName_fileName (key : String) : IsCacheName (fileName key) := by
  have hlast : (fileName key).reverse.takeWhile (· ≠ '.') = fileExtension.reverse := by
    rw [fileName, List.reverse_append, List.reverse_cons, List.append_assoc,
      List.takeWhile_append_of_pos (by decide), List.singleton_append,
      List.takeWhile_cons_of_neg (by decide), List.append_nil]
  have hlength : fileExtension.length + 1 < (fileName key).length := by
    have hstem := List.length_pos_iff.mpr (fileStem_ne_nil key)
    rw [fileName, List.length_append, List.length_cons]
    omega
  rw [IsCacheName, FilePath.extensionOf?, hlast, List.length_reverse, if_pos hlength,
    List.reverse_reverse]

/-! ## Tidy disks -/

/-- A disk on which a directory can hold cache files: names may have any length, the directory is
there or can be made, and none of the directories in it has the name of a cache file. -/
structure Tidy (disk : Disk) (dir : FilePath) : Prop where
  /-- Names of any length. -/
  unlimited : disk.nameLimit? = none
  /-- One entry for each place. -/
  unique : disk.PlacesUnique
  /-- A directory in which what looks like a cache file is one. -/
  plain : ∃ disk', disk.makeDirectories dir = .ok disk' ∧
    ∀ place name, disk'.walk (disk'.origin dir) dir.pieces = .ok place → IsCacheName name →
      disk'.hasDirectory (place ++ [name]) = false

/-- The directory of the path is there, and what looks like a cache file in it is none of its
directories. -/
structure Open (disk : Disk) (dir : FilePath) (place : Place) : Prop where
  walk : disk.walk (disk.origin dir) dir.pieces = .ok place
  hasDirectory : disk.hasDirectory place = true
  plain : ∀ {name}, IsCacheName name → disk.hasDirectory (place ++ [name]) = false

/-- An entry with the name of a cache file is a file. -/
theorem Open.eq_file (h : Open disk dir place) (hname : IsCacheName name) {node : Node}
    (hentry : disk.get? (place ++ [name]) = some node) : ∃ bytes, node = .file bytes := by
  cases node with
  | file bytes => exact ⟨bytes, rfl⟩
  | directory => exact absurd hentry (Disk.hasDirectory_eq_false_iff.mp (h.plain hname))

/-- The path leads to one directory. -/
theorem Open.place_eq (h : Open disk dir place)
    (hwalk : disk.walk (disk.origin dir) dir.pieces = .ok goal) : place = goal :=
  Except.ok.inj (h.walk.symm.trans hwalk)

theorem Open.tidy (h : Open disk dir place) (hunlimited : disk.nameLimit? = none)
    (hunique : disk.PlacesUnique) : Tidy disk dir where
  unlimited := hunlimited
  unique := hunique
  plain := by
    refine ⟨disk, Disk.makeWay_of_walk h.walk h.hasDirectory, fun other name hwalk hname => ?_⟩
    obtain rfl := h.place_eq hwalk
    exact h.plain hname

/-- The directory of a tidy disk is there, or it is missing. -/
theorem Tidy.open_or_missing (h : Tidy disk dir) :
    (∃ place, Open disk dir place) ∨ disk.walk (disk.origin dir) dir.pieces = .error .notFound := by
  obtain ⟨disk', hmade, hplain⟩ := h.plain
  rcases Disk.walk_of_makeWay hmade with ⟨place, hwalk, hplace⟩ | hmissing
  · -- nothing is made where the directory is there
    obtain rfl : disk = disk' :=
      Except.ok.inj ((Disk.makeWay_of_walk hwalk hplace).symm.trans hmade)
    exact .inl ⟨place, hwalk, hplace, fun hname => hplain _ _ hwalk hname⟩
  · exact .inr hmissing

/-! ## Putting -/

/-- A file under a name without the extension is still there. -/
def OthersStay (disk disk' : Disk) : Prop :=
  ∀ front name bytes, ¬ IsCacheName name → disk.get? (front ++ [name]) = some (.file bytes) →
    disk'.get? (front ++ [name]) = some (.file bytes)

/-- Puts bytes under keys, one after the other. -/
def putAll {σ : Type} (store : CacheStore σ) (s : σ) (puts : List (String × ByteArray)) :
    Except Error σ :=
  puts.foldlM (fun s x => store.put s x.1 x.2) s

/-- A put is carried out, and writes nothing but a cache file. -/
theorem Tidy.put (h : Tidy disk dir) (key : String) (bytes : ByteArray) :
    ∃ disk', (files dir).put disk key bytes = .ok disk' ∧ Tidy disk' dir ∧
      OthersStay disk disk' := by
  obtain ⟨made, hmade, hplain⟩ := h.plain
  obtain ⟨hgrows, place, hwalk, hplace⟩ := Disk.grows_makeDirectories hmade
  have hunlimited : made.nameLimit? = none := hgrows.nameLimit?.trans h.unlimited
  have htarget : place ++ [fileName key] ≠ [] := by simp
  have hfile : made.hasDirectory (place ++ [fileName key]) = false :=
    hplain place _ hwalk (isCacheName_fileName key)
  let disk' := made.set (place ++ [fileName key]) (.file bytes)
  have hopen : Open disk' dir place := by
    refine ⟨Disk.walk_set_file htarget hfile hwalk hplace,
      Disk.hasDirectory_set_file htarget hfile hplace, fun {name} hname => ?_⟩
    rw [Disk.hasDirectory_eq_false_iff, Disk.get?_set _ _ _ _ htarget]
    split
    · simp
    · exact Disk.hasDirectory_eq_false_iff.mp (hplain place name hwalk hname)
  refine ⟨disk', put_of_makeDirectories bytes hmade hunlimited hwalk hplace hfile,
    hopen.tidy hunlimited ((h.unique.makeWay hmade).set _ _),
    fun front name content hname hentry => ?_⟩
  have hne : front ++ [name] ≠ place ++ [fileName key] := by
    intro heq
    obtain ⟨-, rfl⟩ := List.append_singleton_inj.mp heq
    exact hname (isCacheName_fileName key)
  rw [Disk.get?_set _ _ _ _ htarget, if_neg hne]
  exact hgrows.get? hentry

/-- By induction on the puts: all of them are carried out, and the other files stay. -/
theorem Tidy.putAll (h : Tidy disk dir) (puts : List (String × ByteArray)) :
    ∃ filled, putAll (files dir) disk puts = .ok filled ∧ Tidy filled dir ∧
      OthersStay disk filled := by
  induction puts generalizing disk with
  | nil => exact ⟨disk, rfl, h, fun _ _ _ _ hentry => hentry⟩
  | cons x puts ih =>
    obtain ⟨disk', hput, htidy, hstay⟩ := h.put x.1 x.2
    obtain ⟨filled, hputs, htidy', hstay'⟩ := ih htidy
    refine ⟨filled, ?_, htidy', fun front name bytes hname hentry => ?_⟩
    · rw [CacheStore.putAll, List.foldlM_cons, hput]
      exact hputs
    · exact hstay' _ _ _ hname (hstay _ _ _ hname hentry)

/-! ## Clearing -/

/-- A file of the directory of a path, with the extension of cache files. -/
def IsCacheFile (disk : Disk) (dir : FilePath) (place : Place) : Prop :=
  ∃ front name bytes, disk.walk (disk.origin dir) dir.pieces = .ok front ∧ IsCacheName name ∧
    place = front ++ [name] ∧ disk.get? place = some (.file bytes)

/-- The places of the entries of a directory that have the name of a cache file. -/
def cachePlaces (disk : Disk) (place : Place) : List Place :=
  ((disk.entries place).filter fun x => IsCacheName x.1).map fun x => place ++ [x.1]

theorem nodup_cachePlaces (hunique : disk.PlacesUnique) (place : Place) :
    (cachePlaces disk place).Nodup :=
  hunique.sublist ((List.filter_sublist.map _).trans (Disk.entries_sublist disk place))

/-- Removing the cache files leaves every other entry. -/
theorem get?_eraseAll_cachePlaces (disk : Disk) (place other : Place) :
    (disk.eraseAll (cachePlaces disk place)).get? other =
      if other ∈ cachePlaces disk place then none else disk.get? other := by
  refine Disk.get?_eraseAll (fun p hp => ?_) disk other
  obtain ⟨x, -, rfl⟩ := List.mem_map.mp hp
  simp

section Opened

variable (h : Open disk dir place) (hunique : disk.PlacesUnique)

include h hunique

/-- What has the name of a cache file is one. -/
theorem Open.mem_cachePlaces {other : Place} :
    other ∈ cachePlaces disk place ↔ IsCacheFile disk dir other := by
  rw [cachePlaces, List.mem_map]
  constructor
  · rintro ⟨⟨name, node⟩, hmem, rfl⟩
    obtain ⟨hentry, hdecide⟩ := List.mem_filter.mp hmem
    have hname : IsCacheName name := of_decide_eq_true hdecide
    obtain ⟨bytes, rfl⟩ := h.eq_file hname (hunique.mem_entries.mp hentry)
    exact ⟨place, name, bytes, h.walk, hname, rfl, hunique.mem_entries.mp hentry⟩
  · rintro ⟨front, name, bytes, hwalk, hname, rfl, hentry⟩
    obtain rfl := h.place_eq hwalk
    exact ⟨_, List.mem_filter.mpr ⟨hunique.mem_entries.mpr hentry, decide_eq_true hname⟩, rfl⟩

/-- All cache files are counted and removed. -/
theorem Open.removeCacheFiles_eq (hdir : dir ≠ []) :
    disk.removeCacheFiles dir =
      .ok ((cachePlaces disk place).length, disk.eraseAll (cachePlaces disk place)) := by
  have hlocate : disk.locate dir = .ok place := by
    rw [Disk.locate, if_neg (by simpa using hdir), h.walk]
  rw [Disk.removeCacheFiles, hlocate]
  dsimp only
  rw [if_pos h.hasDirectory]
  refine (if_neg ?_).trans ?_
  · -- what has the name of a cache file is a file
    rw [List.any_eq_true]
    rintro ⟨⟨name, node⟩, hmem, hnode⟩
    obtain ⟨hentry, hdecide⟩ := List.mem_filter.mp hmem
    obtain ⟨bytes, rfl⟩ := h.eq_file (of_decide_eq_true hdecide) (hunique.mem_entries.mp hentry)
    cases hnode
  · rw [cachePlaces, List.length_map, Disk.eraseAll, List.foldl_map]
    rfl

/-- A directory without cache files stays as it is. -/
theorem Open.removeCacheFiles_of_empty (hdir : dir ≠ [])
    (hempty : ∀ other, ¬ IsCacheFile disk dir other) :
    disk.removeCacheFiles dir = .ok (0, disk) := by
  have hnil : cachePlaces disk place = [] :=
    List.eq_nil_iff_forall_not_mem.mpr fun other hmem =>
      hempty other ((h.mem_cachePlaces hunique).mp hmem)
  rw [h.removeCacheFiles_eq hunique hdir, hnil]
  rfl

/-- The directory stays when its cache files are removed. -/
theorem Open.eraseAll : Open (disk.eraseAll (cachePlaces disk place)) dir place := by
  obtain ⟨hworking, hlimit⟩ := Disk.eraseAll_customs disk (cachePlaces disk place)
  have hstay : ∀ other, disk.hasDirectory other = true →
      (disk.eraseAll (cachePlaces disk place)).hasDirectory other = true := by
    intro other hother
    rw [Disk.hasDirectory_iff] at hother ⊢
    rw [get?_eraseAll_cachePlaces, if_neg, hother]
    intro hmem
    obtain ⟨front, name, bytes, -, -, -, hentry⟩ := (h.mem_cachePlaces hunique).mp hmem
    rw [hother] at hentry
    cases hentry
  refine ⟨?_, hstay _ h.hasDirectory, fun hname => ?_⟩
  · rw [Disk.origin, hworking]
    exact Disk.walk_of_directories h.walk h.hasDirectory hlimit hstay
  · rw [Disk.hasDirectory_eq_false_iff, get?_eraseAll_cachePlaces]
    split
    · simp
    · exact Disk.hasDirectory_eq_false_iff.mp (h.plain hname)

end Opened

/-- Without cache files a get finds nothing, whatever the key. -/
theorem Tidy.get_eq_none (h : Tidy disk dir) (hempty : ∀ other, ¬ IsCacheFile disk dir other)
    (key : String) : (files dir).get disk key = .ok none := by
  rcases h.open_or_missing with ⟨place, hopen⟩ | hmissing
  · refine get_of_walk h.unlimited hopen.walk hopen.hasDirectory ?_
    rw [Option.map_none, Option.eq_none_iff_forall_ne_some]
    intro node hentry
    obtain ⟨bytes, rfl⟩ := hopen.eq_file (isCacheName_fileName key) hentry
    exact hempty _ ⟨place, _, bytes, hopen.walk, isCacheName_fileName key, rfl, hentry⟩
  · exact get_of_missing hmissing key

/-- Where a path leads nowhere, nothing is removed. -/
theorem removeCacheFiles_of_missing {fault : Disk.Fault}
    (hmissing : disk.walk (disk.origin dir) dir.pieces = .error fault) :
    disk.removeCacheFiles dir = .ok (0, disk) := by
  have hlocate : ∃ fault, disk.locate dir = .error fault := by
    rw [Disk.locate]
    split
    · exact ⟨_, rfl⟩
    · exact ⟨_, hmissing⟩
  obtain ⟨fault, hlocate⟩ := hlocate
  rw [Disk.removeCacheFiles, hlocate]

/-- On a tidy disk the cache files of a directory are counted and removed, and every other entry
stays. -/
theorem Tidy.removeCacheFiles (h : Tidy disk dir) (hdir : dir ≠ []) :
    ∃ n cleared, disk.removeCacheFiles dir = .ok (n, cleared) ∧ Tidy cleared dir ∧
      {other | IsCacheFile disk dir other}.encard = n ∧
      (∀ other, ¬ IsCacheFile cleared dir other) ∧
      (∀ other, IsCacheFile disk dir other → cleared.get? other = none) ∧
      ∀ other, ¬ IsCacheFile disk dir other → cleared.get? other = disk.get? other := by
  rcases h.open_or_missing with ⟨place, hopen⟩ | hmissing
  · have hmem : ∀ {other}, other ∈ cachePlaces disk place ↔ IsCacheFile disk dir other :=
      hopen.mem_cachePlaces h.unique
    have hopen' := hopen.eraseAll h.unique
    have hunique' := h.unique.eraseAll (cachePlaces disk place)
    refine ⟨_, _, hopen.removeCacheFiles_eq h.unique hdir, hopen'.tidy ?_ hunique', ?_,
      fun other hother => ?_, fun other hother => ?_, fun other hother => ?_⟩
    · exact (Disk.eraseAll_customs disk _).2.trans h.unlimited
    · have hset : {other | IsCacheFile disk dir other} = ↑(cachePlaces disk place).toFinset := by
        ext other
        rw [Set.mem_ofPred_eq, Finset.mem_coe, List.mem_toFinset, hmem]
      rw [hset, Set.encard_coe_eq_coe_finsetCard,
        List.toFinset_card_of_nodup (nodup_cachePlaces h.unique place)]
    · -- what is a cache file now was one before, and is removed
      obtain ⟨front, name, bytes, hwalk, hname, rfl, hentry⟩ := hother
      obtain rfl := hopen'.place_eq hwalk
      rw [get?_eraseAll_cachePlaces] at hentry
      split at hentry
      · cases hentry
      · rename_i hstays
        exact hstays (hmem.mpr ⟨place, name, bytes, hopen.walk, hname, rfl, hentry⟩)
    · rw [get?_eraseAll_cachePlaces, if_pos (hmem.mpr hother)]
    · rw [get?_eraseAll_cachePlaces, if_neg (mt hmem.mp hother)]
  · have hempty : ∀ other, ¬ IsCacheFile disk dir other := by
      rintro other ⟨front, name, bytes, hwalk, -⟩
      rw [hmissing] at hwalk
      cases hwalk
    refine ⟨0, disk, removeCacheFiles_of_missing hmissing, h, ?_, hempty,
      fun other hother => absurd hother (hempty other), fun _ _ => rfl⟩
    simp [hempty]

/-- A tidy disk without cache files stays as it is. -/
theorem Tidy.removeCacheFiles_of_empty (h : Tidy disk dir) (hdir : dir ≠ [])
    (hempty : ∀ other, ¬ IsCacheFile disk dir other) :
    disk.removeCacheFiles dir = .ok (0, disk) := by
  rcases h.open_or_missing with ⟨place, hopen⟩ | hmissing
  · exact hopen.removeCacheFiles_of_empty h.unique hdir hempty
  · exact removeCacheFiles_of_missing hmissing

/-- What the store has put into its directory is what is cleared. After any puts, under whatever
keys, on a disk where the directory can hold cache files, and as long as the path of the directory
is not empty, clearing succeeds. It counts and removes the files of the directory that have the
extension of cache files, it leaves everything else as it is, and so the other files that were there
before the puts are there still. Then no key has an entry, and clearing again finds nothing to
remove. -/
theorem clearFileCache_empties {s : Settings} {location : String} {disk : Disk}
    (hbackend : s.cache.backend = "file") (hlocation : s.cache.location? = some location)
    (hnonempty : location ≠ "") (h : Tidy disk location.toList) (puts : List (String × ByteArray)) :
    ∃ filled n cleared,
      putAll (files location.toList) disk puts = .ok filled ∧
      Command.clearFileCache filled s = .ok (n, cleared) ∧
      (∀ key, (files location.toList).get cleared key = .ok none) ∧
      {place | IsCacheFile filled location.toList place}.encard = n ∧
      (∀ place, IsCacheFile filled location.toList place → cleared.get? place = none) ∧
      (∀ place, ¬ IsCacheFile filled location.toList place →
        cleared.get? place = filled.get? place) ∧
      OthersStay disk cleared ∧
      Command.clearFileCache cleared s = .ok (0, cleared) := by
  have hdir : location.toList ≠ [] := by simpa using hnonempty
  have hclear : ∀ disk, Command.clearFileCache disk s = disk.removeCacheFiles location.toList := by
    intro disk
    rw [Command.clearFileCache, hlocation]
    exact if_pos hbackend
  obtain ⟨filled, hputs, htidy, hstay⟩ := h.putAll puts
  obtain ⟨n, cleared, hremove, htidy', hcount, hempty, hgone, hrest⟩ := htidy.removeCacheFiles hdir
  refine ⟨filled, n, cleared, hputs, (hclear filled).trans hremove,
    htidy'.get_eq_none hempty, hcount, hgone, hrest, fun front name bytes hname hentry => ?_,
    (hclear cleared).trans (htidy'.removeCacheFiles_of_empty hdir hempty)⟩
  have hother : ¬ IsCacheFile filled location.toList (front ++ [name]) := by
    rintro ⟨front', name', -, -, hname', heq, -⟩
    obtain ⟨-, rfl⟩ := List.append_singleton_inj.mp heq
    exact hname hname'
  exact (hrest _ hother).trans (hstay _ _ _ hname hentry)

/-- Settings under which output is cached in the files of a directory. -/
def fileSettings (location : String) : Settings :=
  { cache := { backend := "file", location? := some location } }

/-- The directory `c` with a cache file and another file in it. -/
def usedDisk : Disk where
  nodes := [(["c".toList], .directory),
    (["c".toList, "old.cache".toList], .file ⟨#[120]⟩),
    (["c".toList, "keep.txt".toList], .file ⟨#[121]⟩)]
  workingPlace := []
  nameLimit? := none

theorem tidy_usedDisk : Tidy usedDisk ['c'] := by
  have hunique : usedDisk.PlacesUnique := by decide
  have hopen : Open usedDisk ['c'] [['c']] := by
    refine ⟨rfl, rfl, fun {name} _ => ?_⟩
    rw [Disk.hasDirectory_eq_false_iff, ne_eq, hunique.get?_eq_some_iff (by simp)]
    simp [usedDisk]
  exact hopen.tidy rfl hunique

theorem clearFileCache_empties_usedDisk :
    Tidy usedDisk ['c'] ∧ ∃ filled n cleared,
      putAll (files ['c']) usedDisk [("page", ⟨#[122]⟩), ("a b", ⟨#[122]⟩)] = .ok filled ∧
      Command.clearFileCache filled (fileSettings "c") = .ok (n, cleared) ∧
      (files ['c']).get cleared "a b" = .ok none ∧
      cleared.get? [['c'], "keep.txt".toList] = some (.file ⟨#[121]⟩) := by
  obtain ⟨filled, n, cleared, hputs, hclear, hnone, -, -, -, hstay, -⟩ :=
    clearFileCache_empties (s := fileSettings "c") rfl rfl (by decide) tidy_usedDisk
      [("page", ⟨#[122]⟩), ("a b", ⟨#[122]⟩)]
  exact ⟨tidy_usedDisk, filled, n, cleared, hputs, hclear, hnone "a b",
    hstay [['c']] _ _ (by decide) rfl⟩

/-- With the empty path for a directory, a put writes into the working directory. Clearing succeeds
without removing anything: the file is still listed, and what was put is still found. -/
theorem clearFileCache_empty_location :
    ∃ filled, putAll (files "".toList) emptyDisk [("page", ⟨#[120]⟩)] = .ok filled ∧
      Command.clearFileCache filled (fileSettings "") = .ok (0, filled) ∧
      filled.listing filled.workingPlace = ["page.cache"] ∧
      (files "".toList).get filled "page" = .ok (some ⟨#[120]⟩) :=
  ⟨⟨[(["page.cache".toList], .file ⟨#[120]⟩)], [], none⟩, rfl, rfl, by decide +kernel, rfl⟩

end CacheStore

end Stencil
