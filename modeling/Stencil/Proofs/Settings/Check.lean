import Mathlib.Tactic.ByContra
import Stencil.Command.Run

/-!
# The check and the engine

Settings are judged twice. The check goes through all of them and collects what it finds; making an
engine stops at the first thing that cannot work. Both have the same errors: empty delimiters, a
cache of an unknown kind, a cache of files without a directory. The check alone looks for the
template directories, and an engine that fails for no reason it has found never happens.
-/

namespace Stencil

/-! ## When there is an engine -/

theorem Delimiters.exists_of?_iff {left right : String} :
    (∃ d, of? left right = .ok d) ↔ left ≠ "" ∧ right ≠ "" := by
  unfold of?
  split
  · rename_i h
    simpa using h
  · rename_i h
    simpa using h

/-- A kind of cache that there is, with a directory if it is made of files. -/
def CacheSettings.Known (cache : CacheSettings) : Prop :=
  cache.backend = "memory" ∨ cache.backend = "file" ∧ cache.location? ≠ none

theorem CacheBackend.exists_ofSettings_iff {cache : CacheSettings} :
    (∃ backend, ofSettings cache = .ok backend) ↔ cache.Known := by
  unfold ofSettings CacheSettings.Known
  by_cases hmemory : cache.backend = "memory"
  · simp [hmemory]
  by_cases hfile : cache.backend = "file"
  · cases cache.location? <;> simp [hfile]
  · simp [hmemory, hfile]

/-- Settings that an engine can be made of. -/
def Settings.Usable (s : Settings) : Prop :=
  (s.templates.leftDelimiter ≠ "" ∧ s.templates.rightDelimiter ≠ "") ∧ s.cache.Known

theorem Engine.exists_ofSettings_iff {s : Settings} :
    (∃ e, ofSettings s.templates s.cache = .ok e) ↔ s.Usable := by
  rw [Settings.Usable, ← Delimiters.exists_of?_iff, ← CacheBackend.exists_ofSettings_iff]
  unfold ofSettings
  cases Delimiters.of? s.templates.leftDelimiter s.templates.rightDelimiter <;>
    cases CacheBackend.ofSettings s.cache <;> simp [bind, Except.bind, pure, Except.pure]

theorem Engine.exists_error_iff {s : Settings} :
    (∃ err, ofSettings s.templates s.cache = .error err) ↔ ¬ s.Usable := by
  rw [← exists_ofSettings_iff]
  cases ofSettings s.templates s.cache <;> simp

/-! ## What is found -/

namespace Settings

/-- What the findings are called that keep an engine from being made. -/
def blockers : List String := ["templates.E002", "cache.E001", "cache.E002"]

/-- What a finding is called that only an engine can make. -/
def unexplained : String := "engine.E001"

/-- A finding of a part of the check that makes an engine impossible if it is an error, and has a
name of its own. -/
def Explains (f : Finding) : Prop :=
  (f.severity = .error ↔ f.id ∈ blockers) ∧ f.id ≠ unexplained

instance (f : Finding) : Decidable (Explains f) := inferInstanceAs (Decidable (_ ∧ _))

variable {disk : Disk} {s : Settings} {f : Finding}

/-- What is found about directories keeps no engine from being made. -/
theorem id_of_mem_dirFindings {dirs : List String} (h : f ∈ dirFindings disk dirs) :
    f.id ∉ blockers ∧ f.id ≠ unexplained := by
  unfold dirFindings at h
  rcases List.mem_append.mp h with h | h
  · split at h
    · obtain rfl := List.mem_singleton.mp h
      exact ⟨by decide, by decide⟩
    · exact absurd h (by simp)
  · obtain ⟨dir, -, rfl⟩ := List.mem_map.mp h
    exact ⟨by simp [blockers], by simp [unexplained]⟩

/-- It is an error only if a directory is missing. -/
theorem severity_of_mem_dirFindings {dirs : List String}
    (hdirs : ∀ dir ∈ dirs, disk.isDirectory dir.toList = true) (h : f ∈ dirFindings disk dirs) :
    f.severity ≠ .error := by
  have hmissing : dirs.filter (fun dir => !disk.isDirectory dir.toList) = [] :=
    List.filter_eq_nil_iff.mpr fun dir hdir => by simp [hdirs dir hdir]
  rw [dirFindings, hmissing, List.map_nil, List.append_nil] at h
  split at h
  · obtain rfl := List.mem_singleton.mp h
    decide
  · exact absurd h (by simp)

theorem explains_delimiterFindings {left right : String} :
    ∀ f ∈ delimiterFindings left right, Explains f := by
  intro f h
  unfold delimiterFindings at h
  split at h
  · obtain rfl := List.mem_singleton.mp h
    decide
  · split at h
    · obtain rfl := List.mem_singleton.mp h
      exact ⟨by simp [blockers], by simp [unexplained]⟩
    · exact absurd h (by simp)

theorem exists_delimiterFindings_iff {left right : String} :
    (∃ f ∈ delimiterFindings left right, f.id ∈ blockers) ↔ ¬ (left ≠ "" ∧ right ≠ "") := by
  rw [← not_or, not_not]
  by_cases hempty : left = "" ∨ right = ""
  · have h : (decide (left = "") || decide (right = "")) = true := by simpa using hempty
    rw [delimiterFindings, if_pos h]
    simp only [List.mem_singleton, exists_eq_left]
    exact iff_of_true (by decide) hempty
  · have h : ¬ (decide (left = "") || decide (right = "")) = true := by simpa using hempty
    rw [delimiterFindings, if_neg h]
    refine iff_of_false ?_ hempty
    split <;> simp [blockers]

theorem explains_cacheFindings {cache : CacheSettings} : ∀ f ∈ cacheFindings cache, Explains f := by
  intro f h
  unfold cacheFindings at h
  split at h
  · exact absurd h (by simp)
  split at h
  · split at h
    · exact absurd h (by simp)
    · obtain rfl := List.mem_singleton.mp h
      decide
  · obtain rfl := List.mem_singleton.mp h
    exact ⟨by simp [blockers], by simp [unexplained]⟩

theorem exists_cacheFindings_iff {cache : CacheSettings} :
    (∃ f ∈ cacheFindings cache, f.id ∈ blockers) ↔ ¬ cache.Known := by
  unfold cacheFindings CacheSettings.Known
  by_cases hmemory : cache.backend = "memory"
  · simp [hmemory]
  by_cases hfile : cache.backend = "file"
  · cases cache.location? <;> simp [hfile, blockers]
  · simp [hmemory, hfile, blockers]

/-- What the parts of the check find. -/
def collected (disk : Disk) (s : Settings) : List Finding :=
  dirFindings disk s.templates.dirs ++
    delimiterFindings s.templates.leftDelimiter s.templates.rightDelimiter ++
    cacheFindings s.cache

theorem mem_collected : f ∈ s.collected disk ↔ f ∈ dirFindings disk s.templates.dirs ∨
    f ∈ delimiterFindings s.templates.leftDelimiter s.templates.rightDelimiter ∨
      f ∈ cacheFindings s.cache := by
  rw [collected, List.mem_append, List.mem_append, or_assoc]

theorem exists_collected_iff : (∃ f ∈ s.collected disk, f.id ∈ blockers) ↔ ¬ s.Usable := by
  have hdirs : ¬ ∃ f ∈ dirFindings disk s.templates.dirs, f.id ∈ blockers := by
    rintro ⟨f, hf, hid⟩
    exact (id_of_mem_dirFindings hf).1 hid
  simp only [mem_collected, or_and_right, exists_or]
  rw [exists_delimiterFindings_iff, exists_cacheFindings_iff, ← Classical.not_and_iff_not_or_not]
  exact or_iff_right hdirs

/-- An error that has nothing to do with directories keeps an engine from being made. -/
theorem error_of_mem_collected (h : f ∈ s.collected disk) (hid : f.id ∈ blockers) :
    f.severity = .error := by
  rcases mem_collected.mp h with h | h | h
  · exact absurd hid (id_of_mem_dirFindings h).1
  · exact (explains_delimiterFindings f h).1.mpr hid
  · exact (explains_cacheFindings f h).1.mpr hid

theorem blocker_of_mem_collected
    (hdirs : ∀ dir ∈ s.templates.dirs, disk.isDirectory dir.toList = true)
    (h : f ∈ s.collected disk) (herror : f.severity = .error) : f.id ∈ blockers := by
  rcases mem_collected.mp h with h | h | h
  · exact absurd herror (severity_of_mem_dirFindings hdirs h)
  · exact (explains_delimiterFindings f h).1.mp herror
  · exact (explains_cacheFindings f h).1.mp herror

theorem id_of_mem_collected (h : f ∈ s.collected disk) : f.id ≠ unexplained := by
  rcases mem_collected.mp h with h | h | h
  · exact (id_of_mem_dirFindings h).2
  · exact (explains_delimiterFindings f h).2
  · exact (explains_cacheFindings f h).2

/-- If no part of the check finds an error, an engine can be made, so nothing is added to what the
parts find. -/
theorem findings_eq (disk : Disk) (s : Settings) : s.findings disk = s.collected disk := by
  unfold findings
  rw [← collected]
  dsimp only
  split
  · rfl
  · rename_i hno
    have husable : s.Usable := by
      by_contra hunusable
      obtain ⟨f, hf, hid⟩ := exists_collected_iff.mpr hunusable
      exact hno (List.any_eq_true.mpr ⟨f, hf, decide_eq_true (error_of_mem_collected hf hid)⟩)
    obtain ⟨e, he⟩ := Engine.exists_ofSettings_iff.mpr husable
    rw [he]

theorem errorCount_ne_zero_iff :
    s.errorCount disk ≠ 0 ↔ ∃ f ∈ s.findings disk, f.severity = .error := by
  rw [errorCount, ← Nat.pos_iff_ne_zero, List.length_pos_iff_exists_mem]
  simp

end Settings

open Settings

/-- The check fails if it finds an error. -/
theorem Command.check_ne_ok_iff (disk : Disk) (env : Environment) (s : Settings) (a : Arguments) :
    (run disk env s .check a).outcome ≠ .ok () ↔ ∃ f ∈ s.findings disk, f.severity = .error := by
  rw [← errorCount_ne_zero_iff, run]
  by_cases h : s.errorCount disk = 0 <;> simp [h]

/-- **The check and the engine agree.** No engine can be made of settings just if the check finds
empty delimiters, a cache of an unknown kind or a cache of files without a directory, and it never
finds an engine that fails otherwise. So an engine can be made of what passes the check, and of what
does not, none can be made unless a template directory is missing. -/
theorem Settings.check_agrees (disk : Disk) (env : Environment) (s : Settings) (a : Arguments) :
    ((∃ err, Engine.ofSettings s.templates s.cache = .error err) ↔
      ∃ f ∈ s.findings disk, f.id ∈ ["templates.E002", "cache.E001", "cache.E002"]) ∧
    (∀ f ∈ s.findings disk, f.id ≠ "engine.E001") ∧
    ((Command.run disk env s .check a).outcome = .ok () →
      ∃ e, Engine.ofSettings s.templates s.cache = .ok e) ∧
    ((Command.run disk env s .check a).outcome ≠ .ok () →
      (∀ dir ∈ s.templates.dirs, disk.isDirectory dir.toList = true) →
        ∃ err, Engine.ofSettings s.templates s.cache = .error err) := by
  have hcheck := Command.check_ne_ok_iff disk env s a
  rw [findings_eq] at hcheck
  rw [Engine.exists_error_iff, Engine.exists_ofSettings_iff, findings_eq]
  refine ⟨exists_collected_iff.symm, fun f hf => ?_, fun hok => ?_, fun hfail hdirs => ?_⟩
  · exact id_of_mem_collected hf
  · by_contra hunusable
    obtain ⟨f, hf, hid⟩ := exists_collected_iff.mpr hunusable
    exact hcheck.mpr ⟨f, hf, error_of_mem_collected hf hid⟩ hok
  · obtain ⟨f, hf, herror⟩ := hcheck.mp hfail
    exact exists_collected_iff.mp ⟨f, hf, blocker_of_mem_collected hdirs hf herror⟩

/-- A cache of files without a directory, next to template directories that are there: the check
fails, and so does the engine. -/
theorem Settings.check_agrees_unplaced :
    let disk : Disk := ⟨[([['t']], .directory)], [], none⟩
    let s : Settings :=
      { templates := { dirs := ["t"] }, cache := { backend := "file" } }
    (∀ dir ∈ s.templates.dirs, disk.isDirectory dir.toList = true) ∧
      (Command.run disk (fun _ => none) s .check {}).outcome ≠ .ok () ∧
      ∃ err, Engine.ofSettings s.templates s.cache = .error err := by
  intro disk s
  have hdirs : ∀ dir ∈ s.templates.dirs, disk.isDirectory dir.toList = true := by decide
  have hfail : (Command.run disk (fun _ => none) s .check {}).outcome ≠ .ok () := by
    rw [Command.check_ne_ok_iff]
    decide
  exact ⟨hdirs, hfail, (check_agrees disk (fun _ => none) s {}).2.2.2 hfail hdirs⟩

end Stencil
