import Mathlib.Data.List.Induction
import Stencil.Proofs.Cache.Payload
import Stencil.Proofs.Cache.Stores
import Stencil.Proofs.Disk.Ways

/-!
# The store in files

A store that keeps every entry in a file of its own answers for a key what was put last under a key
with the same file name. A key of plain characters is the name of its file; for any other key its
digest is. As digests are made of plain characters too, a key shares its file with its digest, and
with every key of the same digest that is not plain itself, and with no other. Where none of the
keys in use share a file, the store is a map.
-/

namespace Stencil

namespace CacheStore

/-! ## Names of cache files -/

/-- Whether a key is made of plain characters. -/
def isPlainKey (key : String) : Bool := key ≠ "" && key.toList.all isPlainKeyChar

/-- The digest that a key which is not plain is stored under. -/
def digest (key : String) : String := Sha256.hexDigest key.toUTF8.toList

theorem fileStem_of_plain {key : String} (h : isPlainKey key = true) : fileStem key = key.toList :=
  if_pos h

theorem fileStem_of_not_plain {key : String} (h : isPlainKey key = false) :
    fileStem key = (digest key).toList :=
  if_neg (fun h' => Bool.false_ne_true (h.symm.trans h'))

theorem isPlainKeyChar_digitChar {n : Nat} (h : n < 16) :
    isPlainKeyChar (Nat.digitChar n) = true := by
  have hall : ∀ n < 16, isPlainKeyChar (Nat.digitChar n) = true := by decide
  exact hall n h

/-- Digests are plain keys themselves. -/
theorem isPlainKey_digest (key : String) : isPlainKey (digest key) = true := by
  rw [isPlainKey, Bool.and_eq_true]
  constructor
  · have hlength : (digest key).toList ≠ [] := by
      rw [digest, Sha256.hexDigest, String.toList_ofList, Sha256.digestWords]
      exact List.cons_ne_nil _ _
    simpa using hlength
  · rw [List.all_eq_true, digest, Sha256.hexDigest, String.toList_ofList]
    intro c hc
    obtain ⟨w, -, hc⟩ := List.mem_flatMap.mp hc
    obtain ⟨i, -, rfl⟩ := List.mem_map.mp hc
    exact isPlainKeyChar_digitChar (Nat.mod_lt _ (by decide))

theorem isPlainKeyChar_of_mem_fileStem {key : String} {c : Char} (h : c ∈ fileStem key) :
    isPlainKeyChar c = true := by
  have hplain : ∀ {k : String}, isPlainKey k = true → c ∈ k.toList → isPlainKeyChar c = true :=
    fun hk hc => List.all_eq_true.mp (Bool.and_eq_true_iff.mp hk).2 c hc
  cases hkey : isPlainKey key with
  | true => exact hplain hkey (fileStem_of_plain hkey ▸ h)
  | false => exact hplain (isPlainKey_digest key) (fileStem_of_not_plain hkey ▸ h)

/-- The name of a cache file is a name of an entry. -/
theorem isName_fileName (key : String) : FilePath.IsName (fileName key) where
  slash := by
    rw [fileName, List.mem_append, not_or]
    refine ⟨fun h => ?_, by decide⟩
    exact absurd (isPlainKeyChar_of_mem_fileStem h) (by decide)
  void := by
    rw [fileName, FilePath.isVoid]
    cases fileStem key with
    | nil => decide
    | cons c s => simp [fileExtension]
  parent := by
    rw [fileName]
    intro h
    have hlength := congrArg List.length h
    rw [List.length_append] at hlength
    simp [fileExtension] at hlength

/-- The first key is stored under its digest, and the second under the same name: as a plain key
that is the digest, or by the same digest. -/
def Shares (key key' : String) : Prop :=
  isPlainKey key = false ∧
    (key' = digest key ∨ isPlainKey key' = false ∧ digest key' = digest key)

instance (key key' : String) : Decidable (Shares key key') := inferInstanceAs (Decidable (_ ∧ _))

/-- Two keys have one file when they are one key, or one of them is stored under a digest that is
the other key or the digest of the other key. -/
theorem fileName_eq_iff (key key' : String) :
    fileName key = fileName key' ↔ key = key' ∨ Shares key key' ∨ Shares key' key := by
  rw [fileName, fileName, List.append_left_inj]
  cases hkey : isPlainKey key with
  | true =>
    rw [fileStem_of_plain hkey]
    cases hkey' : isPlainKey key' with
    | true =>
      rw [fileStem_of_plain hkey', String.toList_inj]
      simp [Shares, hkey, hkey']
    | false =>
      rw [fileStem_of_not_plain hkey', String.toList_inj]
      have hne : key ≠ key' := fun heq => by simp [heq, hkey'] at hkey
      simp [Shares, hkey, hkey', hne]
  | false =>
    rw [fileStem_of_not_plain hkey]
    cases hkey' : isPlainKey key' with
    | true =>
      rw [fileStem_of_plain hkey', String.toList_inj]
      have hne : key ≠ key' := fun heq => by simp [heq, hkey'] at hkey
      simp [Shares, hkey, hkey', hne, eq_comm]
    | false =>
      rw [fileStem_of_not_plain hkey', String.toList_inj]
      simp only [Shares, hkey, hkey', true_and]
      constructor
      · exact fun h => .inr (.inl (.inr h.symm))
      · -- a key that is not plain is no digest
        rintro (rfl | (rfl | h) | (rfl | h))
        · rfl
        · simp [isPlainKey_digest] at hkey'
        · exact h.symm
        · simp [isPlainKey_digest] at hkey
        · exact h

/-! ## Calls -/

/-- A call on a store. -/
inductive Call where
  /-- Asks for the bytes under a key. -/
  | get (key : String)
  /-- Puts bytes under a key. -/
  | put (key : String) (bytes : ByteArray)

/-- The key that a call names. -/
def Call.key : Call → String
  | .get key => key
  | .put key _ => key

/-- The bytes that a call puts under a key that is meant. -/
def Call.written? (meant : String → Bool) : Call → Option ByteArray
  | .get _ => none
  | .put key bytes => if meant key then some bytes else none

/-- The bytes put last under a key that is meant. -/
def lastPut? (meant : String → Bool) (calls : List Call) : Option ByteArray :=
  calls.reverse.findSome? (Call.written? meant)

theorem lastPut?_concat (meant : String → Bool) (calls : List Call) (call : Call) :
    lastPut? meant (calls ++ [call]) = (call.written? meant).or (lastPut? meant calls) := by
  rw [lastPut?, List.reverse_concat, List.findSome?_cons, lastPut?]
  cases call.written? meant <;> rfl

theorem lastPut?_congr {meant meant' : String → Bool} {calls : List Call}
    (h : ∀ call ∈ calls, meant call.key = meant' call.key) :
    lastPut? meant calls = lastPut? meant' calls := by
  induction calls using List.reverseRecOn with
  | nil => rfl
  | append_singleton calls call ih =>
    have hcall := h call (List.mem_append_right _ List.mem_cons_self)
    rw [lastPut?_concat, lastPut?_concat, ih fun c hc => h c (List.mem_append_left _ hc)]
    cases call with
    | get key => rfl
    | put key bytes =>
      rw [Call.key] at hcall
      rw [Call.written?, Call.written?, hcall]

/-- What a map from keys to bytes answers to a call after others, if two keys are meant to be one
where `same` says so: a get what was put last, a put nothing. -/
def Call.due (same : String → String → Bool) (before : List Call) : Call → Option ByteArray
  | .get key => lastPut? (same key) before
  | .put _ _ => none

section Serve

variable {σ : Type}

/-- What a store answers to a call, and its state from then on. A put answers nothing, and changes
nothing when it fails. -/
def serve (store : CacheStore σ) (s : σ) : Call → Except Error (Option ByteArray) × σ
  | .get key => (store.get s key, s)
  | .put key bytes =>
    match store.put s key bytes with
    | .ok s' => (.ok none, s')
    | .error e => (.error e, s)

/-- What a store answers to one call after another. -/
def serveAll (store : CacheStore σ) : σ → List Call → List (Except Error (Option ByteArray))
  | _, [] => []
  | s, call :: calls => (store.serve s call).1 :: store.serveAll (store.serve s call).2 calls

/-- By induction on the calls: a store that answers one call after others with what is due, and goes
on in the same way, answers every call of a run with what is due. -/
theorem serveAll_of_serve {store : CacheStore σ} {same : String → String → Bool}
    {Keeps : σ → List Call → Prop}
    (hserve : ∀ s before call, Keeps s before →
      (store.serve s call).1 = .ok (call.due same before) ∧
        Keeps (store.serve s call).2 (before ++ [call]))
    {s : σ} {before calls : List Call} (h : Keeps s before) {i : Nat} {call : Call}
    (hcall : calls[i]? = some call) :
    (store.serveAll s calls)[i]? = some (.ok (call.due same (before ++ calls.take i))) := by
  induction calls generalizing s before i with
  | nil => cases hcall
  | cons first calls ih =>
    obtain ⟨hanswer, hkeeps⟩ := hserve s before first h
    rw [serveAll]
    cases i with
    | zero =>
      obtain rfl : first = call := by simpa using hcall
      rw [List.getElem?_cons_zero, hanswer, List.take_zero, List.append_nil]
    | succ i =>
      rw [List.getElem?_cons_succ] at hcall ⊢
      rw [ih hkeeps hcall, List.append_assoc, List.take_succ_cons, List.singleton_append]

end Serve

/-- Whether two keys are one. -/
def sameKey (key key' : String) : Bool := key' = key

/-- The store in memory is a map: every get answers what was put last under exactly its key. -/
theorem memory_serveAll (calls : List Call) {i : Nat} {call : Call}
    (hcall : calls[i]? = some call) :
    (memory.serveAll [] calls)[i]? = some (.ok (call.due sameKey (calls.take i))) := by
  have hserve : ∀ (entries : Dict ByteArray) (before : List Call) (call : Call),
      (∀ key, entries.get? key = lastPut? (sameKey key) before) →
      (memory.serve entries call).1 = .ok (call.due sameKey before) ∧
        ∀ key, Dict.get? (memory.serve entries call).2 key =
          lastPut? (sameKey key) (before ++ [call]) := by
    intro entries before call h
    cases call with
    | get key =>
      refine ⟨congrArg Except.ok (h key), fun k => ?_⟩
      rw [lastPut?_concat, Call.written?, Option.none_or]
      exact h k
    | put key bytes =>
      refine ⟨rfl, fun k => ?_⟩
      change Dict.get? (Dict.set entries key bytes) k = _
      rw [Dict.get?_set, lastPut?_concat, Call.written?, sameKey, h k]
      by_cases hk : key = k
      · rw [if_pos hk, if_pos (by simp [hk])]
        rfl
      · rw [if_neg hk, if_neg (by simp [hk]), Option.none_or]
  have hempty : ∀ key, Dict.get? ([] : Dict ByteArray) key = lastPut? (sameKey key) [] :=
    fun _ => rfl
  exact serveAll_of_serve hserve hempty hcall

/-! ## Calls on a directory -/

section Directory

variable {disk disk' : Disk} {dir : FilePath} {place : Place}

/-- While the directory is not there, a get finds nothing. -/
theorem get_of_missing (hmissing : disk.walk (disk.origin dir) dir.pieces = .error .notFound)
    (key : String) : (files dir).get disk key = .ok none := by
  have hlocate : disk.locate (dir.join (fileName key)) = .error .notFound := by
    rw [Disk.locate_join (isName_fileName key), hmissing]
    rfl
  simp only [files, Disk.read_of_locate_error hlocate]

/-- A get answers with the file of its key. -/
theorem get_of_walk {key : String} {bytes? : Option ByteArray} (hunlimited : disk.nameLimit? = none)
    (hwalk : disk.walk (disk.origin dir) dir.pieces = .ok place)
    (hplace : disk.hasDirectory place = true)
    (hentry : disk.get? (place ++ [fileName key]) = bytes?.map .file) :
    (files dir).get disk key = .ok bytes? := by
  have hname := isName_fileName key
  have hlocate : disk.locate (dir.join (fileName key)) = disk.walk place [fileName key] := by
    rw [Disk.locate_join hname, hwalk]
    rfl
  rw [Disk.walk_name hname hunlimited hplace, hentry] at hlocate
  cases bytes? with
  | none =>
    rw [if_pos (by simp)] at hlocate
    simp only [files, Disk.read_of_locate_error hlocate]
  | some bytes =>
    rw [if_neg (by simp)] at hlocate
    simp only [files, Disk.read_of_locate hlocate hentry]

/-- A put writes the file of its key into the directory, as soon as that is made. -/
theorem put_of_makeDirectories {key : String} (bytes : ByteArray)
    (hmade : disk.makeDirectories dir = .ok disk') (hunlimited : disk'.nameLimit? = none)
    (hwalk : disk'.walk (disk'.origin dir) dir.pieces = .ok place)
    (hplace : disk'.hasDirectory place = true)
    (hfile : disk'.hasDirectory (place ++ [fileName key]) = false) :
    (files dir).put disk key bytes = .ok (disk'.set (place ++ [fileName key]) (.file bytes)) := by
  have hadmits : disk'.admits (fileName key) = true := by rw [Disk.admits, hunlimited]
  have hwrite : disk'.writeIn dir (fileName key) bytes =
      .ok (disk'.set (place ++ [fileName key]) (.file bytes)) := by
    rw [Disk.writeIn, hwalk]
    simp [bind, Except.bind, hplace, hadmits, hfile, pure, Except.pure]
  simp only [files, hmade, bind, Except.bind, hwrite]

end Directory

/-! ## What the directory holds -/

/-- A directory that a store can be kept in: names may have any length, the directory is there or
can be made, and it holds no cache files yet. -/
structure Ready (disk : Disk) (dir : FilePath) : Prop where
  /-- Names of any length. -/
  unlimited : disk.nameLimit? = none
  /-- A directory without cache files. -/
  vacant : ∃ disk', disk.makeDirectories dir = .ok disk' ∧
    ∀ place key, disk'.walk (disk'.origin dir) dir.pieces = .ok place →
      disk'.get? (place ++ [fileName key]) = none

/-- Whether two keys have one file. -/
def sameFile (key key' : String) : Bool := fileName key' = fileName key

/-- After the calls `before` the file of each key holds what was put last under a key of that file.
The directory is made with the first file. -/
structure Keeps (disk : Disk) (dir : FilePath) (before : List Call) : Prop where
  /-- Names of any length. -/
  unlimited : disk.nameLimit? = none
  /-- The files of the directory, as soon as it is made. -/
  opened : ∃ disk' place, disk.makeDirectories dir = .ok disk' ∧
    disk'.walk (disk'.origin dir) dir.pieces = .ok place ∧ disk'.hasDirectory place = true ∧
      ∀ key, disk'.get? (place ++ [fileName key]) = (lastPut? (sameFile key) before).map .file
  /-- Nothing was put while the directory is not there. -/
  missing : disk.walk (disk.origin dir) dir.pieces = .error .notFound →
    ∀ key, lastPut? (sameFile key) before = none

variable {disk : Disk} {dir : FilePath} {before : List Call}

theorem Ready.keeps (h : Ready disk dir) : Keeps disk dir [] where
  unlimited := h.unlimited
  opened := by
    obtain ⟨disk', hmade, hvacant⟩ := h.vacant
    obtain ⟨-, place, hwalk, hplace⟩ := Disk.grows_makeDirectories hmade
    exact ⟨disk', place, hmade, hwalk, hplace, fun key => hvacant place key hwalk⟩
  missing := fun _ _ => rfl

/-- A get answers what was put last under a key of the same file. -/
theorem Keeps.get_eq (h : Keeps disk dir before) (key : String) :
    (files dir).get disk key = .ok (lastPut? (sameFile key) before) := by
  obtain ⟨disk', place, hmade, hwalk', -, hcontent⟩ := h.opened
  rcases Disk.walk_of_makeWay hmade with ⟨goal, hwalk, hgoal⟩ | hmissing
  · -- the directory is there, and so nothing is made
    obtain rfl : disk = disk' := Except.ok.inj ((Disk.makeWay_of_walk hwalk hgoal).symm.trans hmade)
    obtain rfl : goal = place := Except.ok.inj (hwalk.symm.trans hwalk')
    exact get_of_walk h.unlimited hwalk hgoal (hcontent key)
  · rw [h.missing hmissing]
    exact get_of_missing hmissing key

/-- A put is carried out, and changes the file of its key and no other. -/
theorem Keeps.put_eq (h : Keeps disk dir before) (key : String) (bytes : ByteArray) :
    ∃ disk', (files dir).put disk key bytes = .ok disk' ∧
      Keeps disk' dir (before ++ [.put key bytes]) := by
  obtain ⟨disk', place, hmade, hwalk, hplace, hcontent⟩ := h.opened
  have hunlimited : disk'.nameLimit? = none :=
    (Disk.grows_makeDirectories hmade).1.nameLimit?.trans h.unlimited
  have htarget : place ++ [fileName key] ≠ [] := by simp
  have hfile : disk'.hasDirectory (place ++ [fileName key]) = false := by
    rw [Disk.hasDirectory, hcontent]
    cases lastPut? (sameFile key) before <;> rfl
  let disk'' := disk'.set (place ++ [fileName key]) (.file bytes)
  have hwalk' : disk''.walk (disk''.origin dir) dir.pieces = .ok place :=
    Disk.walk_set_file htarget hfile hwalk hplace
  have hplace' : disk''.hasDirectory place = true := Disk.hasDirectory_set_file htarget hfile hplace
  refine ⟨disk'', put_of_makeDirectories bytes hmade hunlimited hwalk hplace hfile,
    hunlimited, ?_, ?_⟩
  · refine ⟨disk'', place, Disk.makeWay_of_walk hwalk' hplace', hwalk', hplace', fun k => ?_⟩
    rw [Disk.get?_set _ _ _ _ htarget, hcontent, lastPut?_concat, Call.written?, sameFile]
    by_cases hk : fileName k = fileName key
    · rw [if_pos (by rw [hk]), if_pos (by simp [hk])]
      rfl
    · rw [if_neg (by simp [hk]), if_neg (by simp [Ne.symm hk]), Option.none_or]
  · intro hmissing
    rw [hwalk'] at hmissing
    cases hmissing

/-- One call: the store answers what is due, and goes on in the same way. -/
theorem Keeps.serve (h : Keeps disk dir before) (call : Call) :
    ((files dir).serve disk call).1 = .ok (call.due sameFile before) ∧
      Keeps ((files dir).serve disk call).2 dir (before ++ [call]) := by
  cases call with
  | get key =>
    rw [CacheStore.serve]
    refine ⟨h.get_eq key, h.unlimited, ?_, ?_⟩
    · simpa only [lastPut?_concat, Call.written?, Option.none_or] using h.opened
    · simpa only [lastPut?_concat, Call.written?, Option.none_or] using h.missing
  | put key bytes =>
    obtain ⟨disk', hput, hkeeps⟩ := h.put_eq key bytes
    rw [CacheStore.serve, hput]
    exact ⟨rfl, hkeeps⟩

/-- None of the keys in use has its file in common with another one. -/
def KeysApart (calls : List Call) : Prop :=
  ∀ call ∈ calls, ∀ call' ∈ calls, call.key ≠ call'.key → ¬ Shares call.key call'.key

/-- Among keys that are apart, one file is one key. -/
theorem KeysApart.due_eq {calls : List Call} (h : KeysApart calls) {call : Call}
    (hcall : call ∈ calls) (hbefore : before ⊆ calls) :
    call.due sameFile before = call.due sameKey before := by
  cases call with
  | put _ _ => rfl
  | get key =>
    refine lastPut?_congr fun call' hcall' => ?_
    rw [sameFile, sameKey, decide_eq_decide]
    refine ⟨fun heq => ?_, fun heq => congrArg fileName heq⟩
    by_contra hne
    rcases (fileName_eq_iff _ _).mp heq with heq | hshares | hshares
    · exact hne heq
    · exact h _ (hbefore hcall') _ hcall hne hshares
    · exact h _ hcall _ (hbefore hcall') (Ne.symm hne) hshares

/-- A store in the files of a directory answers every call, whatever the calls are. A put succeeds,
and a get answers what was put last under a key of the same file; that is the key itself, and where
the key or the other is not plain, its digest or another key of the same digest. So where none of
the keys in use share a file, every get answers what was put last under exactly its key, and nothing
if there was no such put. -/
theorem files_serveAll {disk : Disk} {dir : FilePath} (h : Ready disk dir) (calls : List Call) :
    (∀ (i : Nat) (call : Call), calls[i]? = some call →
      ((files dir).serveAll disk calls)[i]? = some (.ok (call.due sameFile (calls.take i)))) ∧
    (∀ key key', sameFile key key' = true ↔ key = key' ∨ Shares key key' ∨ Shares key' key) ∧
    (KeysApart calls → ∀ (i : Nat) (call : Call), calls[i]? = some call →
      ((files dir).serveAll disk calls)[i]? =
        some (.ok (call.due sameKey (calls.take i)))) := by
  have hanswers : ∀ (i : Nat) (call : Call), calls[i]? = some call →
      ((files dir).serveAll disk calls)[i]? = some (.ok (call.due sameFile (calls.take i))) := by
    intro i call hcall
    exact serveAll_of_serve (fun _ _ call h => Keeps.serve h call) h.keeps hcall
  refine ⟨hanswers, fun key key' => ?_, fun hapart i call hcall => ?_⟩
  · rw [sameFile, decide_eq_true_iff, eq_comm, fileName_eq_iff]
  · rw [hanswers i call hcall,
      hapart.due_eq (List.mem_of_getElem? hcall) (List.take_subset i calls)]

/-- A disk with nothing on it. -/
def emptyDisk : Disk := ⟨[], [], none⟩

theorem ready_emptyDisk : Ready emptyDisk ['c'] where
  unlimited := rfl
  vacant := by
    refine ⟨⟨[([['c']], .directory)], [], none⟩, rfl, fun place key hwalk => ?_⟩
    obtain rfl : [['c']] = place := Except.ok.inj hwalk
    rfl

/-- What the key `a b` is stored under. -/
def storedName : String := "c8687a08aa5d6ed2044328fa6a697ab8e96dc34291e8c2034ae8c38e6fcc6d65"

theorem digest_eq_storedName : digest "a b" = storedName := by
  have hbytes : "a b".toUTF8.data.toList = [97, 32, 98] := by decide +kernel
  rw [digest, Cache.toList_eq_data, hbytes]
  decide +kernel

/-- Calls that use a key that is not plain, but not its digest. -/
def plainCalls : List Call :=
  [.put "a b" ⟨#[120]⟩, .put "page" ⟨#[121]⟩, .get "a b", .get "page", .get "a-b"]

theorem keysApart_plainCalls : KeysApart plainCalls := by
  have hkey : ∀ call ∈ plainCalls, isPlainKey call.key = false → call.key = "a b" := by
    decide +kernel
  have hname : ∀ call ∈ plainCalls, call.key ≠ storedName := by decide +kernel
  rintro call hcall call' hcall' hne ⟨hplain, hdigest | ⟨hplain', -⟩⟩
  · rw [hkey call hcall hplain, digest_eq_storedName] at hdigest
    exact hname call' hcall' hdigest
  · exact hne ((hkey call hcall hplain).trans (hkey call' hcall' hplain').symm)

theorem files_serveAll_plainCalls :
    Ready emptyDisk ['c'] ∧ KeysApart plainCalls ∧
    ((files ['c']).serveAll emptyDisk plainCalls)[2]? = some (.ok (some ⟨#[120]⟩)) :=
  ⟨ready_emptyDisk, keysApart_plainCalls,
    (files_serveAll ready_emptyDisk plainCalls).2.2 keysApart_plainCalls 2 (.get "a b") rfl⟩

/-- A get under the digest of another key answers what was put under that key, although nothing was
put under the digest itself; the store in memory answers nothing. -/
theorem files_serveAll_storedName :
    Ready emptyDisk ['c'] ∧
    ((files ['c']).serveAll emptyDisk [.put "a b" ⟨#[120]⟩, .get storedName])[1]? =
      some (.ok (some ⟨#[120]⟩)) ∧
    (Call.get storedName).due sameKey [.put "a b" ⟨#[120]⟩] = none ∧
    (memory.serveAll [] [.put "a b" ⟨#[120]⟩, .get storedName])[1]? = some (.ok none) := by
  have hshares : Shares "a b" storedName :=
    ⟨by decide +kernel, .inl digest_eq_storedName.symm⟩
  have hsame : sameFile storedName "a b" = true :=
    decide_eq_true ((fileName_eq_iff _ _).mpr (.inr (.inl hshares)))
  have hlast : lastPut? (sameFile storedName) [.put "a b" ⟨#[120]⟩] = some ⟨#[120]⟩ := by
    rw [← List.nil_append [_], lastPut?_concat, Call.written?, if_pos hsame]
    rfl
  have hdue : (Call.get storedName).due sameKey [.put "a b" ⟨#[120]⟩] = none := by decide +kernel
  refine ⟨ready_emptyDisk, ?_, hdue, ?_⟩
  · rw [serveAll_of_serve (fun _ _ call h => Keeps.serve h call) ready_emptyDisk.keeps rfl]
    exact congrArg (fun bytes => some (Except.ok bytes)) hlast
  · have hcall : [Call.put "a b" ⟨#[120]⟩, .get storedName][1]? = some (.get storedName) := rfl
    exact (memory_serveAll _ hcall).trans (congrArg (fun bytes => some (Except.ok bytes)) hdue)

end CacheStore

end Stencil
