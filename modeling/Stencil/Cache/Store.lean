import Stencil.Dict
import Stencil.Disk.Basic
import Stencil.Error
import Stencil.Sha256

/-!
# Cache stores

A store keeps bytes under keys. One kind keeps them in memory, another in the files of a
directory, one file for a key. What a store works on is its state, which it is handed and hands
back.

A store may fail. To a render that does not matter: a failing read is a miss, so is an entry
that is no text, and a failing write stores nothing.
-/

namespace Stencil

/-- A store of bytes by key, working on a state. -/
structure CacheStore (σ : Type) where
  /-- The bytes under a key. -/
  get : σ → String → Except Error (Option ByteArray)
  /-- Puts bytes under a key. -/
  put : σ → String → ByteArray → Except Error σ

namespace CacheStore

variable {σ : Type}

/-- The text under a key. -/
def lookup? (store : CacheStore σ) (s : σ) (key : String) : Option Text :=
  match store.get s key with
  | .ok (some bytes) => (String.fromUTF8? bytes).map String.toList
  | _ => none

/-- Puts a text under a key. -/
def keep (store : CacheStore σ) (s : σ) (key : String) (content : Text) : σ :=
  match store.put s key (String.ofList content).toUTF8 with
  | .ok s => s
  | .error _ => s

/-- A store in memory. -/
def memory : CacheStore (Dict ByteArray) where
  get entries key := .ok (entries.get? key)
  put entries key bytes := .ok (entries.set key bytes)

/-- A store that always fails. -/
def failing : CacheStore σ where
  get _ key := .error (.cacheRead key)
  put _ key _ := .error (.cacheWrite key)

/-- A store that works on one part of a state. -/
def within {τ : Type} (store : CacheStore σ) (part : τ → σ) (replace : τ → σ → τ) :
    CacheStore τ where
  get t key := store.get (part t) key
  put t key bytes := (store.put (part t) key bytes).map (replace t)

/-- What the names of cache files end in. -/
def fileExtension : Text := "cache".toList

/-- A character that stands for itself in the name of a cache file. -/
def isPlainKeyChar (c : Char) : Bool := isLetter c || isDigit c || c = '-' || c = '_'

/-- What the name of the cache file of a key starts with: the key, if it is made of plain
characters, and its digest otherwise. -/
def fileStem (key : String) : Text :=
  if key ≠ "" && key.toList.all isPlainKeyChar then key.toList
  else (Sha256.hexDigest key.toUTF8.toList).toList

/-- The name of the cache file of a key. -/
def fileName (key : String) : Text := fileStem key ++ '.' :: fileExtension

/-- A store of the files of a directory, which is made when it is needed. -/
def files (dir : FilePath) : CacheStore Disk where
  get disk key :=
    match disk.read (dir.join (fileName key)) with
    | .ok bytes => .ok (some bytes)
    | .error .notFound => .ok none
    | .error _ => .error (.cacheRead key)
  put disk key bytes :=
    match (do (← disk.makeDirectories dir).writeIn dir (fileName key) bytes) with
    | .ok disk => .ok disk
    | .error _ => .error (.cacheWrite key)

end CacheStore

/-- Removes the cache files of a directory, and counts them. Other files, and those of inner
directories, stay. -/
def Disk.removeCacheFiles (disk : Disk) (dir : FilePath) : Except Error (Nat × Disk) :=
  match disk.locate dir with
  | .error _ => .ok (0, disk)
  | .ok place =>
    if disk.hasDirectory place then
      let entries := (disk.entries place).filter fun (name, _) =>
        FilePath.extensionOf? name = some CacheStore.fileExtension
      if entries.any fun (_, node) => node matches .directory then
        .error (.io "a directory has the name of a cache file")
      else
        .ok (entries.length,
          entries.foldl (fun disk (name, _) => disk.erase (place ++ [name])) disk)
    else .ok (0, disk)

end Stencil
