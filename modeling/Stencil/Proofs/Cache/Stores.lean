import Stencil.Cache.Store
import Stencil.Proofs.Dict

/-!
# Stores that fail and forget

A store may fail on any call and lose entries at any time. What it is trusted with is that it makes
nothing up: an answer under a key was put under that key. A reliable store, besides, keeps what is
put and never fails. The store in memory is both.
-/

namespace Stencil

namespace CacheStore

variable {σ : Type}

/-- What a store that fails and forgets is still trusted with. `Holds s key bytes` says that the
store may yet answer `bytes` for `key`; nothing but a put makes it so. By itself the store may
`drift`, as when it loses entries. -/
structure Honest (store : CacheStore σ) (drift : σ → σ → Prop)
    (Holds : σ → String → ByteArray → Prop) : Prop where
  /-- An answer is something the store holds. -/
  get_holds : ∀ {s key bytes}, store.get s key = .ok (some bytes) → Holds s key bytes
  /-- A put adds what was put and nothing else. -/
  put_holds : ∀ {s s' key bytes k b}, store.put s key bytes = .ok s' → Holds s' k b →
    Holds s k b ∨ k = key ∧ b = bytes
  /-- What the store does by itself adds nothing. -/
  drift_holds : ∀ {s s' k b}, drift s s' → Holds s' k b → Holds s k b

/-- A store that never fails and never forgets. -/
structure Reliable (store : CacheStore σ) (drift : σ → σ → Prop) : Prop where
  /-- What is put is answered from then on, and other answers stay. -/
  put_get : ∀ s key bytes, ∃ s', store.put s key bytes = .ok s' ∧
    ∀ k, store.get s' k = if k = key then .ok (some bytes) else store.get s k
  /-- What the store does by itself changes no answer. -/
  drift_get : ∀ {s s'}, drift s s' → ∀ k, store.get s' k = store.get s k

/-- A store in memory that can be out of order, for reading and for writing. -/
structure Faulty where
  /-- The bytes put last under each key, unless they are lost. -/
  entries : Dict ByteArray
  /-- Whether reading works. -/
  readable : Bool
  /-- Whether writing works. -/
  writable : Bool

/-- A store that fails while it is out of order. -/
def faulty : CacheStore Faulty where
  get s key := if s.readable then .ok (s.entries.get? key) else .error (.cacheRead key)
  put s key bytes :=
    if s.writable then .ok { s with entries := s.entries.set key bytes }
    else .error (.cacheWrite key)

/-- The store breaks down or comes up again, and may lose entries. -/
def Faulty.drift (s s' : Faulty) : Prop :=
  ∀ k b, s'.entries.get? k = some b → s.entries.get? k = some b

/-- A store that fails on any call, loses entries at any time and otherwise answers the bytes put
last is an honest one. -/
theorem faulty_honest :
    faulty.Honest Faulty.drift fun s k b => s.entries.get? k = some b where
  get_holds := by
    intro s key bytes h
    simp only [faulty] at h
    split at h
    · exact Except.ok.inj h
    · cases h
  put_holds := by
    intro s s' key bytes k b h hk
    simp only [faulty] at h
    split at h
    · rw [← Except.ok.inj h] at hk
      exact Dict.eq_some_of_get?_set hk
    · cases h
  drift_holds := fun hd hk => hd _ _ hk

/-- The store in memory is honest and reliable. -/
theorem memory_honest : memory.Honest Eq fun s k b => Dict.get? s k = some b where
  get_holds := fun h => Except.ok.inj h
  put_holds := by
    intro s s' key bytes k b h hk
    rw [← Except.ok.inj h] at hk
    exact Dict.eq_some_of_get?_set hk
  drift_holds := fun hd hk => hd ▸ hk

theorem memory_empty (key : String) (bytes : ByteArray) :
    ¬ Dict.get? ([] : Dict ByteArray) key = some bytes :=
  nofun

theorem memory_reliable : memory.Reliable Eq where
  put_get := by
    intro s key bytes
    refine ⟨_, rfl, fun k => ?_⟩
    change Except.ok (Dict.get? (Dict.set s key bytes) k) = _
    rw [Dict.get?_set]
    by_cases h : k = key
    · rw [if_pos h.symm, if_pos h]
    · rw [if_neg (Ne.symm h), if_neg h]
      rfl
  drift_get := fun hd _ => hd ▸ rfl

theorem fromUTF8?_toUTF8 (s : String) : String.fromUTF8? s.toUTF8 = some s :=
  dif_pos (show s.toUTF8.IsValidUTF8 from s.isValidUTF8)

variable {store : CacheStore σ} {drift : σ → σ → Prop}

/-- Text that is looked up was kept as its bytes. -/
theorem lookup?_eq_some {s : σ} {key : String} {content : Text}
    (h : store.lookup? s key = some content) :
    store.get s key = .ok (some (String.ofList content).toUTF8) := by
  rw [lookup?] at h
  split at h
  · rename_i bytes hget
    obtain ⟨str, hstr, rfl⟩ := Option.map_eq_some_iff.mp h
    rw [hget, String.ofList_toList]
    rw [String.fromUTF8?] at hstr
    split at hstr
    · rw [← Option.some.inj hstr]
      rfl
    · cases hstr
  · cases h

/-- In a reliable store a text that is kept can be looked up, and so can all that was there. -/
theorem Reliable.lookup?_keep (h : store.Reliable drift) (s : σ) (key : String) (content : Text)
    (k : String) :
    store.lookup? (store.keep s key content) k =
      if k = key then some content else store.lookup? s k := by
  obtain ⟨s', hput, hget⟩ := h.put_get s key (String.ofList content).toUTF8
  rw [keep, hput]
  by_cases hk : k = key
  · simp only [lookup?, hget, if_pos hk, fromUTF8?_toUTF8, Option.map_some, String.toList_ofList]
  · simp only [lookup?, hget, if_neg hk]

end CacheStore

end Stencil
