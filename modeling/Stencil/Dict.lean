/-!
# Ordered dictionaries

A dictionary keeps its keys in the order of their first mention. Setting a key that is already
there changes the value in place, so an overlay never moves what it overrides.
-/

namespace Stencil

/-- Entries in order; the first entry of a key counts. -/
abbrev Dict (β : Type) := List (String × β)

namespace Dict

variable {β : Type}

/-- The value stored under a key. -/
def get? : Dict β → String → Option β
  | [], _ => none
  | (k, v) :: d, key => if k = key then some v else get? d key

/-- Whether a key is present. -/
def has (d : Dict β) (key : String) : Bool := (d.get? key).isSome

/-- The keys in order. -/
def keys (d : Dict β) : List String := d.map (·.1)

/-- Stores a value: in place if the key is present, at the end otherwise. -/
def set : Dict β → String → β → Dict β
  | [], key, value => [(key, value)]
  | (k, v) :: d, key, value => if k = key then (k, value) :: d else (k, v) :: set d key value

/-- Lays `upper` over a dictionary, entry by entry. -/
def merge (d upper : Dict β) : Dict β := upper.foldl (fun d (k, v) => d.set k v) d

/-- The dictionary of a list of entries, of which the last of a key counts. -/
def ofEntries (entries : List (String × β)) : Dict β := merge [] entries

/-- Every key occurs once. -/
def KeysUnique (d : Dict β) : Prop := d.keys.Nodup

theorem get?_set (d : Dict β) (key other : String) (value : β) :
    (d.set key value).get? other = if key = other then some value else d.get? other := by
  induction d with
  | nil => simp [set, get?]
  | cons e d ih =>
    obtain ⟨k, v⟩ := e
    by_cases h : k = key
    · subst h
      by_cases h' : k = other <;> simp [set, get?, h']
    · by_cases h' : k = other
      · subst h'
        simp [set, get?, h, Ne.symm h]
      · simp [set, get?, h, h', ih]

theorem keys_set (d : Dict β) (key : String) (value : β) :
    (d.set key value).keys = if key ∈ d.keys then d.keys else d.keys ++ [key] := by
  induction d with
  | nil => simp [set, keys]
  | cons e d ih =>
    obtain ⟨k, v⟩ := e
    simp only [keys, set] at ih ⊢
    by_cases h : k = key
    · simp [h]
    · by_cases h' : key ∈ d.map (·.1)
      · simp_all
      · simp_all [Ne.symm h]

theorem KeysUnique.set {d : Dict β} (h : d.KeysUnique) (key : String) (value : β) :
    (d.set key value).KeysUnique := by
  unfold KeysUnique at h ⊢
  rw [keys_set]
  split
  · exact h
  · rename_i hk
    exact List.nodup_append.2 ⟨h, by simp, by
      intro a ha b hb
      obtain rfl := List.mem_singleton.1 hb
      exact fun e => hk (e ▸ ha)⟩

end Dict

end Stencil
