import Mathlib.Data.List.Infix
import Stencil.Command.Assignment
import Stencil.Proofs.Dict

/-!
# Values at paths

Setting a value at a path makes the objects on the way, and what stands in the way gives way to
them. A later value replaces an earlier one without a trace. Paths of which neither is a prefix of
the other part at some name and go different ways from there, so what is set at one of them is not
seen at the other. Past a path that is set, there is what the value holds.
-/

namespace Stencil

section Parted

variable {α β : Type} {path other : List α}

/-- Two paths that part: after the same names they go on with different ones. -/
inductive Parted : List α → List α → Prop
  /-- They part at once. -/
  | here {key key' : α} (path other : List α) (hne : key ≠ key') :
      Parted (key :: path) (key' :: other)
  /-- They part later. -/
  | later (key : α) {path other : List α} (h : Parted path other) :
      Parted (key :: path) (key :: other)

theorem Parted.ne_nil (h : Parted path other) : path ≠ [] ∧ other ≠ [] := by
  cases h <;> simp

theorem Parted.symm (h : Parted path other) : Parted other path := by
  induction h with
  | here path other hne => exact .here other path hne.symm
  | later key _ ih => exact .later key ih

theorem Parted.map (h : Parted path other) {f : α → β} (hf : Function.Injective f) :
    Parted (path.map f) (other.map f) := by
  induction h with
  | here path other hne => exact .here _ _ (hf.ne hne)
  | later key _ ih => exact .later (f key) ih

/-- Paths part where neither is a prefix of the other. -/
theorem parted_of_not_prefix (h : ¬ path <+: other) (h' : ¬ other <+: path) :
    Parted path other := by
  induction path generalizing other with
  | nil => exact absurd List.nil_prefix h
  | cons key path ih =>
    cases other with
    | nil => exact absurd List.nil_prefix h'
    | cons key' other =>
      by_cases hkey : key = key'
      · subst hkey
        rw [List.prefix_cons_inj] at h h'
        exact .later key (ih h h')
      · exact .here path other hkey

end Parted

namespace Members

variable {members members' : Members} {key : String} {path other rest : List String} {v w : Json}

theorem pathOf_ne_nil (p : Text) : Assignment.pathOf p ≠ [] := by
  rw [Assignment.pathOf, ne_eq, List.map_eq_nil_iff]
  exact Text.splitOn_ne_nil '.' p

/-- What paths go on in from a value: the members of an object, and nothing in anything else. -/
def inside : Option Json → Members
  | some (.obj inner) => inner
  | _ => []

/-- The value at a path from a value on, by the members of objects. -/
def beneath? (v : Json) (path : List String) : Option Json := getPath? path (inside (some v))

theorem setPath_cons (hpath : path ≠ []) (v : Json) (key : String) (members : Members) :
    setPath v (key :: path) members =
      members.set key (.obj (setPath v path (inside (members.get? key)))) := by
  obtain ⟨next, path, rfl⟩ := List.exists_cons_of_ne_nil hpath
  rfl

theorem getPath?_nil_members (path : List String) : getPath? path [] = none := by
  cases path with
  | nil => rfl
  | cons key path => cases path <;> rfl

theorem getPath?_cons (hpath : path ≠ []) (key : String) (members : Members) :
    getPath? (key :: path) members = getPath? path (inside (members.get? key)) := by
  obtain ⟨next, path, rfl⟩ := List.exists_cons_of_ne_nil hpath
  rw [getPath?]
  · split
    · rename_i inner hinner
      rw [hinner, inside]
    · rename_i hnone
      have hinside : inside (members.get? key) = [] := by
        rw [inside]
        exact hnone
      rw [hinside, getPath?_nil_members]
  · simp

/-- Only the first name of a path says where to look. -/
theorem getPath?_congr (h : members.get? key = members'.get? key) :
    getPath? (key :: path) members = getPath? (key :: path) members' := by
  cases path with
  | nil => exact h
  | cons next path => rw [getPath?_cons (List.cons_ne_nil _ _),
      getPath?_cons (List.cons_ne_nil _ _), h]

/-- At a path that is set, and past it, there is the value with what it holds. -/
theorem getPath?_setPath_append (hpath : path ≠ []) :
    getPath? (path ++ rest) (setPath v path members) =
      if rest = [] then some v else beneath? v rest := by
  induction path generalizing members with
  | nil => exact absurd rfl hpath
  | cons key path ih =>
    cases path with
    | nil =>
      change getPath? (key :: rest) (members.set key v) = _
      by_cases hrest : rest = []
      · subst hrest
        exact (Dict.get?_set members key key v).trans (by simp)
      · rw [getPath?_cons hrest, Dict.get?_set, if_pos rfl, if_neg hrest, beneath?]
    | cons next path =>
      have hne : next :: path ≠ [] := by simp
      rw [setPath_cons hne, List.cons_append, getPath?_cons (by simp), Dict.get?_set, if_pos rfl]
      exact ih hne

theorem getPath?_setPath (hpath : path ≠ []) : getPath? path (setPath v path members) = some v := by
  have h : getPath? (path ++ []) (setPath v path members) = some v :=
    (getPath?_setPath_append hpath).trans (if_pos rfl)
  rwa [List.append_nil] at h

/-- Only the member of the first name changes. -/
theorem get?_setPath_of_ne {key' : String} (hne : key ≠ key') :
    Dict.get? (setPath v (key :: path) members) key' = members.get? key' := by
  by_cases hpath : path = []
  · subst hpath
    exact (Dict.get?_set members key key' v).trans (if_neg hne)
  · rw [setPath_cons hpath, Dict.get?_set, if_neg hne]

/-- Where another path parts from the one that is set, nothing changes. -/
theorem getPath?_setPath_of_parted (h : Parted path other) :
    getPath? other (setPath v path members) = getPath? other members := by
  induction h generalizing members with
  | here path other hne => exact getPath?_congr (get?_setPath_of_ne hne)
  | later key h ih =>
    obtain ⟨hpath, hother⟩ := h.ne_nil
    rw [setPath_cons hpath, getPath?_cons hother, Dict.get?_set, if_pos rfl, inside, ih,
      getPath?_cons hother]

/-- A later value replaces an earlier one. -/
theorem setPath_setPath (path : List String) (members : Members) (v w : Json) :
    setPath w path (setPath v path members) = setPath w path members := by
  induction path generalizing members with
  | nil => rfl
  | cons key path ih =>
    cases path with
    | nil => exact Dict.set_set members key v w
    | cons next path =>
      have hne : next :: path ≠ [] := by simp
      rw [setPath_cons hne, setPath_cons hne, setPath_cons hne, Dict.set_set, Dict.get?_set,
        if_pos rfl, inside, ih]

/-- **Setting a path updates that path and nothing beside it.** Setting it again gives what setting
the second value alone gives, members in order. Of two paths of which neither is a prefix of the
other, setting one does not change what is found at the other, and both can be set in either order.
What is found past a path is what the value set there holds, whatever was there before. -/
theorem setPath_updates (members : Members) (p q : Text) (v w : Json) :
    let path := Assignment.pathOf p
    let other := Assignment.pathOf q
    setPath w path (setPath v path members) = setPath w path members ∧
    (¬ path <+: other → ¬ other <+: path →
      getPath? other (setPath v path members) = getPath? other members ∧
      (getPath? path (setPath w other (setPath v path members)) = some v ∧
        getPath? other (setPath w other (setPath v path members)) = some w) ∧
      getPath? path (setPath v path (setPath w other members)) = some v ∧
        getPath? other (setPath v path (setPath w other members)) = some w) ∧
    ∀ rest, rest ≠ [] → other = path ++ rest →
      getPath? other (setPath v path (setPath w other members)) = beneath? v rest := by
  intro path other
  have hpath : path ≠ [] := pathOf_ne_nil p
  have hother : other ≠ [] := pathOf_ne_nil q
  refine ⟨setPath_setPath path members v w, fun h h' => ?_, fun rest hrest heq => ?_⟩
  · have hparted : Parted path other := parted_of_not_prefix h h'
    refine ⟨getPath?_setPath_of_parted hparted, ⟨?_, getPath?_setPath hother⟩,
      getPath?_setPath hpath, ?_⟩
    · rw [getPath?_setPath_of_parted hparted.symm, getPath?_setPath hpath]
    · rw [getPath?_setPath_of_parted hparted, getPath?_setPath hother]
  · rw [heq, getPath?_setPath_append hpath, if_neg hrest]

/-- Where a user is known by name. -/
def profile : Members := [("user", .obj [("name", .str "Ana")]), ("visits", .int 1)]

theorem setPath_updates_profile :
    let name := Assignment.pathOf "user.name".toList
    let role := Assignment.pathOf "user.role".toList
    let user := Assignment.pathOf "user".toList
    (¬ role <+: name ∧ ¬ name <+: role ∧
      getPath? name (setPath (.str "admin") role profile) = some (.str "Ana")) ∧
    (["name"] ≠ [] ∧ name = user ++ ["name"] ∧
      getPath? name (setPath (.obj [("name", .str "Bo")]) user (setPath (.int 2) name profile)) =
        some (.str "Bo")) := by
  have hrole : ¬ Assignment.pathOf "user.role".toList <+: Assignment.pathOf "user.name".toList := by
    decide
  have hname : ¬ Assignment.pathOf "user.name".toList <+: Assignment.pathOf "user.role".toList := by
    decide
  have hpast : Assignment.pathOf "user.name".toList =
      Assignment.pathOf "user".toList ++ ["name"] := by decide
  obtain ⟨-, hframe, -⟩ := setPath_updates profile "user.role".toList "user.name".toList
    (.str "admin") (.int 2)
  obtain ⟨-, -, hover⟩ := setPath_updates profile "user".toList "user.name".toList
    (.obj [("name", .str "Bo")]) (.int 2)
  exact ⟨⟨hrole, hname, (hframe hrole hname).1.trans rfl⟩, by simp, hpast,
    (hover ["name"] (by simp) hpast).trans rfl⟩

end Members

end Stencil
