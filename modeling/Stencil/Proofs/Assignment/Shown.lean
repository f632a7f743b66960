import Stencil.Proofs.Assignment.Members
import Stencil.Proofs.Separators.Path
import Stencil.Proofs.Text.Pieces

/-!
# What templates see of an assignment

An assignment stores a value under the names between the points of its key. A template looks for a
path under the names between points and arrows, and goes into lists by number. Where a key has
points only, the two agree, since every step of the way is an object: the template sees what was
assigned. To an assignment an arrow is part of a name, so a key with an arrow leads away from where
templates look.
-/

namespace Stencil

/-! ## Keys and paths -/

namespace Path

variable {s : Text}

theorem splitOn_cons_of_ne {c sep : Char} (hc : c ≠ sep) {piece : Text} {rest : List Text}
    (hs : s.splitOn sep = piece :: rest) : Text.splitOn sep (c :: s) = (c :: piece) :: rest := by
  rw [Text.splitOn, hs]
  exact if_neg hc

theorem splitOn_cons_sep (sep : Char) (s : Text) :
    Text.splitOn sep (sep :: s) = [] :: s.splitOn sep :=
  Text.splitOn_append_cons sep [] s

/-- The pieces between the points of a text are its parts, if it has no arrows; otherwise they part
from them at the first arrow. -/
theorem splitOn_parts (s : Text) :
    if dotted s = s then s.splitOn '.' = parts s else Parted (s.splitOn '.') (parts s) := by
  fun_induction parts s with
  | case1 => rfl
  | case2 s ih =>
    rw [dotted_cons (by decide), splitOn_cons_sep]
    simp only [List.cons.injEq, true_and]
    split at ih
    · rw [if_pos ‹_›, ih]
    · rw [if_neg ‹_›]
      exact .later [] ih
  | case3 s ih =>
    rw [dotted_arrow, if_neg (by simp)]
    obtain ⟨piece, rest, hs⟩ := List.exists_cons_of_ne_nil (Text.splitOn_ne_nil '.' s)
    rw [splitOn_cons_of_ne (by decide) (splitOn_cons_of_ne (by decide) hs)]
    exact .here _ _ (by simp)
  | case4 c s hpoint harrow hnone ih =>
    rw [hnone] at ih
    split at ih
    · exact absurd ih (Text.splitOn_ne_nil '.' s)
    · exact absurd rfl ih.ne_nil.2
  | case5 c s hpoint harrow part rest hparts ih =>
    obtain ⟨piece, rest', hs⟩ := List.exists_cons_of_ne_nil (Text.splitOn_ne_nil '.' s)
    rw [hs, hparts] at ih
    rw [dotted.eq_2 c s harrow, splitOn_cons_of_ne hpoint hs]
    simp only [List.cons.injEq, true_and]
    split at ih
    · rw [if_pos ‹_›]
      simpa using ih
    · rw [if_neg ‹_›]
      cases ih with
      | here _ _ hne => exact .here _ _ (by simpa using hne)
      | later _ h => exact .later _ h

theorem segments_eq_pathOf (h : dotted s = s) : segments s = Assignment.pathOf s := by
  have hparts := splitOn_parts s
  rw [if_pos h] at hparts
  rw [segments, Assignment.pathOf, hparts]

theorem parted_segments (h : dotted s ≠ s) : Parted (Assignment.pathOf s) (segments s) := by
  have hparts := splitOn_parts s
  rw [if_neg h] at hparts
  exact hparts.map fun _ _ => String.ofList_inj.mp

end Path

/-! ## Following names -/

namespace Context

open Value (fieldsOfJson)
open Members (inside getPath? setPath)

variable {members members' : Members} {path other : List String} {key : String} {json v : Json}
  {x : Value}

/-- The value that names lead to, one after another. -/
def follow? (ctx : Context) : List String → Option Value
  | [] => none
  | key :: path => (ctx.get? key).bind fun v => path.foldlM Value.child? v

theorem resolve?_eq_follow? (ctx : Context) (p : Text) :
    ctx.resolve? p = ctx.follow? (Path.segments p) := by
  rw [resolve?]
  cases Path.segments p <;> rfl

theorem follow?_congr {ctx ctx' : Context} (h : ctx.get? key = ctx'.get? key) (path : List String) :
    ctx.follow? (key :: path) = ctx'.follow? (key :: path) := by
  rw [follow?, follow?, h]

/-- Names are followed into an object as into a context. -/
theorem foldlM_object (hpath : path ≠ []) (fields : List (String × Value)) :
    path.foldlM Value.child? (.object fields) = follow? fields path := by
  obtain ⟨key, path, rfl⟩ := List.exists_cons_of_ne_nil hpath
  rfl

theorem get?_fieldsOfJson (members : Members) (key : String) :
    Dict.get? (fieldsOfJson members) key = (members.get? key).map Value.ofJson := by
  induction members with
  | nil => rfl
  | cons y members ih =>
    obtain ⟨k, v⟩ := y
    rw [fieldsOfJson, Dict.get?, Dict.get?]
    split
    · rfl
    · exact ih

/-- Behind the key of an object, names are followed inside of it. -/
theorem follow?_object (hpath : path ≠ []) {inner : Members}
    (h : members.get? key = some (.obj inner)) :
    follow? (fieldsOfJson members) (key :: path) = follow? (fieldsOfJson inner) path := by
  rw [follow?, get?_fieldsOfJson, h, Option.map_some, Option.bind_some, Value.ofJson,
    foldlM_object hpath]

/-- What names lead to inside of a member, they lead to behind its key. -/
theorem follow?_of_inside (hpath : path ≠ [])
    (h : follow? (fieldsOfJson (inside (members.get? key))) path = some x) :
    follow? (fieldsOfJson members) (key :: path) = some x := by
  unfold inside at h
  split at h
  · rename_i inner hinner
    rw [follow?_object hpath hinner, h]
  · -- nothing is inside of anything but an object
    obtain ⟨key, path, rfl⟩ := List.exists_cons_of_ne_nil hpath
    cases h

/-- The members that lead to a piece of data are the names that lead to its value. -/
theorem follow?_of_getPath? (h : getPath? path members = some json) :
    follow? (fieldsOfJson members) path = some (.ofJson json) := by
  induction path generalizing members with
  | nil => cases h
  | cons key path ih =>
    by_cases hpath : path = []
    · subst hpath
      have hmember : members.get? key = some json := h
      rw [follow?, get?_fieldsOfJson, hmember]
      rfl
    · rw [Members.getPath?_cons hpath] at h
      exact follow?_of_inside hpath (ih h)

/-- Where other names part from a path that is set, they lead to nothing that they did not lead to
before. They can lead to less: a list on the way gives way to an object. -/
theorem follow?_of_parted (h : Parted path other)
    (hx : follow? (fieldsOfJson (setPath v path members)) other = some x) :
    follow? (fieldsOfJson members) other = some x := by
  induction h generalizing members with
  | @here key key' path other hne =>
    rw [← hx]
    refine follow?_congr ?_ other
    rw [get?_fieldsOfJson, get?_fieldsOfJson, Members.get?_setPath_of_ne hne]
  | later key h ih =>
    obtain ⟨hpath, hother⟩ := h.ne_nil
    rw [Members.setPath_cons hpath,
      follow?_object hother ((Dict.get?_set _ _ _ _).trans (if_pos rfl))] at hx
    exact follow?_of_inside hother (ih hx)

end Context

/-! ## Assignments -/

namespace Assignment

/-- A path is a key as it stands, and goes up to the first equals sign. -/
theorem read_isPath {p : Text} (hp : IsPath p) (raw : Text) :
    read (String.ofList (p ++ '=' :: raw)) = .ok ⟨pathOf p, valueOf raw⟩ := by
  have hequals : '=' ∉ p := by
    intro hmem
    rcases Delimiters.char_of_isPath hp hmem with h | h | h | h <;> exact absurd h (by decide)
  have hsplit : Text.splitOnce? '=' (p ++ '=' :: raw) = some (p, raw) :=
    Text.splitOnce?_eq_some.mpr ⟨rfl, hequals⟩
  have htrim : p.trim = p := by
    refine Text.trim_eq_self_iff.mpr ⟨fun c hc => ?_, fun c hc => ?_⟩
    · exact Delimiters.not_blank_of_isPath hp (List.mem_of_mem_head? hc)
    · exact Delimiters.not_blank_of_isPath hp (List.mem_of_getLast? hc)
  have hne : p.isEmpty = false := by
    obtain ⟨c, t, rfl, -⟩ := hp
    rfl
  rw [read, String.toList_ofList, hsplit]
  simp only [htrim, hne]
  rfl

end Assignment

namespace Context

variable {disk : Disk} {file? : Option String} {assignments : List String} {ctx : Context}

/-- The members that a context starts from. -/
def start (disk : Disk) : Option String → Except Error Members
  | some path => readFile disk path
  | none => .ok []

/-- The members after some assignments. -/
def assign (members : Members) (assignments : List String) : Except Error Members :=
  assignments.foldlM (fun members s => (Assignment.read s).map (·.apply members)) members

theorem build_eq (disk : Disk) (file? : Option String) (assignments : List String) :
    build disk file? assignments =
      (start disk file?).bind fun members =>
        (assign members assignments).map Value.fieldsOfJson := by
  have hstep :
      (fun (members : Members) (s : String) => do return (← Assignment.read s).apply members) =
      fun members s => (Assignment.read s).map (·.apply members) := by
    funext members s
    cases Assignment.read s <;> rfl
  unfold build
  rw [hstep]
  cases file? <;> rfl

/-- The last assignment changes what the others have made. -/
theorem build_concat {s : String} {a : Assignment} (hread : Assignment.read s = .ok a)
    (h : build disk file? (assignments ++ [s]) = .ok ctx) :
    ∃ members, build disk file? assignments = .ok (Value.fieldsOfJson members) ∧
      ctx = Value.fieldsOfJson (a.apply members) := by
  rw [build_eq] at h ⊢
  cases hstart : start disk file? with
  | error e =>
    rw [hstart] at h
    cases h
  | ok members =>
    rw [hstart, Except.bind, assign, List.foldlM_append] at h
    rw [Except.bind]
    change ((assign members assignments).bind fun m => assign m [s]).map _ = _ at h
    cases hassign : assign members assignments with
    | error e =>
      rw [hassign] at h
      cases h
    | ok members' =>
      refine ⟨members', rfl, ?_⟩
      rw [hassign, Except.bind, assign, List.foldlM_cons, hread] at h
      exact (Except.ok.inj h).symm

end Context

/-- The value that the right side of an assignment denotes: the data it writes, and otherwise the
text itself. -/
def Value.denoted (raw : Text) : Value :=
  match Json.parse? raw with
  | some json => .ofJson json
  | none => .str (String.ofList raw)

theorem Value.ofJson_valueOf (raw : Text) :
    Value.ofJson (Assignment.valueOf raw) = .denoted raw := by
  rw [Assignment.valueOf, Value.denoted]
  cases Json.parse? raw <;> rfl

namespace Context

variable {disk : Disk} {file? : Option String} {assignments : List String} {ctx : Context}

/-- **What is assigned last is what templates see**, if its path is written with points: whatever
the context file holds and whatever was assigned before, the path leads to the value that the
assignment denotes. An assignment takes an arrow for a part of a name. So a value that is assigned
to a path with an arrow stands under the names between the points, and where templates look for the
path there is nothing that was not there before. -/
theorem build_shows {p raw : Text} (hp : IsPath p)
    (h : build disk file? (assignments ++ [String.ofList (p ++ '=' :: raw)]) = .ok ctx) :
    ctx.follow? (Assignment.pathOf p) = some (.denoted raw) ∧
    (Path.dotted p = p → ctx.resolve? p = some (.denoted raw)) ∧
    (Path.dotted p ≠ p → ∃ before, build disk file? assignments = .ok before ∧
      ∀ v, ctx.resolve? p = some v → before.resolve? p = some v) := by
  obtain ⟨members, hbefore, rfl⟩ := build_concat (Assignment.read_isPath hp raw) h
  have hstored : follow? (Value.fieldsOfJson (Members.setPath (Assignment.valueOf raw)
      (Assignment.pathOf p) members)) (Assignment.pathOf p) = some (.denoted raw) := by
    rw [← Value.ofJson_valueOf]
    exact follow?_of_getPath? (Members.getPath?_setPath (Members.pathOf_ne_nil p))
  refine ⟨hstored, fun hpoints => ?_, fun harrow => ⟨_, hbefore, fun v hv => ?_⟩⟩
  · rw [resolve?_eq_follow?, Path.segments_eq_pathOf hpoints]
    exact hstored
  · rw [resolve?_eq_follow?] at hv ⊢
    exact follow?_of_parted (Path.parted_segments harrow) hv

theorem isPath_points : IsPath "u.x".toList :=
  ⟨'u', ".x".toList, rfl, by decide, .step ⟨'x', by decide, .inr (.inl rfl)⟩ .nil⟩

theorem isPath_arrow : IsPath "u->x".toList :=
  ⟨'u', "->x".toList, rfl, by decide, .step ⟨'x', by decide, .inr (.inr rfl)⟩ .nil⟩

/-- A list gives way to an object, in which an arrow would be part of a name. -/
theorem build_shows_points :
    (IsPath "u.x".toList ∧ Path.dotted "u.x".toList = "u.x".toList ∧
      build ⟨[], [], none⟩ none ["u=[]", "u.x=Ana"] = .ok [("u", .object [("x", .str "Ana")])] ∧
      resolve? [("u", .object [("x", .str "Ana")])] "u.x".toList = some (.denoted "Ana".toList)) ∧
    (IsPath "u->x".toList ∧ Path.dotted "u->x".toList ≠ "u->x".toList ∧
      build ⟨[], [], none⟩ none ["u=[]", "u->x=Ana"] = .ok [("u", .list []), ("u->x", .str "Ana")] ∧
      follow? [("u", .list []), ("u->x", .str "Ana")] ["u->x"] = some (.denoted "Ana".toList)) := by
  have hpoints : build ⟨[], [], none⟩ none
      (["u=[]"] ++ [String.ofList ("u.x".toList ++ '=' :: "Ana".toList)]) =
      .ok [("u", .object [("x", .str "Ana")])] := by cbv
  have harrow : build ⟨[], [], none⟩ none
      (["u=[]"] ++ [String.ofList ("u->x".toList ++ '=' :: "Ana".toList)]) =
      .ok [("u", .list []), ("u->x", .str "Ana")] := by cbv
  exact ⟨⟨isPath_points, by decide, hpoints, (build_shows isPath_points hpoints).2.1 (by decide)⟩,
    isPath_arrow, by decide, harrow, (build_shows isPath_arrow harrow).1⟩

/-- A template does not see what is assigned to a path with an arrow. -/
theorem build_hides_arrow :
    IsPath "u->x".toList ∧
    build ⟨[], [], none⟩ none ["u->x=Ana"] = .ok [("u->x", .str "Ana")] ∧
    ¬ resolve? [("u->x", .str "Ana")] "u->x".toList = some (.denoted "Ana".toList) := by
  have hnone : resolve? [("u->x", .str "Ana")] "u->x".toList = none := by rfl
  refine ⟨isPath_arrow, by cbv, fun h => ?_⟩
  rw [hnone] at h
  cases h

end Context

end Stencil
