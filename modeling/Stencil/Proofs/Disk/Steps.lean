import Stencil.Disk.FilePath
import Stencil.Proofs.Text.Pieces
import Mathlib.Data.List.TakeWhile

/-!
# The steps of a path

What a path says is decided by its pieces: where it starts by the first of them, and the steps
from there by those that say something. So joining two paths joins their steps, and an extension
changes the last name and no other step.

The normal form of a path is what remains when every step upwards is taken back together with the
entry that it leads out of. A path that only goes to entries is put behind the normal form of the
directory that it starts from.
-/

namespace Stencil.FilePath

open Text (splitOn_append_cons splitOn_eq_singleton splitOn_intercalate not_mem_of_mem_splitOn)

variable {p dir rel : FilePath} {name name' extension : Text} {front voids pieces rest : List Text}

/-! ## Names -/

/-- A name of an entry: not empty and without a slash, and neither of the names with a meaning. -/
structure IsName (name : Text) : Prop where
  /-- A slash would end it. -/
  slash : '/' ∉ name
  /-- It says something. -/
  void : isVoid name = false
  /-- It does not lead upwards. -/
  parent : name ≠ ['.', '.']

theorem IsName.ne_nil (h : IsName name) : name ≠ [] := by
  rintro rfl
  exact absurd h.void (by decide)

theorem IsName.ne_current (h : IsName name) : name ≠ ['.'] := by
  rintro rfl
  exact absurd h.void (by decide)

theorem IsName.not_isAbsolute (h : IsName name) : isAbsolute name = false := by
  cases name with
  | nil => rfl
  | cons c s =>
    have hc : c ≠ '/' := fun heq => h.slash (heq ▸ List.mem_cons_self)
    simp [isAbsolute, hc]

theorem IsName.pieces_eq (h : IsName name) : FilePath.pieces name = [name] :=
  splitOn_eq_singleton h.slash

/-- A name with an extension is a name. -/
theorem IsName.extended (h : IsName name) (hextension : '/' ∉ extension) :
    IsName (name ++ '.' :: extension) where
  slash := by simp [h.slash, hextension]
  void := by simp [isVoid, h.ne_nil, List.append_eq_cons_iff]
  parent := by
    -- only the name of the directory itself could stand in front of the second point
    intro heq
    obtain ⟨hnil, -⟩ | ⟨s, hname, hs⟩ := List.append_eq_cons_iff.mp heq
    · exact h.ne_nil hnil
    · obtain ⟨rfl, -⟩ | ⟨t, -, ht⟩ := List.append_eq_cons_iff.mp hs.symm
      · exact h.ne_current hname
      · simp at ht

/-! ## Pieces -/

theorem isAbsolute_iff : p.isAbsolute = true ↔ ∃ rest, rest ≠ [] ∧ p.pieces = [] :: rest := by
  cases p with
  | nil => simp [isAbsolute, FilePath.pieces, Text.splitOn]
  | cons c s =>
    obtain ⟨piece, rest, hs⟩ := List.exists_cons_of_ne_nil (Text.splitOn_ne_nil '/' s)
    by_cases hc : c = '/' <;> simp [isAbsolute, FilePath.pieces, Text.splitOn, hs, hc]

/-- Where a path starts is decided by its front. -/
theorem isAbsolute_join (dir : FilePath) (hrel : rel.isAbsolute = false) :
    (dir.join rel).isAbsolute = dir.isAbsolute := by
  rw [join, hrel]
  simp only [Bool.false_eq_true, if_false]
  cases dir with
  | nil => exact hrel
  | cons c s => split <;> rfl

theorem join_ne_nil (dir : FilePath) (h : IsName name) : dir.join name ≠ [] := by
  rw [join, h.not_isAbsolute]
  simp only [Bool.false_eq_true, if_false]
  split <;> simp [h.ne_nil]

/-- The pieces of a longer path: a slash at the end of the shorter one makes no piece. -/
theorem pieces_join (dir : FilePath) (hrel : rel.isAbsolute = false) :
    (dir.join rel).pieces = dir.pieces ++ rel.pieces ∨
      ∃ front, dir.pieces = front ++ [[]] ∧ (dir.join rel).pieces = front ++ rel.pieces := by
  rw [join, hrel]
  simp only [Bool.false_eq_true, if_false]
  by_cases hempty : dir = []
  · subst hempty
    exact .inr ⟨[], rfl, rfl⟩
  by_cases hslash : dir.getLast? = some '/'
  · obtain ⟨front, rfl⟩ := List.getLast?_eq_some_iff.mp hslash
    refine .inr ⟨Text.splitOn '/' front, splitOn_append_cons '/' front [], ?_⟩
    rw [if_pos (by simp), List.append_assoc, List.singleton_append, FilePath.pieces,
      splitOn_append_cons, FilePath.pieces]
  · refine .inl ?_
    rw [if_neg (by simp [hempty, hslash]), FilePath.pieces, splitOn_append_cons]
    rfl

/-- A name that a path ends in is one of its pieces, and the pieces behind it say nothing. -/
theorem pieces_of_fileName? (h : p.fileName? = some name) :
    ∃ front voids, p.pieces = front ++ name :: voids ∧ p.trimmedPieces = front ++ [name] ∧
      IsName name ∧ ∀ piece ∈ voids, isVoid piece = true := by
  rw [fileName?] at h
  rcases hlast : p.trimmedPieces.getLast? with _ | last
  · rw [hlast] at h
    cases h
  rw [hlast] at h
  dsimp only at h
  split at h
  · cases h
  rename_i hparent
  obtain rfl := Option.some.inj h
  obtain ⟨front, htrimmed⟩ := List.getLast?_eq_some_iff.mp hlast
  have hpieces : p.pieces = p.trimmedPieces ++ (p.pieces.reverse.takeWhile isVoid).reverse := by
    rw [trimmedPieces, ← List.reverse_append, List.takeWhile_append_dropWhile, List.reverse_reverse]
  have hvoid : isVoid last = false := by
    have hhead : (p.pieces.reverse.dropWhile isVoid).head? = some last := by
      rw [← hlast, trimmedPieces, List.getLast?_reverse]
    have := List.head?_dropWhile_not isVoid p.pieces.reverse
    rw [hhead] at this
    simpa using this
  have hslash : '/' ∉ last := by
    refine not_mem_of_mem_splitOn (s := p) ?_
    rw [← FilePath.pieces, hpieces, htrimmed]
    simp
  refine ⟨front, (p.pieces.reverse.takeWhile isVoid).reverse, ?_, htrimmed,
    ⟨hslash, hvoid, hparent⟩, ?_⟩
  · rw [← List.singleton_append, ← List.append_assoc, ← htrimmed, ← hpieces]
  · intro piece hpiece
    exact List.mem_takeWhile_imp (List.mem_reverse.mp hpiece)

/-! ## Steps -/

theorem stepsOf_append (front rest : List Text) :
    stepsOf (front ++ rest) = stepsOf front ++ stepsOf rest := by
  simp [stepsOf]

theorem stepsOf_voids (h : ∀ piece ∈ voids, isVoid piece = true) : stepsOf voids = [] := by
  simpa [stepsOf] using h

theorem stepsOf_name (h : IsName name) : stepsOf [name] = [.normal name] := by
  simp [stepsOf, h.void, h.parent]

/-- The entries that pieces lead to. -/
def namesOf (pieces : List Text) : List Text :=
  pieces.filter fun piece => !isVoid piece && piece ≠ ['.', '.']

theorem isName_of_mem_namesOf (h : name ∈ namesOf p.pieces) : IsName name := by
  obtain ⟨hmem, hname⟩ := List.mem_filter.mp h
  simp only [Bool.and_eq_true, Bool.not_eq_true', decide_eq_true_eq] at hname
  exact ⟨not_mem_of_mem_splitOn hmem, hname.1, hname.2⟩

/-- Steps that do not lead upwards lead to entries. -/
theorem stepsOf_eq_map (h : .parent ∉ stepsOf pieces) :
    stepsOf pieces = (namesOf pieces).map .normal := by
  induction pieces with
  | nil => rfl
  | cons piece pieces ih =>
    by_cases hvoid : isVoid piece = true
    · have hsteps : stepsOf (piece :: pieces) = stepsOf pieces := by simp [stepsOf, hvoid]
      have hnames : namesOf (piece :: pieces) = namesOf pieces := by simp [namesOf, hvoid]
      rw [hsteps] at h ⊢
      rw [hnames, ih h]
    · have hparent : piece ≠ ['.', '.'] := by
        rintro rfl
        simp [stepsOf, hvoid] at h
      have hsteps : stepsOf (piece :: pieces) = .normal piece :: stepsOf pieces := by
        simp [stepsOf, hvoid, hparent]
      have hnames : namesOf (piece :: pieces) = piece :: namesOf pieces := by
        simp [namesOf, hvoid, hparent]
      rw [hsteps, List.mem_cons, not_or] at h
      rw [hsteps, hnames, ih h.2, List.map_cons]

/-- Where a path with these pieces starts. -/
def startOf (pieces : List Text) : List Component :=
  if pieces.head? = some [] ∧ pieces.tail ≠ [] then [.root]
  else if pieces.head? = some ['.'] then [.current]
  else []

theorem eq_of_mem_startOf {step : Component} (h : step ∈ startOf pieces) :
    step = .root ∨ step = .current := by
  rw [startOf] at h
  split at h
  · exact .inl (List.mem_singleton.mp h)
  split at h
  · exact .inr (List.mem_singleton.mp h)
  · cases h

theorem components_eq (p : FilePath) : p.components = startOf p.pieces ++ stepsOf p.pieces := by
  have habsolute : p.isAbsolute = true ↔ p.pieces.head? = some [] ∧ p.pieces.tail ≠ [] := by
    rw [isAbsolute_iff]
    cases p.pieces <;> simp [and_comm]
  rw [components, startOf]
  simp only [habsolute]
  split
  · rfl
  split <;> rfl

/-- Where a path starts is decided in front of the name that it ends in. -/
theorem startOf_concat (hname : IsName name) (hname' : IsName name') :
    startOf (front ++ [name]) = startOf (front ++ [name']) := by
  cases front with
  | nil =>
    simp [startOf, hname.ne_nil, hname'.ne_nil, hname.ne_current, hname'.ne_current]
  | cons piece front => simp [startOf]

/-- The steps of a path that ends in a name. -/
theorem components_of_pieces (hname : IsName name) (hvoids : ∀ piece ∈ voids, isVoid piece = true)
    (hp : p.pieces = front ++ name :: voids) :
    p.components = startOf (front ++ [name]) ++ stepsOf front ++ [.normal name] := by
  have hstart : startOf (front ++ name :: voids) = startOf (front ++ [name]) := by
    cases front with
    | nil => simp [startOf, hname.ne_nil]
    | cons piece front => simp [startOf]
  have hsteps : stepsOf (front ++ name :: voids) = stepsOf front ++ [.normal name] := by
    rw [stepsOf_append, ← List.singleton_append, stepsOf_append, stepsOf_name hname,
      stepsOf_voids hvoids, List.append_nil]
  rw [components_eq, hp, hstart, hsteps, List.append_assoc]

/-- An extension is put behind the last name and changes no other step. -/
theorem components_addExtension (h : p.fileName? = some name) (hextension : '/' ∉ extension) :
    ∃ front, p.components = front ++ [.normal name] ∧
      (p.addExtension extension).components = front ++ [.normal (name ++ '.' :: extension)] := by
  obtain ⟨front, voids, hpieces, htrimmed, hname, hvoids⟩ := pieces_of_fileName? h
  have hextended : IsName (name ++ '.' :: extension) := hname.extended hextension
  have hjoin : p.addExtension extension =
      ['/'].intercalate (front ++ [name ++ '.' :: extension]) := by
    rw [addExtension, h, htrimmed]
    exact Text.intercalate_concat_append ['/'] front name ('.' :: extension)
  have hpieces' : (p.addExtension extension).pieces = front ++ [name ++ '.' :: extension] := by
    rw [hjoin, FilePath.pieces, splitOn_intercalate (by simp)]
    intro piece hpiece
    rcases List.mem_append.mp hpiece with hfront | hlast
    · refine not_mem_of_mem_splitOn (s := p) ?_
      rw [← FilePath.pieces, hpieces]
      exact List.mem_append_left _ hfront
    · rw [List.mem_singleton.mp hlast]
      exact hextended.slash
  refine ⟨startOf (front ++ [name]) ++ stepsOf front,
    components_of_pieces hname hvoids hpieces, ?_⟩
  rw [components_of_pieces hextended (List.forall_mem_nil _) hpieces',
    startOf_concat hextended hname]

theorem stepsOf_join (dir : FilePath) (hrel : rel.isAbsolute = false) :
    stepsOf (dir.join rel).pieces = stepsOf dir.pieces ++ stepsOf rel.pieces := by
  rcases pieces_join dir hrel with hp | ⟨front, hfront, hp⟩
  · rw [hp, stepsOf_append]
  · have hslash : stepsOf [[]] = [] := rfl
    rw [hp, hfront, stepsOf_append, stepsOf_append, hslash, List.append_nil]

theorem head?_pieces_join (hdir : dir ≠ []) (hrel : rel.isAbsolute = false) :
    (dir.join rel).pieces.head? = dir.pieces.head? := by
  have hne : dir.pieces ≠ [] := Text.splitOn_ne_nil '/' dir
  rcases pieces_join dir hrel with hp | ⟨front, hfront, hp⟩
  · rw [hp, List.head?_append_of_ne_nil _ hne]
  · have hne : front ≠ [] := by
      rintro rfl
      have hjoin : ['/'].intercalate dir.pieces = dir := Text.intercalate_splitOn '/' dir
      rw [hfront] at hjoin
      exact hdir hjoin.symm
    rw [hp, hfront, List.head?_append_of_ne_nil _ hne, List.head?_append_of_ne_nil _ hne]

/-- The steps of a longer path go on behind those of the shorter one. -/
theorem components_join (hdir : dir ≠ []) (hrel : rel.isAbsolute = false) :
    (dir.join rel).components = dir.components ++ stepsOf rel.pieces := by
  rw [components, components, isAbsolute_join dir hrel, head?_pieces_join hdir hrel,
    stepsOf_join dir hrel]
  split
  · rfl
  · split <;> rfl

theorem root_mem_components : .root ∈ p.components ↔ p.isAbsolute = true := by
  have hsteps : .root ∉ stepsOf p.pieces := by
    intro h
    obtain ⟨piece, -, hpiece⟩ := List.mem_map.mp h
    split at hpiece <;> cases hpiece
  rw [components]
  split
  · simp [*]
  · split <;> simp [*]

/-- Whether a path leads out of the directory that it starts from: to the root, or upwards. -/
def LeadsOut (p : FilePath) : Prop := p.isAbsolute = true ∨ .parent ∈ p.components

instance (p : FilePath) : Decidable p.LeadsOut := inferInstanceAs (Decidable (_ ∨ _))

theorem isContained_iff : p.isContained = true ↔ ¬ p.LeadsOut := by
  rw [LeadsOut, ← root_mem_components, not_or, isContained, List.all_eq_true]
  constructor
  · intro h
    exact ⟨fun hroot => absurd (h _ hroot) (by decide),
      fun hparent => absurd (h _ hparent) (by decide)⟩
  · rintro ⟨hroot, hparent⟩ (_ | _ | _ | _) hstep
    · exact absurd hstep hroot
    · rfl
    · exact absurd hstep hparent
    · rfl

/-- A path that starts where it is and goes to entries only. -/
structure Inward (p : FilePath) : Prop where
  /-- It does not start at the root. -/
  relative : p.isAbsolute = false
  /-- Every step stays or leads to an entry. -/
  steps : ∀ step ∈ p.components, step = .current ∨ ∃ entry, IsName entry ∧ step = .normal entry

theorem stepsOf_of_not_leadsOut (h : ¬ p.LeadsOut) :
    stepsOf p.pieces = (namesOf p.pieces).map .normal := by
  obtain ⟨-, hparent⟩ := not_or.mp h
  exact stepsOf_eq_map fun hmem => hparent (components_eq p ▸ List.mem_append_right _ hmem)

theorem inward_of_not_leadsOut (h : ¬ p.LeadsOut) : p.Inward := by
  obtain ⟨hrelative, -⟩ := not_or.mp h
  refine ⟨Bool.eq_false_iff.mpr hrelative, fun step hstep => ?_⟩
  have hmem : step ∈ startOf p.pieces ++ stepsOf p.pieces := components_eq p ▸ hstep
  rcases List.mem_append.mp hmem with hstart | hlater
  · rcases eq_of_mem_startOf hstart with rfl | rfl
    · exact absurd (root_mem_components.mp hstep) hrelative
    · exact .inl rfl
  · rw [stepsOf_of_not_leadsOut h] at hlater
    obtain ⟨entry, hentry, rfl⟩ := List.mem_map.mp hlater
    exact .inr ⟨entry, isName_of_mem_namesOf hentry, rfl⟩

/-! ## Normal form -/

/-- Goes one step on from a path in normal form. A step upwards takes back the last entry, and
above the root is the root. -/
def advance (steps : List Component) : Component → List Component
  | .root => [.root]
  | .current => steps
  | .parent =>
    match steps.getLast? with
    | some (.normal _) => steps.dropLast
    | some .root => steps
    | _ => steps ++ [.parent]
  | .normal name => steps ++ [.normal name]

/-- What remains of the steps of a path when no step leads out of an entry in front of it. -/
def normalForm (p : FilePath) : List Component := p.components.foldl advance []

theorem foldl_advance_names (steps : List Component) (names : List Text) :
    (names.map Component.normal).foldl advance steps = steps ++ names.map .normal := by
  induction names generalizing steps with
  | nil => simp
  | cons name names ih => simp [advance, ih]

/-- A longer path goes on from the normal form of the shorter one. -/
theorem normalForm_join (dir : FilePath) (hrel : rel.isAbsolute = false) :
    normalForm (dir.join rel) = (stepsOf rel.pieces).foldl advance (normalForm dir) := by
  by_cases hdir : dir = []
  · -- a path behind no directory may start with a point, which says nothing
    subst hdir
    have hjoin : join [] rel = rel := by simp [join, hrel]
    rw [hjoin, normalForm, components, hrel]
    simp only [Bool.false_eq_true, if_false]
    split <;> rfl
  · rw [normalForm, components_join hdir hrel, List.foldl_append, ← normalForm]

/-- A path that leads to a directory, or from there to an entry below it. -/
def Within (dir p : FilePath) : Prop :=
  ∃ entries : List Text, (∀ entry ∈ entries, IsName entry) ∧
    normalForm p = normalForm dir ++ entries.map .normal

/-- What does not lead out of a directory leads to something within it. -/
theorem within_join (dir : FilePath) (h : ¬ rel.LeadsOut) : Within dir (dir.join rel) := by
  refine ⟨namesOf rel.pieces, fun entry => isName_of_mem_namesOf, ?_⟩
  rw [normalForm_join dir (inward_of_not_leadsOut h).relative, stepsOf_of_not_leadsOut h,
    foldl_advance_names]

end Stencil.FilePath
