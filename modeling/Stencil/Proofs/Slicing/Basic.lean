import Stencil.Proofs.Tag.Extent
import Stencil.Proofs.Text.Offsets

/-!
# Stretches of a text

Between two offsets of a text there is a stretch if they are in order, inside the text and at the
edges of characters. Whatever goes through a text from left to right takes such stretches out of it,
between the things that it replaces, and fails where one is not there. If the things follow each
other, none is missing, and what comes out is the text with these edits.

Tags are found between two offsets, and so is what lies between an opening tag and the closing tag
that balances it. Tags of a grammar lie in the text where they say. So what is found has the offsets
of the positions that it has inside the library, and follows each other as it does there.
-/

namespace Stencil

theorem mapM_eq_pure_map {M : Type → Type} [Monad M] [LawfulMonad M] {τ υ : Type}
    {f : τ → M υ} {g : τ → υ}
    {xs : List τ} (h : ∀ x ∈ xs, f x = pure (g x)) : xs.mapM f = pure (xs.map g) := by
  induction xs with
  | nil => rfl
  | cons x xs ih =>
    rw [List.mapM_cons, h x (by simp), ih fun y hy => h y (by simp [hy])]
    simp

/-! ## Stretches -/

namespace Text

variable {s t : Text} {i j start stop : Nat}

/-- The stretch of a text between two offsets, if they are in order, inside the text and at the
edges of characters. -/
def cut? (s : Text) (start stop : Nat) : Option Text :=
  if start ≤ stop then
    (s.indexOfOffset? start).bind fun i => (s.indexOfOffset? stop).map fun j => s.slice i j
  else none

/-- There is a stretch between positions in order. -/
theorem cut?_offset (hij : i ≤ j) (hj : j ≤ s.length) :
    s.cut? (s.offset i) (s.offset j) = some (s.slice i j) := by
  rw [cut?, if_pos (s.offset_le_offset hij), indexOfOffset?_offset (Nat.le_trans hij hj),
    indexOfOffset?_offset hj]
  rfl

/-- A stretch is what stands between a front and a back of the text. -/
theorem cut?_eq_some_iff : s.cut? start stop = some t ↔
    ∃ front back, s = front ++ (t ++ back) ∧ utf8Size front = start ∧
    utf8Size (front ++ t) = stop := by
  constructor
  · intro h
    unfold cut? at h
    split at h
    · rename_i hle
      obtain ⟨i, hi, hmap⟩ := Option.bind_eq_some_iff.mp h
      obtain ⟨j, hj, rfl⟩ := Option.map_eq_some_iff.mp hmap
      obtain ⟨hilen, rfl⟩ := indexOfOffset?_eq_some_iff.mp hi
      obtain ⟨hjlen, rfl⟩ := indexOfOffset?_eq_some_iff.mp hj
      have hij : i ≤ j := by
        refine Nat.le_of_not_lt fun hlt => ?_
        have := offset_lt_offset hlt hilen
        omega
      have htake : s.take i ++ s.slice i j = s.take j := by
        rw [slice, ← List.take_add, Nat.add_sub_cancel' hij]
      refine ⟨s.take i, s.drop j, ?_, rfl, by rw [htake, offset]⟩
      rw [← List.append_assoc, htake, List.take_append_drop]
    · exact absurd h (by simp)
  · rintro ⟨front, back, rfl, rfl, rfl⟩
    have hstart : utf8Size front = (front ++ (t ++ back)).offset front.length := by
      rw [offset, List.take_left]
    have hstop : utf8Size (front ++ t) = (front ++ (t ++ back)).offset (front ++ t).length := by
      rw [← List.append_assoc, offset, List.take_left]
    rw [hstart, hstop, cut?_offset (by simp) (by simp)]
    simp [slice]

theorem length_lt_of_cut? (h : s.cut? start stop = some t) (hstart : 0 < start) :
    t.length < s.length := by
  obtain ⟨front, back, rfl, rfl, -⟩ := cut?_eq_some_iff.mp h
  have hfront : front.length ≠ 0 := by
    intro hzero
    rw [List.length_eq_zero_iff.mp hzero] at hstart
    exact absurd hstart (by simp)
  rw [List.length_append, List.length_append]
  omega

/-- The stretch of a text between two offsets behind its front, which is shorter than the text. -/
def cutBelow? (s : Text) (start stop : Nat) (hstart : 0 < start) :
    Option { t : Text // t.length < s.length } :=
  match h : s.cut? start stop with
  | none => none
  | some t => some ⟨t, length_lt_of_cut? h hstart⟩

theorem cutBelow?_eq_some {hstart : 0 < start} (h : s.cut? start stop = some t) :
    s.cutBelow? start stop hstart = some ⟨t, length_lt_of_cut? h hstart⟩ := by
  unfold cutBelow?
  split
  · rename_i hnone
    rw [h] at hnone
    exact absurd hnone (by simp)
  · rename_i t' hsome
    obtain rfl : t = t' := Option.some.inj (h.symm.trans hsome)
    rfl

/-! ## Filling in -/

section Filling

variable {M : Type → Type} [Monad M] [MonadExceptOf Unit M]

/-- The stretch of a text between two offsets, or failure. -/
def cut (s : Text) (start stop : Nat) : M Text :=
  match s.cut? start stop with
  | some t => pure t
  | none => throwThe Unit ()

/-- Puts a filling in the place of each of some things that have spans, and takes the stretches
around them out of the text as it goes along. -/
def fillIn {τ : Type} (s : Text) (span : τ → Nat × Nat) (filling : τ → M Text) :
    (cursor : Nat) → List τ → M Text
  | cursor, [] => s.cut cursor (utf8Size s)
  | cursor, x :: xs => do
    let gap ← s.cut cursor (span x).1
    let text ← filling x
    let rest ← fillIn s span filling (span x).2 xs
    return gap ++ (text ++ rest)

variable {τ υ : Type}

theorem cut_offset (hij : i ≤ j) (hj : j ≤ s.length) :
    (s.cut (s.offset i) (s.offset j) : M Text) = pure (s.slice i j) := by
  rw [cut, cut?_offset hij hj]

theorem fillIn_map (g : υ → τ) (span : τ → Nat × Nat) (filling : τ → M Text)
    (cursor : Nat) (xs : List υ) :
    s.fillIn span filling cursor (xs.map g) =
      s.fillIn (fun x => span (g x)) (fun x => filling (g x)) cursor xs := by
  induction xs generalizing cursor with
  | nil => rfl
  | cons x xs ih => simp only [List.map_cons, fillIn, ih]

/-- What is filled in depends on the spans and the keys of things only. -/
theorem fillIn_congr {κ : Type} {span : τ → Nat × Nat} {key : τ → κ} {span' : υ → Nat × Nat}
    {key' : υ → κ} {xs : List τ} {ys : List υ}
    (h : xs.map (fun x => (span x, key x)) = ys.map fun y => (span' y, key' y))
    (filling : κ → M Text) (cursor : Nat) :
    s.fillIn span (fun x => filling (key x)) cursor xs =
      s.fillIn span' (fun y => filling (key' y)) cursor ys := by
  have hleft := fillIn_map (s := s) (fun x => (span x, key x)) Prod.fst
      (fun x => filling x.2) cursor xs
  rw [h] at hleft
  exact hleft.symm.trans
    (fillIn_map (fun y => (span' y, key' y)) Prod.fst (fun x => filling x.2) cursor ys)

/-- **What is in order can be filled in.** Things that follow each other in a text are edited away,
and no stretch around them is missing. -/
theorem fillIn_eq [LawfulMonad M] (place : τ → Nat × Nat) (filling : τ → M Text)
    {span : τ → Nat × Nat} {pos : Nat} {xs : List τ}
    (hspan : ∀ x ∈ xs, span x = (s.offset (place x).1, s.offset (place x).2))
    (hord : Edit.Ordered pos (xs.map fun x => ⟨(place x).1, (place x).2, []⟩))
    (hstop : ∀ x ∈ xs, (place x).2 ≤ s.length) (hpos : pos ≤ s.length) :
    s.fillIn span filling (s.offset pos) xs = do
      let edits ← xs.mapM fun x => return (⟨(place x).1, (place x).2, ← filling x⟩ : Edit)
      return spliceFrom pos (s.drop pos) edits := by
  induction xs generalizing pos with
  | nil =>
    rw [fillIn, ← offset_length, cut_offset hpos (Nat.le_refl _), List.mapM_nil,
      pure_bind, spliceFrom, slice, ← List.length_drop, List.take_length]
  | cons x xs ih =>
    obtain ⟨hle, hle', hord⟩ := hord
    have hx := hstop x (by simp)
    have hback : pos + ((place x).2 - pos) = (place x).2 := by
      dsimp only at hle hle'
      omega
    have hrest :=
      ih (fun y hy => hspan y (by simp [hy])) hord (fun y hy => hstop y (by simp [hy])) hx
    rw [fillIn, hspan x (by simp)]
    dsimp only
    rw [cut_offset hle (Nat.le_trans hle' hx), pure_bind, hrest]
    simp [List.mapM_cons, spliceFrom, slice, hback]

end Filling

/-- What is in order is filled in with what there is for each thing. -/
theorem fillIn_eq_some {τ : Type} (place : τ → Nat × Nat) {span : τ → Nat × Nat}
    {filling : τ → Option Text} {f : τ → Text} {xs : List τ}
    (hspan : ∀ x ∈ xs, span x = (s.offset (place x).1, s.offset (place x).2))
    (hord : Edit.Ordered 0 (xs.map fun x => ⟨(place x).1, (place x).2, f x⟩))
    (hstop : ∀ x ∈ xs, (place x).2 ≤ s.length) (hfilling : ∀ x ∈ xs, filling x = some (f x)) :
    s.fillIn span filling 0 xs =
      some (s.splice (xs.map fun x => ⟨(place x).1, (place x).2, f x⟩)) := by
  have hplace : Edit.Ordered 0 (xs.map fun x => ⟨(place x).1, (place x).2, []⟩) :=
    hord.congr (by simp)
  have hfill := fillIn_eq place filling hspan hplace hstop (Nat.zero_le _)
  rw [offset_zero, List.drop_zero] at hfill
  rw [hfill, mapM_eq_pure_map (g := fun x => ⟨(place x).1, (place x).2, f x⟩)]
  · rfl
  · intro x hx
    rw [hfilling x hx]
    rfl

end Text

/-! ## Tags and brackets -/

/-- A tag as it is found: between two offsets. -/
structure Found (α : Type) where
  /-- The offset of its first character. -/
  start : Nat
  /-- The offset behind its last character. -/
  stop : Nat
  /-- What it says. -/
  content : α
  /-- It has at least one character. -/
  start_lt_stop : start < stop

namespace Found

variable {α : Type}

theorem stop_pos (t : Found α) : 0 < t.stop := Nat.zero_lt_of_lt t.start_lt_stop

/-- The offsets of a tag. -/
def span (t : Found α) : Nat × Nat := (t.start, t.stop)

end Found

/-- A stretch as it is found: from an opening tag to a closing one. -/
structure Bracket (α : Type) where
  /-- The opening tag. -/
  opening : Found α
  /-- The offset at which the closing tag starts. -/
  start : Nat
  /-- The offset behind the closing tag. -/
  stop : Nat

namespace Bracket

variable {α : Type}

/-- The offsets of a stretch, with its tags. -/
def span (b : Bracket α) : Nat × Nat := (b.opening.start, b.stop)

/-- The text between the tags. -/
def body? (b : Bracket α) (s : Text) : Option { t : Text // t.length < s.length } :=
  s.cutBelow? b.opening.stop b.start b.opening.stop_pos

/-- The outermost stretches: from left to right, every opening tag that has a closing tag and does
not start in front of the offset that is reached. -/
def outermost (close? : Found α → Option (Nat × Nat)) :
    (cursor : Nat) → List (Found α) → List (Bracket α)
  | _, [] => []
  | cursor, t :: ts =>
    if t.start < cursor then outermost close? cursor ts
    else
      match close? t with
      | none => outermost close? cursor ts
      | some (start, stop) => ⟨t, start, stop⟩ :: outermost close? stop ts

end Bracket

namespace Tag

variable {α κ : Type} {r : Recognizer α} {s : Text} {t : Tag α}

/-- How a tag is found. -/
def found (t : Tag α) (s : Text) : Found α where
  start := (t.byteSpan s).1
  stop := (t.byteSpan s).2
  content := t.content
  start_lt_stop := by
    have := Text.utf8Size_pos t.lexeme_ne_nil
    simp only [byteSpan]
    omega

@[simp] theorem content_found (t : Tag α) (s : Text) : (t.found s).content = t.content := rfl

/-- The tags of a grammar that are found in a text, from left to right. -/
def find (r : Recognizer α) (s : Text) : List (Found α) := (scan r s).map (·.found s)

/-- A text has a tag where the tag says that it is. -/
def Lies (t : Tag α) (s : Text) : Prop := ∃ rest, s.drop t.start = t.lexeme ++ rest

theorem Lies.stop_le (h : t.Lies s) : t.stop ≤ s.length := by
  obtain ⟨rest, hrest⟩ := h
  have hlength := congrArg List.length hrest
  have hpos := List.length_pos_iff.mpr t.lexeme_ne_nil
  rw [List.length_drop, List.length_append] at hlength
  unfold stop
  omega

theorem Lies.slice_eq (h : t.Lies s) : s.slice t.start t.stop = t.lexeme := by
  obtain ⟨rest, hrest⟩ := h
  rw [Text.slice, hrest, stop, Nat.add_sub_cancel_left, List.take_left]

/-- A tag is found at the offsets of its positions. -/
theorem Lies.found_stop (h : t.Lies s) : (t.found s).stop = s.offset t.stop := by
  obtain ⟨rest, hrest⟩ := h
  rw [stop, Text.offset_add, Text.offset, Text.offset, hrest, List.take_left]
  rfl

theorem Lies.span_found (h : t.Lies s) : (t.found s).span = (s.offset t.start, s.offset t.stop) :=
  Prod.ext rfl h.found_stop

theorem Lies.byteSpan_eq (h : t.Lies s) :
    t.byteSpan s = (s.offset t.start, s.offset t.stop) := h.span_found

/-- A tag is taken out of the text as it is written. -/
theorem Lies.cut?_found (h : t.Lies s) :
    s.cut? (t.found s).start (t.found s).stop = some t.lexeme := by
  rw [h.found_stop, ← h.slice_eq]
  exact Text.cut?_offset (Nat.le_of_lt t.start_lt_stop) h.stop_le

/-- Between two tags there is a stretch. -/
theorem Lies.cutBelow?_found {u : Tag κ} (ht : t.Lies s) (hu : u.Lies s) (hle : t.stop ≤ u.start) :
    ∃ hlt, s.cutBelow? (t.found s).stop (u.found s).start (t.found s).stop_pos =
      some ⟨s.slice t.stop u.start, hlt⟩ := by
  have hcut : s.cut? (t.found s).stop (s.offset u.start) = some (s.slice t.stop u.start) := by
    rw [ht.found_stop]
    exact Text.cut?_offset hle (Nat.le_trans (Nat.le_of_lt u.start_lt_stop) hu.stop_le)
  exact ⟨_, Text.cutBelow?_eq_some hcut⟩

/-- Tags that lie in a text, one behind the other. -/
structure Aligned (ts : List (Tag α)) (s : Text) : Prop where
  /-- They lie in the text. -/
  lies : ∀ t ∈ ts, t.Lies s
  /-- None starts in front of the end of one before it. -/
  ordered : ts.Pairwise fun t u => t.stop ≤ u.start

namespace Aligned

variable {ts ts' : List (Tag α)} {u : Tag α}

/-- Tags may be left out. -/
theorem sublist (h : Aligned ts s) (hsub : ts'.Sublist ts) : Aligned ts' s :=
  ⟨fun t ht => h.lies t (hsub.subset ht), h.ordered.sublist hsub⟩

theorem tail (h : Aligned (t :: ts) s) : Aligned ts s := h.sublist (List.sublist_cons_self t ts)

/-- The tag behind the first one may be left out. -/
theorem skip (h : Aligned (t :: u :: ts) s) : Aligned (t :: ts) s :=
  h.sublist ((List.sublist_cons_self u ts).cons_cons t)

/-- Between two tags in line there is a stretch. -/
theorem cutBelow?_found (h : Aligned (t :: u :: ts) s) :
    ∃ hlt, s.cutBelow? (t.found s).stop (u.found s).start (t.found s).stop_pos =
      some ⟨s.slice t.stop u.start, hlt⟩ :=
  (h.lies t (by simp)).cutBelow?_found (h.lies u (by simp))
  ((List.pairwise_cons.mp h.ordered).1 u (by simp))

end Aligned

/-- Where a tag that closes is looked for behind one that is found, one is found. -/
theorem closingSpan?_found [DecidableEq κ] (h : t.Lies s)
    (opening closing : Recognizer κ) (key : κ) :
    closingSpan? opening closing key s (t.found s).stop =
      (closing? opening closing key s t.stop).map (·.byteSpan s) := by
  rw [closingSpan?, h.found_stop, Text.indexOfOffset?_offset h.stop_le]
  rfl

/-- Where enclosures are found. -/
def Enclosure.found (e : Enclosure α κ) (s : Text) : Bracket α where
  opening := e.opening.found s
  start := (e.closing.byteSpan s).1
  stop := (e.closing.byteSpan s).2

/-- The outermost enclosures of what lies in a text are found as the outermost stretches. -/
theorem bracket_outermost {close? : Tag α → Option (Tag κ)}
    {closeSpan? : Found α → Option (Nat × Nat)} {ts : List (Tag α)} (cursor : Nat)
    (hts : ∀ t ∈ ts, t.Lies s)
    (hclose : ∀ t ∈ ts, closeSpan? (t.found s) = (close? t).map (·.byteSpan s))
    (hlies : ∀ t c, close? t = some c → c.Lies s) (hcursor : cursor ≤ s.length) :
    Bracket.outermost closeSpan? (s.offset cursor) (ts.map (·.found s)) =
      (outermost close? cursor ts).map (·.found s) := by
  induction ts generalizing cursor with
  | nil => rfl
  | cons t ts ih =>
    have ih : ∀ cursor, cursor ≤ s.length →
        Bracket.outermost closeSpan? (s.offset cursor) (ts.map (·.found s)) =
          (outermost close? cursor ts).map (·.found s) :=
      fun cursor => ih cursor (fun u hu => hts u (by simp [hu]))
        (fun u hu => hclose u (by simp [hu]))
    have hbefore : (t.found s).start < s.offset cursor ↔ t.start < cursor :=
      Text.offset_lt_offset_iff hcursor
    rw [List.map_cons, Bracket.outermost, outermost]
    by_cases hlt : t.start < cursor
    · rw [if_pos (hbefore.mpr hlt), if_pos hlt]
      exact ih _ hcursor
    · rw [if_neg (mt hbefore.mp hlt), if_neg hlt, hclose t (by simp)]
      cases hc : close? t with
      | none => exact ih _ hcursor
      | some c =>
        have hlie := hlies t c hc
        rw [Option.map_some, hlie.byteSpan_eq]
        dsimp only
        rw [ih _ hlie.stop_le, List.map_cons, Enclosure.found, hlie.byteSpan_eq]

end Tag

variable {d : Delimiters} {s : Text}

/-! ## The grammars -/

namespace Delimiters

variable {α : Type} {r : Recognizer α}

/-- The grammars by which tags are found. -/
inductive Grammar (d : Delimiters) : {α : Type} → Recognizer α → Prop where
  /-- Values. -/
  | variableTag : Grammar d d.variableTag
  /-- Conditionals. -/
  | conditionalTag : Grammar d d.conditionalTag
  /-- Openings of bound loops. -/
  | loopOpening : Grammar d d.loopOpening
  /-- Closings of bound loops. -/
  | loopClosing : Grammar d d.loopClosing
  /-- Openings of legacy loops. -/
  | legacyOpening : Grammar d d.legacyOpening
  /-- Closings of legacy loops. -/
  | legacyClosing : Grammar d d.legacyClosing
  /-- Openings of blocks. -/
  | blockOpening : Grammar d d.blockOpening
  /-- Closings of blocks. -/
  | blockClosing : Grammar d d.blockClosing
  /-- Bases. -/
  | baseTag : Grammar d d.baseTag
  /-- Other templates. -/
  | includeTag : Grammar d d.includeTag
  /-- Protected regions. -/
  | protectedRegion : Grammar d d.protectedRegion

theorem Grammar.encloses (h : d.Grammar r) : d.Encloses r := by
  cases h with
  | variableTag => exact d.encloses_variableTag
  | conditionalTag => exact d.encloses_conditionalTag
  | loopOpening => exact d.encloses_loopOpening
  | loopClosing => exact d.encloses_loopClosing
  | legacyOpening => exact d.encloses_legacyOpening
  | legacyClosing => exact d.encloses_legacyClosing
  | blockOpening => exact d.encloses_blockOpening
  | blockClosing => exact d.encloses_blockClosing
  | baseTag => exact d.encloses_baseTag
  | includeTag => exact d.encloses_includeTag
  | protectedRegion => exact d.encloses_protectedRegion

theorem Encloses.lies (h : d.Encloses r) {t : Tag α} (ht : Tag.Stands r s t) : t.Lies s := by
  obtain ⟨body, rest, -, hs⟩ := h _ _ _ ht
  exact ⟨rest, hs⟩

theorem Grammar.lies_of_mem_scan (h : d.Grammar r) {t : Tag α} (ht : t ∈ Tag.scan r s) : t.Lies s :=
  h.encloses.lies (Tag.stands_of_mem_scan ht)

theorem Grammar.aligned_scan (h : d.Grammar r) (s : Text) : Tag.Aligned (Tag.scan r s) s :=
  ⟨fun _ ht => h.lies_of_mem_scan ht, Tag.pairwise_scanFrom r 0 0 s⟩

/-- **Tags are found in order.** Whatever the delimiters are, what a grammar finds follows each
other, and each tag is a stretch of the text that starts with the left delimiter and ends with the
right one. -/
theorem Grammar.find_spec (h : d.Grammar r) (s : Text) :
    (Tag.find r s).Pairwise (fun t u => t.stop ≤ u.start) ∧
    ∀ t ∈ Tag.find r s, ∃ body, s.cut? t.start t.stop = some (d.enclose body) := by
  constructor
  · refine List.pairwise_map.mpr ((h.aligned_scan s).ordered.imp_of_mem fun {t u} ht hu hle => ?_)
    rw [(h.lies_of_mem_scan ht).found_stop]
    exact s.offset_le_offset hle
  · intro t ht
    obtain ⟨t, hmem, rfl⟩ := List.mem_map.mp ht
    have hlie := h.lies_of_mem_scan hmem
    obtain ⟨body, rest, hbody, -⟩ := h.encloses _ _ _ (Tag.stands_of_mem_scan hmem)
    exact ⟨body, by rw [hlie.cut?_found, hbody]⟩

end Delimiters

/-! ## Filling in between tags -/

/-- Tags in line are filled in. -/
theorem Text.fillIn_tags {M : Type → Type} [Monad M] [MonadExceptOf Unit M]
    [LawfulMonad M] {α : Type} {ts : List (Tag α)} (h : Tag.Aligned ts s)
    (filling : Found α → M Text) :
    s.fillIn Found.span filling 0 (ts.map (·.found s)) = do
      let edits ← ts.mapM fun t => return (⟨t.start, t.stop, ← filling (t.found s)⟩ : Edit)
      return s.splice edits := by
  rw [fillIn_map]
  exact fillIn_eq (fun t : Tag α => (t.start, t.stop)) _ (fun t ht => (h.lies t ht).span_found)
    (Tag.ordered_of_pairwise h.ordered (fun _ _ => Nat.zero_le _) fun _ => [])
    (fun t ht => (h.lies t ht).stop_le)
    (Nat.zero_le _)

namespace Tag.Enclosure

variable {α κ : Type}

/-- Both tags of an enclosure lie in the text, one behind the other. -/
structure Lies (e : Enclosure α κ) (s : Text) : Prop where
  /-- The opening tag lies in the text. -/
  opening : e.opening.Lies s
  /-- So does the closing tag. -/
  closing : e.closing.Lies s
  /-- It is behind the opening tag. -/
  stop_le_start : e.opening.stop ≤ e.closing.start

theorem Lies.span_found {e : Enclosure α κ} (h : e.Lies s) :
    (e.found s).span = (s.offset e.opening.start, s.offset e.closing.stop) :=
  Prod.ext rfl h.closing.found_stop

/-- The enclosure is there as a whole. -/
theorem Lies.cut?_found {e : Enclosure α κ} (h : e.Lies s) :
    s.cut? (e.found s).opening.start (e.found s).stop =
      some (s.slice e.opening.start e.closing.stop) := by
  have hstart := e.opening.start_lt_stop
  have hstop := e.closing.start_lt_stop
  have hle := h.stop_le_start
  rw [show (e.found s).stop = s.offset e.closing.stop from h.closing.found_stop]
  exact Text.cut?_offset (by omega) h.closing.stop_le

/-- The text between the tags is there. -/
theorem Lies.body?_found {e : Enclosure α κ} (h : e.Lies s) :
    ∃ hlt, (e.found s).body? s = some ⟨e.body s, hlt⟩ :=
  h.opening.cutBelow?_found h.closing h.stop_le_start

end Tag.Enclosure

/-- Enclosures are filled in. -/
theorem Text.fillIn_outermost {α κ : Type} {close? : Tag α → Option (Tag κ)} {ts : List (Tag α)}
    (hclose : ∀ t c, close? t = some c → t.stop ≤ c.start)
    (hlies : ∀ e ∈ Tag.outermost close? 0 ts, e.Lies s) {filling : Bracket α → Option Text}
    {f : Tag.Enclosure α κ → Text}
    (hfilling : ∀ e ∈ Tag.outermost close? 0 ts, filling (e.found s) = some (f e)) :
    s.fillIn Bracket.span filling 0 ((Tag.outermost close? 0 ts).map (·.found s)) =
      some (s.splice ((Tag.outermost close? 0 ts).map fun e =>
        ⟨e.opening.start, e.closing.stop, f e⟩)) := by
  rw [fillIn_map]
  exact fillIn_eq_some (fun e => (e.opening.start, e.closing.stop))
    (fun e he => (hlies e he).span_found) (Tag.ordered_outermost hclose f)
    (fun e he => (hlies e he).closing.stop_le) hfilling

end Stencil
