import Stencil.Engine.Composition
import Stencil.Proofs.Outline.Loops
import Stencil.Proofs.Protection.Extract

/-!
# What the sources of an engine hold

The tags in the sources that an engine can load, the contexts in which a render comes across them,
and the texts that it puts in the place of variable tags. Contexts are those of the render itself
and those that loops of the sources make out of them, one inside the other.
-/

namespace Stencil

open Recognizer

/-! ## Parts of sources -/

namespace Fragment

variable {P : Type} {d : Delimiters} {fs : List Fragment}

theorem mem_source {f : Fragment} (h : f ∈ fs) {c : Char} (hc : c ∈ text d f) : c ∈ source d fs :=
  List.mem_flatMap.mpr ⟨f, h, hc⟩

theorem Sound.tail {f : Fragment} (h : Sound d (f :: fs)) : Sound d fs := by
  cases f with
  | piece q =>
    cases q with
    | plain s => exact h.2
    | tag body => exact h.2.2
  | region front content back => exact h.2.2.2.2.2

theorem Sound.free (h : Sound d fs) {body : Text} (hb : .piece (.tag body) ∈ fs) : d.Free body := by
  induction fs with
  | nil => exact absurd hb (by simp)
  | cons f fs ih =>
    rcases List.mem_cons.mp hb with rfl | hb
    · exact h.1
    · exact ih h.tail hb

theorem Sound.plain (h : Sound d fs) {s : Text} (hs : .piece (.plain s) ∈ fs) : d.Plain s := by
  induction fs with
  | nil => exact absurd hs (by simp)
  | cons f fs ih =>
    rcases List.mem_cons.mp hs with rfl | hs
    · exact h.1
    · exact ih h.tail hs

theorem mem_contents {content : Text} (h : content ∈ contents fs) :
    ∃ front back, .region front content back ∈ fs := by
  fun_induction contents fs with
  | case1 => exact absurd h (by simp)
  | case2 q fs ih =>
    obtain ⟨front, back, hmem⟩ := ih h
    exact ⟨front, back, by simp [hmem]⟩
  | case3 front inside back fs ih =>
    rcases List.mem_cons.mp h with rfl | h
    · exact ⟨front, back, by simp⟩
    · obtain ⟨front', back', hmem⟩ := ih h
      exact ⟨front', back', by simp [hmem]⟩

/-- The pieces that are left when regions are put aside are placeholders and those of the source. -/
theorem forall_mem_shelve {plain : Text → P} {shelved : Nat → P} {A : Piece P → Prop}
    (hplain : ∀ s, .piece (.plain s) ∈ fs → A (.plain (plain s)))
    (hshelved : ∀ n, A (.plain (shelved n)))
    (htag : ∀ body, .piece (.tag body) ∈ fs → A (.tag body))
    (count : Nat) : ∀ q ∈ shelve plain shelved count fs, A q := by
  fun_induction shelve plain shelved count fs with
  | case1 => exact fun q hq => absurd hq (by simp)
  | case2 count s fs ih =>
    refine List.forall_mem_cons.mpr ⟨hplain s (by simp), ih ?_ ?_⟩
    · exact fun t ht => hplain t (by simp [ht])
    · exact fun b hb => htag b (by simp [hb])
  | case3 count body fs ih =>
    refine List.forall_mem_cons.mpr ⟨htag body (by simp), ih ?_ ?_⟩
    · exact fun t ht => hplain t (by simp [ht])
    · exact fun b hb => htag b (by simp [hb])
  | case4 count front content back fs ih =>
    refine List.forall_mem_cons.mpr ⟨hshelved count, ih ?_ ?_⟩
    · exact fun t ht => hplain t (by simp [ht])
    · exact fun b hb => htag b (by simp [hb])

/-! ## Sources without regions -/

theorem source_pieces (ps : List (Piece Text)) :
    source d (ps.map .piece) = Outline.write d id ps := by
  simp [source, text, Outline.write, List.flatMap_map]

theorem shelve_pieces (shelved : Nat → Text) (count : Nat) (ps : List (Piece Text)) :
    shelve id shelved count (ps.map .piece) = ps := by
  induction ps with
  | nil => rfl
  | cons q ps ih =>
    cases q with
    | plain s => exact congrArg (Piece.plain s :: ·) ih
    | tag body => exact congrArg (Piece.tag body :: ·) ih

theorem contents_pieces (ps : List (Piece Text)) : contents (ps.map .piece) = [] := by
  induction ps with
  | nil => rfl
  | cons q ps ih => exact ih

theorem sound_pieces {ps : List (Piece Text)} (hplain : ∀ s, .plain s ∈ ps → d.Plain s)
    (htag : ∀ body, .tag body ∈ ps → d.Free body ∧ reading d d.regionOpening body = none) :
    Sound d (ps.map .piece) := by
  induction ps with
  | nil => trivial
  | cons q ps ih =>
    have ih := ih (fun s hs => hplain s (by simp [hs])) fun body hbody =>
        htag body (by simp [hbody])
    cases q with
    | plain s => exact ⟨hplain s (by simp), ih⟩
    | tag body =>
      obtain ⟨hb, hnone⟩ := htag body (by simp)
      exact ⟨hb, .inl hnone, ih⟩

/-- A sound source in which no region is closed is made of pieces. -/
theorem Sound.eq_pieces (hd : d.Apart) (h : Sound d fs) (hopen : d.Unclosed (source d fs)) :
    ∃ ps : List (Piece Text), fs = ps.map .piece ∧
      ∀ body, .tag body ∈ ps → reading d d.regionClosing body = none := by
  induction fs with
  | nil => exact ⟨[], rfl, by simp⟩
  | cons f fs ih =>
    have hsource : source d (f :: fs) = text d f ++ source d fs := rfl
    rw [hsource] at hopen
    obtain ⟨ps, rfl, hps⟩ := ih h.tail fun t ht => hopen t (ht.trans (List.suffix_append _ _))
    cases f with
    | piece q =>
      refine ⟨q :: ps, rfl, fun body hbody => ?_⟩
      rcases List.mem_cons.mp hbody with rfl | hbody
      · have hnone := hopen _ (List.suffix_refl _)
        rw [text, Piece.text, (Delimiters.delimited_regionClosing hd).eq_reading h.1] at hnone
        exact Option.map_eq_none_iff.mp hnone
      · exact hps body hbody
    | region front content back =>
      -- the closing tag of the region
      obtain ⟨-, hback, -, hclosing, -, -⟩ := h
      have hnone := hopen (d.enclose back ++ source d (ps.map .piece))
        ⟨d.enclose front ++ content, by simp [text]⟩
      rw [(Delimiters.delimited_regionClosing hd).eq_reading hback, hclosing] at hnone
      exact absurd hnone (by simp)

end Fragment

/-- No tag starts in a placeholder. -/
theorem Delimiters.Apart.plain_placeholder {d : Delimiters} (hd : d.Apart) (index : Nat) :
    d.Plain (ProtectedRegions.placeholder index) := by
  have htag : ∀ c, isTagChar c = true → c ≠ d.mark := by
    rintro c hc rfl
    rw [hd.left_tag d.mark d.mark_mem] at hc
    exact absurd hc (by simp)
  have hword : ∀ c ∈ "noparse:".toList, isTagChar c = true := List.all_eq_true.mp (by decide)
  have hdigit : ∀ c, c.isDigit = true → isTagChar c = true := by
    intro c hc
    have : isNameChar c = true := by
      simpa [isNameChar, isDigit, Char.isDigit, Char.le_def] using Or.inl (Or.inr hc)
    simp [isTagChar, isWordChar_of_isNameChar this]
  intro hmem
  rcases List.mem_cons.mp hmem with h | h
  · exact hd.opener (by simp [← h, d.mark_mem])
  · rcases List.mem_append.mp h with h | h
    · rcases List.mem_append.mp h with h | h
      · exact htag _ (hword _ h) rfl
      · exact htag _ (hdigit _ (Decimal.isDigit_of_mem_natText h)) rfl
    · exact hd.closer (by simp [← List.mem_singleton.mp h, d.mark_mem])

/-- What is left of a sound source is tidy. -/
theorem Fragment.tidy_shelve {d : Delimiters} (hd : d.Apart) {fs : List Fragment}
    (hfs : Fragment.Sound d fs) (count : Nat) :
    Outline.Tidy d id (Fragment.shelve id ProtectedRegions.placeholder count fs) :=
  Fragment.forall_mem_shelve (fun _ hs => hfs.plain hs) hd.plain_placeholder
    (fun _ hb => hfs.free hb) count

/-! ## Engines -/

namespace Engine

/-- Every source that an engine can load is sound. -/
def Sound (e : Engine) (disk : Disk) : Prop :=
  ∀ name s, Loader.loadFirst disk e.allLoaders name = .ok s →
    ∃ fs, s = Fragment.source e.delimiters fs ∧ Fragment.Sound e.delimiters fs

/-- Some source has a tag, by its body, outside protected regions. -/
def Uses (e : Engine) (disk : Disk) (body : Text) : Prop :=
  ∃ name fs, Loader.loadFirst disk e.allLoaders name = .ok (Fragment.source e.delimiters fs) ∧
    Fragment.Sound e.delimiters fs ∧ .piece (.tag body) ∈ fs

/-- A tag of a source stands in it. -/
theorem Uses.isInfix {e : Engine} {disk : Disk} {body : Text} (h : e.Uses disk body) :
    ∃ name s, Loader.loadFirst disk e.allLoaders name = .ok s ∧ e.delimiters.Free body ∧
      e.delimiters.enclose body <:+: s := by
  obtain ⟨name, fs, hload, hfs, hbody⟩ := h
  obtain ⟨front, back, rfl⟩ := List.append_of_mem hbody
  refine ⟨name, _, hload, hfs.free hbody, Fragment.source e.delimiters front,
    Fragment.source e.delimiters back, ?_⟩
  simp [Fragment.source, Fragment.text, Piece.text]

/-- The contexts that loops of the sources make out of one. -/
inductive Scope (e : Engine) (disk : Disk) (outer : Context) : Context → Prop where
  /-- Outside all loops. -/
  | here : Scope e disk outer outer
  /-- In a loop, for one of its rows. -/
  | row {c : Context} {body : Text} {head : LoopHead} {x : Value × Nat}
      (outside : Scope e disk outer c)
    (used : e.Uses disk body) (opens : head ∈ (Outline.loopPairing e.delimiters).heads body)
    (mem : x ∈ (Loop.rows c head).zipIdx) :
    Scope e disk outer (Loop.rowContext head.form c x.2 x.1)

/-- A context with one text has no rows. -/
theorem rows_text (key s : String) (head : LoopHead) : Loop.rows [(key, .str s)] head = [] := by
  unfold Loop.rows Context.resolve?
  cases Path.segments head.path with
  | nil => rfl
  | cons first rest =>
    by_cases hk : key = first
    · cases rest <;> simp [Dict.get?, hk, Value.child?]
    · simp [Dict.get?, hk]

theorem Scope.eq_of_text {e : Engine} {disk : Disk} {key s : String} {c : Context}
    (h : e.Scope disk [(key, .str s)] c) : c = [(key, .str s)] := by
  induction h with
  | here => rfl
  | row outside used opens mem ih =>
    rw [ih, rows_text] at mem
    exact absurd mem (by simp)

/-- Some variable tag of a source is replaced by a text, in some scope. -/
def Puts (e : Engine) (disk : Disk) (outer : Context) (t : Text) : Prop :=
  ∃ c body v, e.Scope disk outer c ∧ e.Uses disk body ∧
    reading e.delimiters e.delimiters.variableTag body = some v ∧ e.substitution.text? c v = some t

end Engine

end Stencil
