import Stencil.Proofs.Composition.Survey
import Stencil.Proofs.Scoping.Lookup

/-!
# Sources with followed tags

In the source of a template that stands alone, the tags of values are followed, or covered by texts:
it is sound either way, and has the same regions and the same blocks. What it is composed to is one
outline for all ways to see them.
-/

namespace Stencil

open Recognizer Outline

/-! ## Tags of values -/

namespace Delimiters

variable {d : Delimiters} {legacy : List Text} {body : Text}

/-- A tag that is a value: its path is no reserved word, and it is neither a tag of a conditional
nor the opening tag of a legacy loop, given the paths at which these are closed. -/
def IsValue (d : Delimiters) (legacy : List Text) (body : Text) : Prop :=
  reading d d.conditionalTag body = none ∧ ∃ v ∈ reading d d.variableTag body,
    v.path ∉ reservedWords ∧ (v.chain? = none → v.path ∉ legacy)

instance (d : Delimiters) (legacy : List Text) (body : Text) : Decidable (d.IsValue legacy body) :=
  inferInstanceAs (Decidable (_ = none ∧ ∃ v ∈ reading d d.variableTag body, _ ∧ (_ → _)))

theorem IsValue.reads (hd : d.Apart) (hb : d.Free body) (h : d.IsValue legacy body) :
    ∃ v, d.Reads legacy body { value? := some v } := by
  obtain ⟨hconditional, v, hread, hpath, hopen⟩ := h
  have hreads : d.Reads legacy body _ := reads_value_of_unconditional hd hb hread hpath hconditional
  refine ⟨v, hreads.free, hreads.silent, hreads.conditional, hreads.value, hreads.opening,
    fun {head} hmem => ?_, hreads.closing, hreads.legacyClosing⟩
  rw [hreads.legacyOpening hmem]
  cases hchain : v.chain? with
  | some chain => simp
  | none =>
    refine ⟨fun hhead => absurd hmem ?_, fun hhead => absurd hhead (by simp)⟩
    obtain rfl : (⟨.legacy, v.path⟩ : LoopHead) = head := by simpa using hhead
    exact hopen hchain

end Delimiters

/-- A piece of a source, followed if it is the tag of a value. -/
def Piece.follow (d : Delimiters) (legacy : List Text) : Piece Text → Piece Followed
  | .plain s => .plain (.text s)
  | .tag body => if d.IsValue legacy body then .plain (.tag body []) else .tag body

/-- Text in which no tag starts, or a tag without a part in composition. -/
def Piece.Silent (d : Delimiters) : Piece Text → Prop
  | .plain s => d.Plain s
  | .tag body => d.Free body ∧ d.Silent body

/-- A piece with the regions put back into it. -/
def Piece.putBack (regions : ProtectedRegions) : Piece Followed → Piece Followed
  | .plain (.text s) => .plain (.text (regions.restore s))
  | .plain (.tag body trail) => .plain (.tag body trail)
  | .tag body => .tag body

/-! ## Blocks -/

namespace Outline

variable {P : Type} {d : Delimiters}

/-- An outline with its blocks in place: what is in a block stands where the block did, but a block
inside one of the same name is gone. -/
def unwrapped (d : Delimiters) (active : List String) (ps : List (Piece P)) : List (Piece P) :=
  (segments (blockPairing d) ps).attach.flatMap fun x =>
    match x with
    | ⟨.piece q, _⟩ => [q]
    | ⟨.pair name _ inside _, _⟩ =>
      if name ∈ active then [] else unwrapped d (name :: active) inside
termination_by ps.length
decreasing_by exact length_inside_lt ‹_›

theorem unwrapped_eq (active : List String) (ps : List (Piece P)) :
    unwrapped d active ps = (segments (blockPairing d) ps).flatMap (Segment.leave fun name inside =>
      if name ∈ active then [] else unwrapped d (name :: active) inside) := by
  rw [unwrapped]
  refine (List.flatMap_subtype fun x hx => ?_).trans (by rw [List.unattach_attach])
  cases x <;> rfl

theorem mem_of_mem_unwrapped {active : List String} {ps : List (Piece P)} {q : Piece P}
    (h : q ∈ unwrapped d active ps) : q ∈ ps := by
  -- what is in a block is a shorter outline
  induction hn : ps.length using Nat.strongRecOn generalizing active ps with
  | ind n ih =>
    rw [unwrapped_eq] at h
    rcases mem_leave h with hq | ⟨name, front, inside, back, hpair, hq⟩
    · exact mem_of_mem_pieces hq q (List.mem_singleton_self q)
    · have hlt : inside.length < n := hn ▸ length_inside_lt hpair
      split at hq
      · exact absurd hq (by simp)
      · exact mem_of_mem_pieces hpair q (by simp [Segment.pieces, ih inside.length hlt hq rfl])

/-- Where no block is defined elsewhere, resolving blocks puts what is in them in their places. -/
theorem resolve_unwrapped (hd : d.Apart) {r : P → Piece Text} (active : List String)
    {ps : List (Piece P)} (htidy : ∀ q ∈ ps, (q.bind r).Tidy d id)
    (hignores : ∀ p body, .plain p ∈ ps → r p = .tag body →
      ∀ tags, (blockPairing d).Ignores tags body) :
    Blocks.resolve d [] active (write d id (ps.map (Piece.bind r))) =
      write d id ((unwrapped d active ps).map (Piece.bind r)) := by
  induction hn : ps.length using Nat.strongRecOn generalizing active ps with
  | ind n ih =>
    rw [resolve_write hd [] active (tidy_bind htidy), unwrapped_eq]
    refine replaced_bind (fun p body hp hbody => hignores p body hp hbody _)
      fun name front inside back hpair => ?_
    have hmem : ∀ q ∈ inside, q ∈ ps := fun q hq =>
      mem_of_mem_pieces hpair q (by simp [Segment.pieces, hq])
    have hlt : inside.length < n := hn ▸ length_inside_lt hpair
    rw [definition]
    split
    · rfl
    · exact ih inside.length hlt (name :: active) (fun q hq => htidy q (hmem q hq))
        (fun p body hp => hignores p body (hmem _ hp)) rfl

end Outline

/-! ## Sources -/

namespace Fragment

variable {d : Delimiters} {legacy : List Text} {fs : List Fragment} {r : Followed → Piece Text}
  {f : Text → Text}

/-- A part of a source, with the tags of values in it seen in some way. -/
def seen (d : Delimiters) (legacy : List Text) (r : Followed → Piece Text) : Fragment → Fragment
  | .piece q => .piece ((q.follow d legacy).bind r)
  | .region front content back => .region front content back

/-- The paths at which legacy loops of a source are closed. -/
def closedPaths (d : Delimiters) (fs : List Fragment) : List Text :=
  readings d d.legacyClosing (outline fs)

/-- A source with the tags of values in it covered by texts. -/
def covered (d : Delimiters) (f : Text → Text) (fs : List Fragment) : List Fragment :=
  fs.map (seen d (closedPaths d fs) (Followed.covered f))

/-- What a source is composed to, with the tags of values in it followed: its regions are aside, and
its blocks in place. -/
def followed (d : Delimiters) (fs : List Fragment) : List (Piece Followed) :=
  unwrapped d [] ((outline fs).map (Piece.follow d (closedPaths d fs)))

/-- A text that does no harm in the place of a tag: no tag starts in it, and it spells no
placeholder if regions are aside. -/
def Harmless (d : Delimiters) (fs : List Fragment) (t : Text) : Prop :=
  d.Plain t ∧ (contents fs ≠ [] → ProtectedRegions.opener ∉ t)

instance (d : Delimiters) (fs : List Fragment) (t : Text) : Decidable (Harmless d fs t) :=
  inferInstanceAs (Decidable (_ ∧ (_ → _)))

/-- A sound source that stands alone: it names no other template, and it spells no placeholder if it
has regions. -/
structure Alone (d : Delimiters) (fs : List Fragment) : Prop where
  /-- Tags and regions are what they are meant to be. -/
  sound : Sound d fs
  /-- It includes nothing. -/
  include_ : ∀ body, .piece (.tag body) ∈ fs → reading d d.includeTag body = none
  /-- It has no base. -/
  base : ∀ body, .piece (.tag body) ∈ fs → reading d d.baseTag body = none
  /-- Placeholders are spelled nowhere. -/
  opener : contents fs ≠ [] → ProtectedRegions.opener ∉ source d fs

theorem follow_shown (σ : Substitution) (q : Piece Text) :
    (q.follow d legacy).bind (Followed.shown σ) = q := by
  cases q with
  | plain s => rfl
  | tag body =>
    rw [Piece.follow]
    split <;> rfl

/-- Nothing has become of tags before the first pass. -/
theorem map_seen_shown (σ : Substitution) : fs.map (seen d legacy (Followed.shown σ)) = fs := by
  refine (List.map_congr_left fun x _ => ?_).trans (List.map_id fs)
  cases x with
  | piece q => exact congrArg Fragment.piece (follow_shown σ q)
  | region front content back => rfl

theorem shelve_seen (hr : ∀ s, r (.text s) = .plain s) (count : Nat) :
    shelve id ProtectedRegions.placeholder count (fs.map (seen d legacy r)) =
      ((shelve id ProtectedRegions.placeholder count fs).map (Piece.follow d legacy)).map
        (Piece.bind r) := by
  have hpiece : ∀ (q : Piece Text) count fs, shelve id ProtectedRegions.placeholder count
      (.piece q :: fs) = q :: shelve id ProtectedRegions.placeholder count fs := by
    intro q count fs
    cases q <;> rfl
  induction fs generalizing count with
  | nil => rfl
  | cons x fs ih =>
    cases x with
    | piece q => rw [List.map_cons, seen, hpiece, hpiece, ih, List.map_cons, List.map_cons]
    | region front content back =>
      rw [List.map_cons, seen, shelve, shelve, ih, List.map_cons, List.map_cons, Piece.follow,
        Piece.bind_plain, hr]

theorem contents_seen : contents (fs.map (seen d legacy r)) = contents fs := by
  induction fs with
  | nil => rfl
  | cons x fs ih =>
    cases x with
    | piece q => exact ih
    | region front content back => exact congrArg (content :: ·) ih

/-- Where tags are covered, the tags that are left were there before. -/
theorem eq_tag_of_covered {q : Piece Text} {body : Text}
    (h : (q.follow d legacy).bind (Followed.covered f) = .tag body) : q = .tag body := by
  cases q with
  | plain s => exact absurd h (by simp [Piece.follow, Followed.covered])
  | tag body' =>
    rw [Piece.follow] at h
    split at h
    · exact absurd h (by simp [Followed.covered])
    · exact h

theorem Sound.covered (hd : d.Apart) (hf : ∀ body, d.Plain (f body)) (h : Sound d fs) :
    Sound d (fs.map (seen d legacy (Followed.covered f))) := by
  induction fs with
  | nil => trivial
  | cons x fs ih =>
    have ih := ih h.tail
    rcases x with ⟨s | body⟩ | ⟨front, content, back⟩
    · exact ⟨h.1, ih⟩
    · rw [List.map_cons, seen, Piece.follow]
      split
      · exact ⟨hf body, ih⟩
      · refine ⟨h.1, h.2.1.imp_right fun hopen => ?_, ih⟩
        -- nothing closes the region that the tag would open, with or without the tags of values
        obtain ⟨ps, rfl, hclosing⟩ := h.tail.eq_pieces hd hopen
        have hpieces : (ps.map Fragment.piece).map (seen d legacy (Followed.covered f)) =
            (ps.map fun q => (q.follow d legacy).bind (Followed.covered f)).map .piece := by
          rw [List.map_map, List.map_map]
          rfl
        rw [hpieces] at ih ⊢
        rw [source_pieces]
        refine Delimiters.unclosed_write hd (fun q hq => ?_) fun back hback => ?_
        · cases q with
          | plain s => exact ih.plain (List.mem_map_of_mem hq)
          | tag back => exact ih.free (List.mem_map_of_mem hq)
        · obtain ⟨q, hq, heq⟩ := List.mem_map.mp hback
          exact hclosing back (eq_tag_of_covered heq ▸ hq)
    · exact ⟨h.1, h.2.1, h.2.2.1, h.2.2.2.1, h.2.2.2.2.1, ih⟩

theorem Alone.covered (hd : d.Apart) (hf : ∀ body, Harmless d fs (f body)) (h : Alone d fs) :
    Alone d (covered d f fs) := by
  have hmem : ∀ body, .piece (.tag body) ∈ Fragment.covered d f fs → .piece (.tag body) ∈ fs := by
    intro body hbody
    obtain ⟨x, hx, heq⟩ := List.mem_map.mp hbody
    cases x with
    | piece q => exact eq_tag_of_covered (Fragment.piece.inj heq) ▸ hx
    | region front content back => exact absurd heq (by simp [seen])
  refine ⟨h.sound.covered hd fun body => (hf body).1,
    fun body hbody => h.include_ body (hmem body hbody),
    fun body hbody => h.base body (hmem body hbody), fun hregions hopener => ?_⟩
  rw [Fragment.covered, contents_seen] at hregions
  obtain ⟨y, hy, hc⟩ := List.mem_flatMap.mp hopener
  obtain ⟨x, hx, rfl⟩ := List.mem_map.mp hy
  have hsource := fun hc => h.opener hregions (mem_source hx hc)
  rcases x with ⟨s | body⟩ | ⟨front, content, back⟩
  · exact hsource hc
  · rw [seen, Piece.follow] at hc
    split at hc
    · exact (hf body).2 hregions hc
    · exact hsource hc
  · exact hsource hc

/-- Before any pass, the outline of a source is fresh. -/
theorem fresh_follow (hd : d.Apart) (h : Sound d fs) :
    ∀ q ∈ (outline fs).map (Piece.follow d (closedPaths d fs)), q.Fresh d (closedPaths d fs) := by
  intro q hq
  obtain ⟨x, hx, rfl⟩ := List.mem_map.mp hq
  have htidy := tidy_shelve hd h 0 x hx
  cases x with
  | plain s => exact htidy
  | tag body =>
    rw [Piece.follow]
    split
    · rename_i hvalue
      exact ⟨rfl, hvalue.reads hd htidy⟩
    · exact ⟨htidy, fun path hpath => List.mem_flatMap.mpr ⟨_, hx, by simp [hpath]⟩⟩

theorem fresh_followed (hd : d.Apart) (h : Sound d fs) :
    ∀ q ∈ followed d fs, q.Fresh d (closedPaths d fs) :=
  fun q hq => fresh_follow hd h q (mem_of_mem_unwrapped hq)

theorem mem_outline_of_followed (σ : Substitution) {q : Piece Followed} (h : q ∈ followed d fs) :
    q.bind (Followed.shown σ) ∈ outline fs := by
  obtain ⟨x, hx, rfl⟩ := List.mem_map.mp (mem_of_mem_unwrapped h)
  rwa [follow_shown]

/-- Beside placeholders, nothing of a source that stands alone has an opener. -/
theorem Alone.opener_outline (h : Alone d fs) (hregions : contents fs ≠ []) :
    ∀ x ∈ outline fs, (∃ n, x = .plain (ProtectedRegions.placeholder n)) ∨
      ProtectedRegions.opener ∉ x.text d id :=
  forall_mem_shelve (fun _ hs => .inr fun hc => h.opener hregions (mem_source hs hc))
    (fun n => .inl ⟨n, rfl⟩) (fun _ hb => .inr fun hc => h.opener hregions (mem_source hb hc)) 0

/-- No region of a source that stands alone has an opener. -/
theorem Alone.opener_contents (h : Alone d fs) :
    ∀ content ∈ contents fs, ProtectedRegions.opener ∉ content := by
  intro content hcontent hc
  obtain ⟨front, back, hmem⟩ := mem_contents hcontent
  exact h.opener (List.ne_nil_of_mem hcontent) (mem_source hmem (by simp [text, hc]))

/-! ## Sources without composition -/

/-- A source of text and of tags without a part in composition stands alone. -/
theorem alone_pieces {ps : List (Piece Text)} (h : ∀ q ∈ ps, q.Silent d) :
    Alone d (ps.map .piece) where
  sound := sound_pieces (fun _ hs => h _ hs) fun _ hbody => ⟨(h _ hbody).1, (h _ hbody).2.region⟩
  include_ body hbody := (h (.tag body) (by simpa using hbody)).2.include_
  base body hbody := (h (.tag body) (by simpa using hbody)).2.base
  opener hregions := absurd (contents_pieces ps) hregions

/-- It is composed to its pieces. -/
theorem followed_pieces {ps : List (Piece Text)} (h : ∀ q ∈ ps, q.Silent d) :
    followed d (ps.map .piece) = ps.map (Piece.follow d (readings d d.legacyClosing ps)) := by
  have houtline : outline (ps.map .piece) = ps := shelve_pieces _ _ ps
  rw [followed, closedPaths, houtline, unwrapped_eq, segments_of_heads_nil, leave_pieces]
  intro body hbody
  obtain ⟨q, hq, heq⟩ := List.mem_map.mp hbody
  have hblock : reading d d.blockOpening body = none := by
    cases q with
    | plain s => exact absurd heq (by simp [Piece.follow])
    | tag body' =>
      rw [Piece.follow] at heq
      split at heq
      · exact absurd heq (by simp)
      · exact Piece.tag.inj heq ▸ (h _ hq).2.block
  simp [blockPairing, hblock]

end Fragment

end Stencil
