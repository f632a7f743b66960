import Stencil.Proofs.Outline.Basic
import Stencil.Proofs.Protection.Restore
import Stencil.Proofs.Tag.Wording

/-!
# Putting protected regions aside

A source may hold protected regions between its pieces, with anything but their closing tag in
them. `Fragment` is a part of such a source. Putting the regions aside replaces each by its
placeholder and leaves an outline: what was in a region is not looked at by any later pass.
-/

namespace Stencil

namespace Delimiters

open Recognizer

variable {α : Type} {d : Delimiters} {body : Text}

/-- The tag that opens a protected region. -/
def regionOpening (d : Delimiters) : Recognizer Unit :=
  d.opened (literal "noparse".toList d.closed)

/-- The tag that closes a protected region. -/
def regionClosing (d : Delimiters) : Recognizer Unit :=
  d.opened (literal ['/'] (blanks (literal "noparse".toList d.closed)))

theorem protectedRegion_eq (d : Delimiters) :
    d.protectedRegion = (d.opened (literal "noparse".toList (blanks (literal d.right
      (fewest (fun _ => true) d.regionClosing))))).map (·.1) := rfl

theorem delimited_regionOpening (hd : d.Apart) : Delimited d d.regionOpening :=
  Bounded.opened hd ((bounded_closed hd).literal (hd.not_mem_right (by decide)))

theorem delimited_regionClosing (hd : d.Apart) : Delimited d d.regionClosing := by
  refine Bounded.opened hd (.literal (hd.not_mem_right (by decide)) (.blanks hd ?_))
  exact (bounded_closed hd).literal (hd.not_mem_right (by decide))

/-- The opening tag of a region: a word with blanks around it. -/
theorem shape_regionOpening (hd : d.Apart) (hb : d.Free body) {u : Unit}
    (h : reading d d.regionOpening body = some u) :
    ∃ g g', Blank g ∧ Blank g' ∧ body = g ++ ("noparse".toList ++ g') := by
  obtain ⟨g, t, hg, ht, hlit⟩ :=
    whole_opened (whole_of_reading (delimited_regionOpening hd) hb h)
  obtain ⟨t, rfl, hc⟩ := whole_literal.mp hlit
  obtain ⟨g', hg', hbody⟩ := body_eq_of_closed (g ++ "noparse".toList)
    (by rw [ht]; simp) hc
  exact ⟨g, g', hg, hg', by rw [hbody, List.append_assoc]⟩

theorem leadingWord_regionOpening (hd : d.Apart) (hb : d.Free body) {u : Unit}
    (h : reading d d.regionOpening body = some u) : leadingWord body = "noparse".toList := by
  obtain ⟨g, g', hg, hg', rfl⟩ := shape_regionOpening hd hb h
  refine leadingWord_fixed hg (by decide) (by decide) ?_
  cases g' with
  | nil => rfl
  | cons x g' => simpa using not_word_of_blank (t := []) hg' (by simp)

/-! ## Reading behind a tag -/

/-- What cannot follow a blank is read behind all blanks. -/
theorem blanks_eq {next : Recognizer α} (h : ∀ c s, isBlank c = true → next (c :: s) = none)
    (s : Text) :
    blanks next s =
      (next (s.dropWhile isBlank)).map fun x => (s.takeWhile isBlank ++ x.1, x.2) := by
  have hmost : most isBlank next s = (next (s.dropWhile isBlank)).map fun x =>
      (s.takeWhile isBlank ++ x.1, s.takeWhile isBlank, x.2) := by
    induction s with
    | nil =>
      rw [most, Recognizer.map, List.dropWhile_nil]
      cases next [] <;> rfl
    | cons c s ih =>
      by_cases hc : isBlank c = true
      · have hnone : next.map (fun a => (([] : Text), a)) (c :: s) = none := by
          rw [Recognizer.map, h c s hc]
        rw [most, if_pos hc, ih, hnone, List.dropWhile_cons_of_pos hc,
          List.takeWhile_cons_of_pos hc]
        cases next (s.dropWhile isBlank) <;> rfl
      · rw [most, if_neg hc, List.dropWhile_cons_of_neg hc, List.takeWhile_cons_of_neg hc]
        dsimp only
        rw [Recognizer.map]
        cases next (c :: s) <;> rfl
  rw [blanks, Recognizer.map, hmost]
  cases next (s.dropWhile isBlank) <;> rfl

theorem literal_of_blank {next : Recognizer α} {w : Text} {c : Char}
    (hw : w.head?.any isBlank = false) (hne : w ≠ []) (s : Text) (hc : isBlank c = true) :
    literal w next (c :: s) = none := by
  apply literal_eq_none
  intro hp
  obtain ⟨x, w, rfl⟩ := List.exists_cons_of_ne_nil hne
  rw [List.cons_prefix_cons] at hp
  rw [hp.1] at hw
  simp [hc] at hw

theorem blanks_literal {next : Recognizer α} {w g t : Text} (hw : w.head?.any isBlank = false)
    (hne : w ≠ []) (hg : Blank g) (ht : t.head?.any isBlank = false) :
    blanks (literal w next) (g ++ t) = (literal w next t).map fun x => (g ++ x.1, x.2) := by
  have htake : (g ++ t).takeWhile isBlank = g := by
    rw [List.takeWhile_append_of_pos hg]
    cases t with
    | nil => simp
    | cons c t => rw [List.takeWhile_cons_of_neg (by simpa using ht), List.append_nil]
  rw [blanks_eq (fun c s hc => literal_of_blank hw hne s hc), dropWhile_blank hg ht, htake]

theorem Apart.right_head (hd : d.Apart) (rest : Text) :
    (d.right ++ rest).head?.any isBlank = false := by
  obtain ⟨c, cs, hc, -⟩ := hd.right_eq
  have := hd.within_blank c (by simp [hc])
  simpa [hc] using this

/-- Whether a tag opens a region is settled by the tag; then it is read on behind it. -/
theorem regionFront_cases (hd : d.Apart) (hb : d.Free body) :
    (∀ {γ : Type} (cont : Recognizer γ) rest,
      blanks (literal "noparse".toList (blanks (literal d.right cont)))
        (body ++ (d.right ++ rest)) = (cont rest).map fun x => (body ++ (d.right ++ x.1), x.2)) ∨
    (∀ {γ : Type} (cont : Recognizer γ) rest,
      blanks (literal "noparse".toList (blanks (literal d.right cont)))
        (body ++ (d.right ++ rest)) = none) := by
  have hnoparse : ("noparse".toList).head?.any isBlank = false := by decide
  have hright : d.right.head?.any isBlank = false := by simpa using hd.right_head []
  obtain ⟨g, t, hg, rfl, ht⟩ := exists_blank_append body
  have hfree : d.Free t := (free_append.mp hb).2
  have hhead : ∀ rest, (t ++ (d.right ++ rest)).head?.any isBlank = false := by
    intro rest
    cases t with
    | nil => exact hd.right_head rest
    | cons c t => simpa using ht
  have hread : ∀ {γ : Type} (cont : Recognizer γ) rest,
      blanks (literal "noparse".toList (blanks (literal d.right cont)))
          (g ++ t ++ (d.right ++ rest)) =
        (literal "noparse".toList (blanks (literal d.right cont)) (t ++ (d.right ++ rest))).map
          fun x => (g ++ x.1, x.2) := by
    intro γ cont rest
    rw [List.append_assoc, blanks_literal hnoparse (by decide) hg (hhead rest)]
  by_cases hp : "noparse".toList <+: t
  · obtain ⟨t, rfl⟩ := hp
    obtain ⟨g', t, hg', rfl, ht'⟩ := exists_blank_append t
    have hread' : ∀ {γ : Type} (cont : Recognizer γ) rest,
        blanks (literal "noparse".toList (blanks (literal d.right cont)))
            (g ++ ("noparse".toList ++ (g' ++ t)) ++ (d.right ++ rest)) =
          (literal d.right cont (t ++ (d.right ++ rest))).map
            fun x => (g ++ ("noparse".toList ++ (g' ++ x.1)), x.2) := by
      intro γ cont rest
      have hhead' : (t ++ (d.right ++ rest)).head?.any isBlank = false := by
        cases t with
        | nil => exact hd.right_head rest
        | cons c t => simpa using ht'
      rw [hread, List.append_assoc, literal_append, List.append_assoc,
        blanks_literal hright d.right_ne_nil hg' hhead']
      cases literal d.right cont (t ++ (d.right ++ rest)) <;> rfl
    cases t with
    | nil =>
      left
      intro γ cont rest
      rw [hread', List.nil_append, literal_append, List.append_nil]
      cases cont rest with
      | none => rfl
      | some x => simp
    | cons c t =>
      right
      intro γ cont rest
      rw [hread', literal_eq_none]
      · rfl
      · intro hpre
        obtain ⟨r, rs, hr⟩ := List.exists_cons_of_ne_nil d.right_ne_nil
        rw [hr, List.cons_append, List.cons_prefix_cons] at hpre
        have hc : c ∈ "noparse".toList ++ (g' ++ c :: t) := by simp
        exact (hfree c hc).2 (by simp [hr, hpre.1])
  · right
    intro γ cont rest
    rw [hread, literal_eq_none]
    · rfl
    · exact fun hpre => hp (prefix_body (hd.not_mem_right (by decide)) hpre)

/-- A protected region is a tag that opens one, and the rest up to a closing tag. -/
theorem protectedRegion_enclose (hd : d.Apart) (hb : d.Free body) (rest : Text) :
    d.protectedRegion (d.enclose body ++ rest) =
      (reading d d.regionOpening body).bind fun _ =>
        (fewest (fun _ => true) d.regionClosing rest).map fun x =>
          (d.enclose body ++ x.1, x.2.1) := by
  have hopened : ∀ {γ : Type} (next : Recognizer γ) t,
      d.opened next (d.enclose body ++ t) =
        (blanks next (body ++ (d.right ++ t))).map fun x => (d.left ++ x.1, x.2) := by
    intro γ next t
    rw [opened, enclose, List.append_assoc, List.append_assoc, literal_append]
  have hread : reading d d.regionOpening body =
      (blanks (literal "noparse".toList (blanks (literal d.right (done ()))))
        (body ++ (d.right ++ []))).map (·.2) := by
    have := hopened (literal "noparse".toList d.closed) []
    rw [List.append_nil] at this
    rw [reading, regionOpening, this, Option.map_map]
    rfl
  rw [protectedRegion_eq, Recognizer.map, hopened, hread]
  rcases regionFront_cases hd hb with h | h
  · rw [h, h]
    cases fewest (fun _ => true) d.regionClosing rest with
    | none => rfl
    | some x => simp [enclose, done]
  · rw [h, h]
    rfl

/-! ## Where a region ends -/

/-- No closing tag of a region stands in a text. -/
def Unclosed (d : Delimiters) (s : Text) : Prop := ∀ t, t <:+ s → d.regionClosing t = none

/-- A closing tag is a tag. -/
theorem regionClosing_eq_some (hd : d.Apart) {s : Text} {x : Text × Unit}
    (h : d.regionClosing s = some x) :
    ∃ body rest, d.Free body ∧ s = d.enclose body ++ rest := by
  have hliteral : ∀ {β : Type} {w s : Text} {next : Recognizer β} {x},
      literal w next s = some x → ∃ t y, s = w ++ t ∧ next t = some y := by
    intro β w s next x h
    by_cases hp : w <+: s
    · obtain ⟨t, rfl⟩ := hp
      rw [literal_append] at h
      obtain ⟨y, hy, -⟩ := Option.map_eq_some_iff.mp h
      exact ⟨t, y, rfl, hy⟩
    · rw [literal_eq_none hp] at h
      exact absurd h (by simp)
  have hblanks : ∀ {β : Type} {s w : Text} {next : Recognizer β} {x},
      w.head?.any isBlank = false → w ≠ [] → blanks (literal w next) s = some x →
        ∃ g t y, Blank g ∧ s = g ++ (w ++ t) ∧ next t = some y := by
    intro β s w next x hw hne h
    obtain ⟨g, t, hg, rfl, ht⟩ := exists_blank_append s
    rw [blanks_literal hw hne hg ht] at h
    obtain ⟨y, hy, -⟩ := Option.map_eq_some_iff.mp h
    obtain ⟨u, z, rfl, hz⟩ := hliteral hy
    exact ⟨g, u, z, hg, rfl, hz⟩
  obtain ⟨t, y, rfl, hslash⟩ := hliteral h
  obtain ⟨g, t, y, hg, rfl, hword⟩ := hblanks (by decide) (by decide) hslash
  obtain ⟨g', t, y, hg', rfl, hright⟩ := hblanks (by decide) (by decide) hword
  obtain ⟨g'', t, y, hg'', rfl, -⟩ :=
    hblanks (by simpa using hd.right_head []) d.right_ne_nil hright
  refine ⟨g ++ (['/'] ++ (g' ++ ("noparse".toList ++ g''))), t, ?_, by simp [enclose]⟩
  have hwordFree : ∀ {w : Text}, w.all isTagChar = true → d.Free w := fun hw =>
    hd.free_of_tagChar (List.all_eq_true.mp hw)
  exact free_append.mpr ⟨hd.free_of_blank hg, free_append.mpr ⟨hwordFree (by decide),
    free_append.mpr ⟨hd.free_of_blank hg', free_append.mpr ⟨hwordFree (by decide),
      hd.free_of_blank hg''⟩⟩⟩⟩

/-- A text without a closing tag does not begin one that the next tag ends. -/
theorem Unclosed.append (hd : d.Apart) {s : Text} (h : d.Unclosed s) (t : Text) {i : Nat}
    (hi : i < s.length) : d.regionClosing (s.drop i ++ (d.left ++ t)) = none := by
  cases hr : d.regionClosing (s.drop i ++ (d.left ++ t)) with
  | none => rfl
  | some x =>
    obtain ⟨body, rest, hb, heq⟩ := regionClosing_eq_some hd hr
    have hlen : 0 < (s.drop i).length := by simp; omega
    by_cases hle : (d.enclose body).length ≤ (s.drop i).length
    · -- the closing tag would stand in the text
      obtain ⟨u, hu⟩ : d.enclose body <+: s.drop i :=
        List.prefix_of_prefix_length_le ⟨rest, heq.symm⟩ (List.prefix_append _ _) hle
      have hnone : d.regionClosing (d.enclose body ++ u) = none :=
        h _ (by rw [hu]; exact List.drop_suffix i s)
      rcases (delimited_regionClosing hd).decided body hb with hn | ⟨a, hs⟩
      · rw [heq, hn rest] at hr
        exact absurd hr (by simp)
      · rw [hs u] at hnone
        exact absurd hnone (by simp)
    · -- the left delimiter would stand inside the closing tag
      refine absurd ?_ (hd.not_prefix_inside hb rest hlen (by omega))
      refine ⟨t, ?_⟩
      have := congrArg (List.drop (s.drop i).length) heq
      rw [List.drop_left, List.drop_append_of_le_length (by omega)] at this
      exact this

/-- No closing tag stands in an outline without one. -/
theorem unclosed_write (hd : d.Apart) {P : Type} {w : P → Text} {ps : List (Piece P)}
    (hps : Outline.Tidy d w ps)
    (h : ∀ body, .tag body ∈ ps → reading d d.regionClosing body = none) :
    d.Unclosed (Outline.write d w ps) := by
  intro t ht
  refine Option.eq_none_iff_forall_ne_some.mpr fun x hx => ?_
  obtain ⟨body, rest, hb, rfl⟩ := regionClosing_eq_some hd hx
  have hinfix : d.enclose body <:+: Outline.write d w ps :=
    (List.prefix_append _ rest).isInfix.trans ht.isInfix
  rw [(delimited_regionClosing hd).eq_reading hb, h body (Outline.mem_of_isInfix hd hps hb hinfix)]
    at hx
  exact absurd hx (by simp)

end Delimiters

/-! ## Sources -/

/-- A part of a source. -/
inductive Fragment where
  /-- A piece of the template. -/
  | piece (q : Piece Text)
  /-- A protected region, with the bodies of its tags. -/
  | region (front content back : Text)

namespace Fragment

open Recognizer Delimiters

variable {P : Type} (d : Delimiters)

/-- A part of a source as it is written. -/
def text : Fragment → Text
  | .piece q => q.text d id
  | .region front content back => d.enclose front ++ (content ++ d.enclose back)

/-- The text of a source. -/
def source (fs : List Fragment) : Text := fs.flatMap (text d)

/-- A source in which tags and regions are what they are meant to be: tags start nowhere else, a
region has its tags around it and no closing tag in it, and a tag that would open a region is
closed nowhere. -/
def Sound : List Fragment → Prop
  | [] => True
  | .piece (.plain s) :: fs => d.Plain s ∧ Sound fs
  | .piece (.tag body) :: fs =>
    d.Free body ∧ (reading d d.regionOpening body = none ∨ d.Unclosed (source d fs)) ∧ Sound fs
  | .region front content back :: fs =>
    d.Free front ∧ d.Free back ∧ reading d d.regionOpening front = some () ∧
      reading d d.regionClosing back = some () ∧ d.Unclosed content ∧ Sound fs

/-- What the regions of a source protect. -/
def contents : List Fragment → List Text
  | [] => []
  | .piece _ :: fs => contents fs
  | .region _ content _ :: fs => content :: contents fs

/-- The outline of a source whose regions have been put aside, given how plain text and placeholders
are stored, and how many regions there were before. -/
def shelve (plain : Text → P) (shelved : Nat → P) : (count : Nat) → List Fragment → List (Piece P)
  | _, [] => []
  | count, .piece (.plain s) :: fs => .plain (plain s) :: shelve plain shelved count fs
  | count, .piece (.tag body) :: fs => .tag body :: shelve plain shelved count fs
  | count, .region _ _ _ :: fs => .plain (shelved count) :: shelve plain shelved (count + 1) fs

/-- The parts of a source, with the placeholders of its regions. -/
def patches : (count : Nat) → List Fragment → List (Text × Option Text)
  | _, [] => []
  | count, .piece q :: fs => (q.text d id, none) :: patches count fs
  | count, .region front content back :: fs =>
    (text d (.region front content back), some (ProtectedRegions.placeholder count)) ::
      patches (count + 1) fs

variable {d}

theorem flatMap_patches (count : Nat) (fs : List Fragment) :
    (patches d count fs).flatMap (·.1) = source d fs := by
  induction fs generalizing count with
  | nil => rfl
  | cons f fs ih =>
    cases f with
    | piece q => rw [patches, List.flatMap_cons, ih]; rfl
    | region front content back => rw [patches, List.flatMap_cons, ih]; rfl

theorem patched_patches {w : P → Text} {plain : Text → P} {shelved : Nat → P}
    (hplain : ∀ s, w (plain s) = s)
    (hshelved : ∀ n, w (shelved n) = ProtectedRegions.placeholder n) (count : Nat)
    (fs : List Fragment) :
    (patches d count fs).flatMap Text.patched =
      Outline.write d w (shelve plain shelved count fs) := by
  induction fs generalizing count with
  | nil => rfl
  | cons f fs ih =>
    cases f with
    | piece q =>
      cases q with
      | plain s =>
        rw [patches, List.flatMap_cons, ih, shelve, Outline.write_cons, Piece.text, Piece.text,
          hplain]
        rfl
      | tag body => rw [patches, List.flatMap_cons, ih, shelve, Outline.write_cons]; rfl
    | region front content back =>
      rw [patches, List.flatMap_cons, ih, shelve, Outline.write_cons, Piece.text, hshelved]
      rfl

theorem left_of_protectedRegion {s : Text} {x : Text × Text} (h : d.protectedRegion s = some x) :
    d.left <+: s := by
  by_cases hp : d.left <+: s
  · exact hp
  · rw [protectedRegion_eq, Recognizer.map, Delimiters.opened, literal_eq_none hp] at h
    exact absurd h (by simp)

/-- The tags that a scan for regions finds in a sound source, numbered, make its patches. -/
theorem scanFrom_source (hd : d.Apart) {fs : List Fragment} (hfs : Sound d fs) (pos count : Nat) :
    ((Tag.scanFrom d.protectedRegion pos 0 (source d fs)).zipIdx count).map (fun x =>
        (⟨x.1.start, x.1.stop, ProtectedRegions.placeholder x.2⟩ : Edit)) =
      Text.patches pos (patches d count fs) ∧
    (Tag.scanFrom d.protectedRegion pos 0 (source d fs)).map (·.content) = contents fs := by
  induction fs generalizing pos count with
  | nil => exact ⟨rfl, rfl⟩
  | cons f fs ih =>
    have hsource : source d (f :: fs) = text d f ++ source d fs := by simp [source]
    cases f with
    | piece q =>
      cases q with
      | plain s =>
        obtain ⟨hs, hfs⟩ := hfs
        have hpass := Outline.scanFrom_plain (r := d.protectedRegion) left_of_protectedRegion hs
          (source d fs) pos
        rw [hsource, text, Piece.text, id, hpass]
        exact ih hfs _ _
      | tag body =>
        obtain ⟨hb, hopen, hfs⟩ := hfs
        have hnone : d.protectedRegion (d.enclose body ++ source d fs) = none := by
          rw [protectedRegion_enclose hd hb]
          rcases hopen with hn | hu
          · rw [hn]; rfl
          · rw [fewest_none hu]
            cases reading d d.regionOpening body <;> rfl
        have hpass : Tag.scanFrom d.protectedRegion pos 0 (d.enclose body ++ source d fs) =
            Tag.scanFrom d.protectedRegion (pos + (d.enclose body).length) 0 (source d fs) := by
          refine Outline.scanFrom_pass fun i hi => ?_
          cases i with
          | zero => exact hnone
          | succ i =>
            cases hr : d.protectedRegion ((d.enclose body).drop (i + 1) ++ source d fs) with
            | none => rfl
            | some x =>
              exact absurd (left_of_protectedRegion hr)
                (hd.not_prefix_inside hb _ (Nat.succ_pos i) hi)
        rw [hsource, text, Piece.text, hpass]
        exact ih hfs _ _
    | region front content back =>
      obtain ⟨hf, hb, hfront, hback, hc, hfs⟩ := hfs
      have hclose : d.regionClosing (d.enclose back ++ source d fs) =
          some (d.enclose back, ()) := by
        rw [(delimited_regionClosing hd).eq_reading hb, hback]
        rfl
      have hfew := fewest_some (p := fun _ => true) (s := content) (t :=
        d.enclose back ++ source d fs)
        (fun _ _ => rfl)
        (fun i hi => by rw [enclose, List.append_assoc]; exact hc.append hd _ hi) hclose
      have hregion : d.protectedRegion (d.enclose front ++ (content ++ (d.enclose back ++
          source d fs))) = some (text d (.region front content back), content) := by
        rw [protectedRegion_enclose hd hf, hfront, hfew]
        rfl
      obtain ⟨c, lexeme, hlex⟩ := List.exists_cons_of_ne_nil
        (show text d (.region front content back) ≠ [] by simp [text, enclose_ne_nil])
      have hscan : Tag.scanFrom d.protectedRegion pos 0
          (source d (.region front content back :: fs)) =
          ⟨pos, text d (.region front content back), content, by simp [hlex]⟩ ::
            Tag.scanFrom d.protectedRegion (pos + (text d (.region front content back)).length) 0
              (source d fs) := by
        have hstart : d.enclose front ++ (content ++ (d.enclose back ++ source d fs)) =
            c :: (lexeme ++ source d fs) := by
          rw [← List.cons_append, ← hlex, text]
          simp
        rw [hstart, hlex] at hregion
        rw [hsource]
        simp only [hlex, List.cons_append]
        rw [Tag.scanFrom, hregion]
        dsimp only
        rw [Outline.scanFrom_skip, List.length_cons, Nat.add_assoc, Nat.add_comm 1]
      obtain ⟨hedits, hcontents⟩ := ih hfs
        (pos + (text d (.region front content back)).length) (count + 1)
      rw [hscan]
      refine ⟨?_, ?_⟩
      · rw [List.zipIdx_cons, List.map_cons, hedits]
        rfl
      · rw [List.map_cons, hcontents]
        rfl

/-- Putting the regions of a sound source aside leaves its outline, and keeps what they protect. -/
theorem extract_source (hd : d.Apart) {w : P → Text} (plain : Text → P) (shelved : Nat → P)
    (hplain : ∀ s, w (plain s) = s)
    (hshelved : ∀ n, w (shelved n) = ProtectedRegions.placeholder n)
    (regions : ProtectedRegions) {fs : List Fragment} (hfs : Sound d fs) :
    ProtectedRegions.extract d regions (source d fs) =
      (Outline.write d w (shelve plain shelved regions.length fs), regions ++ contents fs) := by
  obtain ⟨hedits, hcontents⟩ := scanFrom_source hd hfs 0 regions.length
  have hsplice := Text.spliceFrom_patches 0 (patches d regions.length fs)
  rw [flatMap_patches, patched_patches hplain hshelved, ← hedits] at hsplice
  exact Prod.ext hsplice (by rw [← hcontents]; rfl)

end Fragment

end Stencil
