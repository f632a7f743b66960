import Stencil.Proofs.Tag.Delimited
import Stencil.Template.Variables

/-!
# Outlines of texts

An outline gives a text as a list of pieces: plain stretches, in which no tag can start, and tags,
with bodies that have no delimiter in them. On such a text a scan can only find the tags of the
outline, each where the outline has it, so every pass over the text becomes a recursion over the
list.

What a plain piece stands for is left open: `w` writes it down. The same outline written in two
ways gives two texts with the same tags.
-/

namespace Stencil

namespace Delimiters

variable {d : Delimiters}

/-- The character that every tag starts with. -/
def mark (d : Delimiters) : Char := d.left.head d.left_ne_nil

theorem left_eq (d : Delimiters) : d.left = d.mark :: d.left.tail :=
  (List.cons_head_tail d.left_ne_nil).symm

theorem mark_mem (d : Delimiters) : d.mark ∈ d.left := List.head_mem d.left_ne_nil

/-- A text in which no tag starts. -/
def Plain (d : Delimiters) (s : Text) : Prop := d.mark ∉ s

instance (s : Text) : Decidable (d.Plain s) := inferInstanceAs (Decidable (d.mark ∉ s))

theorem plain_nil : d.Plain [] := by simp [Plain]

theorem plain_append {s t : Text} : d.Plain (s ++ t) ↔ d.Plain s ∧ d.Plain t := by
  simp [Plain]

theorem enclose_ne_nil (d : Delimiters) (body : Text) : d.enclose body ≠ [] := by
  simp [enclose, d.left_ne_nil]

theorem length_enclose (d : Delimiters) (body : Text) :
    (d.enclose body).length = d.left.length + body.length + d.right.length := by
  simp [enclose]
  omega

/-- A text cannot go on with the left delimiter if a foreign character stands where the delimiter
would be. -/
theorem not_left_prefix {u v : Text} {c : Char} (hc : c ∉ d.left) (hu : u.length < d.left.length) :
    ¬ d.left <+: u ++ c :: v := by
  intro h
  have hp : u ++ [c] <+: u ++ c :: v := ⟨v, by simp⟩
  have hl : u ++ [c] <+: d.left := List.prefix_of_prefix_length_le hp h (by simp; omega)
  exact hc (hl.subset (by simp))

/-- No tag starts inside another. -/
theorem Apart.not_prefix_inside (hd : d.Apart) {body : Text} (hb : d.Free body) (t : Text)
    {i : Nat} (hi : 0 < i) (hlt : i < (d.enclose body).length) :
    ¬ d.left <+: (d.enclose body).drop i ++ t := by
  have hforeign : ∀ c ∈ body ++ d.right, c ∉ d.left := by
    intro c hc
    rcases List.mem_append.mp hc with h | h
    · exact (hb c h).1
    · exact fun hl => hd.left_right c hl h
  rw [length_enclose] at hlt
  by_cases hin : i < d.left.length
  · obtain ⟨c, v, hcv⟩ := List.exists_cons_of_ne_nil
      (show body ++ d.right ≠ [] by simp [d.right_ne_nil])
    rw [enclose, List.drop_append_of_le_length (Nat.le_of_lt hin), hcv,
      List.append_assoc, List.cons_append]
    exact not_left_prefix (hforeign c (by simp [hcv])) (by simp; omega)
  · have hdrop : (d.enclose body).drop i = (body ++ d.right).drop (i - d.left.length) := by
      rw [enclose, List.drop_append, List.drop_eq_nil_of_le (by omega), List.nil_append]
    have hne : (body ++ d.right).drop (i - d.left.length) ≠ [] := by
      simp
      omega
    obtain ⟨c, v, hcv⟩ := List.exists_cons_of_ne_nil hne
    rw [hdrop, hcv, List.cons_append]
    have hmem : c ∈ (body ++ d.right).drop (i - d.left.length) := by simp [hcv]
    exact not_left_prefix (u := []) (hforeign c (List.mem_of_mem_drop hmem))
      (List.length_pos_iff.mpr d.left_ne_nil)

/-- What stands between delimiters ends at the first right one. -/
theorem eq_of_enclose_append {b body s t : Text} (hb : d.Free b) (hbody : d.Free body)
    (h : d.enclose body ++ s = d.enclose b ++ t) : body = b := by
  obtain ⟨r, rs, hr⟩ := List.exists_cons_of_ne_nil d.right_ne_nil
  have hforeign : ∀ {x : Text}, d.Free x → r ∉ x := fun hx hm => (hx r hm).2 (by simp [hr])
  have hrest : body ++ (r :: (rs ++ s)) = b ++ (r :: (rs ++ t)) := by
    simpa [enclose, hr] using h
  have hsplit := Text.splitOnce?_eq_some.mpr ⟨hrest, hforeign hb⟩
  rw [Text.splitOnce?_eq_some.mpr ⟨rfl, hforeign hbody⟩] at hsplit
  exact congrArg Prod.fst (Option.some.inj hsplit)

end Delimiters

/-! ## Edits laid end to end -/

namespace Text

/-- The edits of a text that is given as stretches, some of which have a replacement. -/
def patches : (pos : Nat) → List (Text × Option Text) → List Edit
  | _, [] => []
  | pos, (s, none) :: ps => patches (pos + s.length) ps
  | pos, (s, some t) :: ps => ⟨pos, pos + s.length, t⟩ :: patches (pos + s.length) ps

/-- A stretch after its edit. -/
def patched (p : Text × Option Text) : Text := p.2.getD p.1

theorem le_start_of_mem_patches {pos : Nat} {ps : List (Text × Option Text)} :
    ∀ e ∈ patches pos ps, pos ≤ e.start ∧ e.start ≤ e.stop := by
  induction ps generalizing pos with
  | nil => intro e he; exact absurd he (by simp [patches])
  | cons p ps ih =>
    obtain ⟨s, t?⟩ := p
    intro e he
    cases t? with
    | none =>
      have := ih e he
      omega
    | some t =>
      rcases List.mem_cons.mp he with rfl | he
      · exact ⟨Nat.le_refl _, Nat.le_add_right _ _⟩
      · have := ih e he
        omega

/-- What stands in front of all edits is kept. -/
theorem spliceFrom_append {pos : Nat} {s t : Text} {es : List Edit}
    (h : ∀ e ∈ es, pos + s.length ≤ e.start ∧ e.start ≤ e.stop) :
    spliceFrom pos (s ++ t) es = s ++ spliceFrom (pos + s.length) t es := by
  cases es with
  | nil => rfl
  | cons e es =>
    obtain ⟨hs, hse⟩ := h e (by simp)
    have htake : (s ++ t).take (e.start - pos) = s ++ t.take (e.start - (pos + s.length)) := by
      rw [List.take_append, List.take_of_length_le (by omega), Nat.sub_sub]
    have hdrop : (s ++ t).drop (e.stop - pos) = t.drop (e.stop - (pos + s.length)) := by
      rw [List.drop_append, List.drop_eq_nil_of_le (by omega), List.nil_append, Nat.sub_sub]
    rw [spliceFrom, spliceFrom, htake, hdrop, List.append_assoc]

theorem spliceFrom_patches (pos : Nat) (ps : List (Text × Option Text)) :
    spliceFrom pos (ps.flatMap (·.1)) (patches pos ps) = ps.flatMap patched := by
  induction ps generalizing pos with
  | nil => rfl
  | cons p ps ih =>
    obtain ⟨s, t?⟩ := p
    rw [List.flatMap_cons, List.flatMap_cons]
    cases t? with
    | none =>
      rw [patches, spliceFrom_append le_start_of_mem_patches, ih]
      rfl
    | some t =>
      have hdrop : (s ++ ps.flatMap (·.1)).drop (pos + s.length - pos) = ps.flatMap (·.1) := by
        simp
      rw [patches, spliceFrom]
      dsimp only
      rw [hdrop, ih, Nat.sub_self, List.take_zero, List.nil_append]
      rfl

end Text

/-! ## Pieces -/

/-- A piece of a text. -/
inductive Piece (P : Type) where
  /-- A stretch without tags. -/
  | plain (content : P)
  /-- A tag, by what stands between its delimiters. -/
  | tag (body : Text)

namespace Piece

variable {P : Type} (d : Delimiters) (w : P → Text)

/-- A piece as it is written. -/
def text : Piece P → Text
  | .plain p => w p
  | .tag body => d.enclose body

/-- No tag starts in a plain stretch, and no delimiter in a tag. -/
def Tidy : Piece P → Prop
  | .plain p => d.Plain (w p)
  | .tag body => d.Free body

instance (q : Piece P) : Decidable (q.Tidy d w) :=
  match q with
  | .plain p => inferInstanceAs (Decidable (d.Plain (w p)))
  | .tag body => inferInstanceAs (Decidable (d.Free body))

end Piece

namespace Outline

open Recognizer

variable {P α γ δ : Type} (d : Delimiters) (w : P → Text)

/-- The text of an outline. -/
def write (ps : List (Piece P)) : Text := ps.flatMap (Piece.text d w)

@[simp]
theorem write_nil : write d w [] = [] := rfl

@[simp]
theorem write_cons (q : Piece P) (ps : List (Piece P)) :
    write d w (q :: ps) = q.text d w ++ write d w ps := by
  simp [write]

@[simp]
theorem write_append (ps qs : List (Piece P)) :
    write d w (ps ++ qs) = write d w ps ++ write d w qs := by
  simp [write]

theorem write_flatMap {β : Type} (xs : List β) (f : β → List (Piece P)) :
    write d w (xs.flatMap f) = xs.flatMap fun x => write d w (f x) := by
  simp [write, List.flatMap_assoc]

/-- No tag starts outside the tags of an outline. -/
def Tidy (ps : List (Piece P)) : Prop := ∀ q ∈ ps, q.Tidy d w

instance (ps : List (Piece P)) : Decidable (Tidy d w ps) :=
  inferInstanceAs (Decidable (∀ q ∈ ps, q.Tidy d w))

/-- What the tags of an outline are good for, each at its position. -/
def locate (f : Nat → Text → List γ) : (pos : Nat) → List (Piece P) → List γ
  | _, [] => []
  | pos, .plain p :: ps => locate f (pos + (w p).length) ps
  | pos, .tag body :: ps => f pos body ++ locate f (pos + (d.enclose body).length) ps

/-- The tag that a grammar sees at a position, if it knows the body. -/
def tagAt (r : Recognizer α) (pos : Nat) (body : Text) : List (Tag α) :=
  (reading d r body).toList.map fun a => ⟨pos, d.enclose body, a, d.enclose_ne_nil body⟩

variable {d w}

theorem Tidy.head {q : Piece P} {ps : List (Piece P)} (h : Tidy d w (q :: ps)) : q.Tidy d w :=
  h q (by simp)

theorem Tidy.tail {q : Piece P} {ps : List (Piece P)} (h : Tidy d w (q :: ps)) : Tidy d w ps :=
  fun x hx => h x (by simp [hx])

theorem tidy_append {ps qs : List (Piece P)} :
    Tidy d w (ps ++ qs) ↔ Tidy d w ps ∧ Tidy d w qs := by
  simp only [Tidy, List.mem_append]
  constructor
  · intro h
    exact ⟨fun q hq => h q (.inl hq), fun q hq => h q (.inr hq)⟩
  · rintro ⟨hp, hq⟩ q (h | h)
    · exact hp q h
    · exact hq q h

/-- A tag that stands in the text of an outline is one of its tags. -/
theorem mem_of_isInfix (hd : d.Apart) {ps : List (Piece P)} (hps : Tidy d w ps) {body : Text}
    (hbody : d.Free body) (h : d.enclose body <:+: write d w ps) : .tag body ∈ ps := by
  obtain ⟨pre, post, heq⟩ := h
  rw [List.append_assoc] at heq
  have hmark : ∀ {s t : Text}, d.enclose body ++ post = s ++ t → d.Plain s → s = [] := by
    intro s t h hs
    cases s with
    | nil => rfl
    | cons c s =>
      rw [Delimiters.enclose, d.left_eq, List.cons_append, List.cons_append] at h
      exact absurd (by simp [(List.cons.inj h).1]) hs
  induction ps generalizing pre with
  | nil =>
    have := d.enclose_ne_nil body
    simp_all
  | cons q ps ih =>
    have ih := fun pre => ih hps.tail pre
    rw [write_cons, List.append_eq_append_iff] at heq
    cases q with
    | plain p =>
      have hp : d.Plain (w p) := hps.head
      rcases heq with ⟨s, hs, htail⟩ | ⟨pre', -, htail⟩
      · have hplain : d.Plain s :=
          (Delimiters.plain_append.mp (show d.Plain (pre ++ s) from hs ▸ hp)).2
        obtain rfl := hmark htail hplain
        exact List.mem_cons_of_mem _ (ih [] htail)
      · exact List.mem_cons_of_mem _ (ih pre' htail.symm)
    | tag b =>
      have hb : d.Free b := hps.head
      rcases heq with ⟨s, hs, htail⟩ | ⟨pre', -, htail⟩
      · cases pre with
        | nil =>
          obtain rfl : d.enclose b = s := hs
          rw [Delimiters.eq_of_enclose_append hb hbody htail]
          exact List.mem_cons_self
        | cons c pre =>
          cases s with
          | nil => exact List.mem_cons_of_mem _ (ih [] htail)
          | cons x s =>
            -- the tag would start inside another
            have hdrop : (d.enclose b).drop (c :: pre).length = x :: s := by
              rw [show d.enclose b = (c :: pre) ++ (x :: s) from hs, List.drop_left]
            have hlt : (c :: pre).length < (d.enclose b).length := by
              rw [show d.enclose b = (c :: pre) ++ (x :: s) from hs]
              simp
            refine absurd ?_ (hd.not_prefix_inside hb (write d w ps) (by simp) hlt)
            rw [hdrop, ← htail, Delimiters.enclose, List.append_assoc]
            exact List.prefix_append _ _
      · exact List.mem_cons_of_mem _ (ih pre' htail.symm)

/-! ## Scanning -/

/-- A scan passes over characters on which no tag starts. -/
theorem scanFrom_pass {r : Recognizer α} {s t : Text} {pos : Nat}
    (h : ∀ i < s.length, r (s.drop i ++ t) = none) :
    Tag.scanFrom r pos 0 (s ++ t) = Tag.scanFrom r (pos + s.length) 0 t := by
  induction s generalizing pos with
  | nil => rfl
  | cons c s ih =>
    have h0 : r (c :: (s ++ t)) = none := h 0 (by simp)
    rw [List.cons_append, Tag.scanFrom, h0]
    dsimp only
    rw [ih fun i hi => h (i + 1) (by simpa using hi), List.length_cons, Nat.add_assoc,
      Nat.add_comm 1]

theorem scanFrom_skip (r : Recognizer α) (s t : Text) (pos : Nat) :
    Tag.scanFrom r pos s.length (s ++ t) = Tag.scanFrom r (pos + s.length) 0 t := by
  induction s generalizing pos with
  | nil => rfl
  | cons c s ih =>
    rw [List.length_cons, List.cons_append, Tag.scanFrom, ih, Nat.add_assoc, Nat.add_comm 1]

/-- A scan takes a tag and goes on behind it. -/
theorem scanFrom_tag {r : Recognizer α} {lexeme t : Text} {a : α} (hne : lexeme ≠ [])
    (h : r (lexeme ++ t) = some (lexeme, a)) (pos : Nat) :
    Tag.scanFrom r pos 0 (lexeme ++ t) =
      ⟨pos, lexeme, a, hne⟩ :: Tag.scanFrom r (pos + lexeme.length) 0 t := by
  cases lexeme with
  | nil => exact absurd rfl hne
  | cons c v =>
    rw [List.cons_append] at h ⊢
    rw [Tag.scanFrom, h]
    dsimp only
    rw [scanFrom_skip, List.length_cons, Nat.add_assoc, Nat.add_comm 1]

theorem scanFrom_plain {r : Recognizer α} (h : ∀ {s x}, r s = some x → d.left <+: s) {s : Text}
    (hs : d.Plain s) (t : Text) (pos : Nat) :
    Tag.scanFrom r pos 0 (s ++ t) = Tag.scanFrom r (pos + s.length) 0 t := by
  refine scanFrom_pass fun i hi => ?_
  cases hr : r (s.drop i ++ t) with
  | none => rfl
  | some x =>
    have hp := h hr
    obtain ⟨c, v, hcv⟩ := List.exists_cons_of_ne_nil (show s.drop i ≠ [] by simpa using hi)
    have hmem : c ∈ s := List.mem_of_mem_drop (show c ∈ s.drop i by simp [hcv])
    rw [hcv, List.cons_append, d.left_eq, List.cons_prefix_cons] at hp
    exact absurd (hp.1 ▸ hmem) hs

theorem scanFrom_enclose (hd : d.Apart) {r : Recognizer α} (h : Delimited d r) {body : Text}
    (hb : d.Free body) (t : Text) (pos : Nat) :
    Tag.scanFrom r pos 0 (d.enclose body ++ t) =
      tagAt d r pos body ++ Tag.scanFrom r (pos + (d.enclose body).length) 0 t := by
  have hread := h.eq_reading hb t
  unfold tagAt
  cases hr : reading d r body with
  | none =>
    rw [hr] at hread
    simp only [Option.map_none, Option.toList_none, List.map_nil, List.nil_append] at hread ⊢
    refine scanFrom_pass fun i hi => ?_
    cases i with
    | zero => simpa using hread
    | succ i =>
      cases hs : r ((d.enclose body).drop (i + 1) ++ t) with
      | none => rfl
      | some x => exact absurd (h.left hs) (hd.not_prefix_inside hb t (Nat.succ_pos i) hi)
  | some a =>
    rw [hr, Option.map_some] at hread
    rw [scanFrom_tag (d.enclose_ne_nil body) hread]
    rfl

/-- A scan finds the tags of the outline, and nothing else. -/
theorem scanFrom_write (hd : d.Apart) {r : Recognizer α} (h : Delimited d r) {ps : List (Piece P)}
    (hps : Tidy d w ps) (pos : Nat) :
    Tag.scanFrom r pos 0 (write d w ps) = locate d w (tagAt d r) pos ps := by
  induction ps generalizing pos with
  | nil => rfl
  | cons q ps ih =>
    rw [write_cons]
    cases q with
    | plain p => rw [Piece.text, scanFrom_plain h.left hps.head, ih hps.tail, locate]
    | tag body => rw [Piece.text, scanFrom_enclose hd h hps.head, ih hps.tail, locate]

/-! ## Lists of located things -/

theorem map_locate (g : γ → δ) (f : Nat → Text → List γ) (pos : Nat) (ps : List (Piece P)) :
    (locate d w f pos ps).map g = locate d w (fun n b => (f n b).map g) pos ps := by
  induction ps generalizing pos with
  | nil => rfl
  | cons q ps ih =>
    cases q with
    | plain p => exact ih _
    | tag body => rw [locate, locate, List.map_append, ih]

theorem filter_locate (g : γ → Bool) (f : Nat → Text → List γ) (pos : Nat) (ps : List (Piece P)) :
    (locate d w f pos ps).filter g = locate d w (fun n b => (f n b).filter g) pos ps := by
  induction ps generalizing pos with
  | nil => rfl
  | cons q ps ih =>
    cases q with
    | plain p => exact ih _
    | tag body => rw [locate, locate, List.filter_append, ih]

theorem locate_append (f : Nat → Text → List γ) (pos : Nat) (ps qs : List (Piece P)) :
    locate d w f pos (ps ++ qs) =
      locate d w f pos ps ++ locate d w f (pos + (write d w ps).length) qs := by
  induction ps generalizing pos with
  | nil => rfl
  | cons q ps ih =>
    cases q with
    | plain p =>
      rw [List.cons_append, locate, locate, ih, write_cons, List.length_append, Nat.add_assoc]
      rfl
    | tag body =>
      rw [List.cons_append, locate, locate, ih, write_cons, List.length_append, List.append_assoc,
        Nat.add_assoc]
      rfl

/-- Where a located thing lies, if `f` gives things that start where their tag does. -/
theorem start_of_mem_locate {f : Nat → Text → List γ} {start : γ → Nat}
    (hf : ∀ n b, ∀ x ∈ f n b, start x = n) {pos : Nat} {ps : List (Piece P)} :
    ∀ x ∈ locate d w f pos ps, pos ≤ start x ∧ start x < pos + (write d w ps).length := by
  induction ps generalizing pos with
  | nil => intro x hx; exact absurd hx (by simp [locate])
  | cons q ps ih =>
    intro x hx
    rw [write_cons, List.length_append]
    cases q with
    | plain p =>
      have := ih x hx
      simp only [Piece.text]
      omega
    | tag body =>
      have hpos := List.length_pos_iff.mpr (d.enclose_ne_nil body)
      simp only [Piece.text]
      rcases List.mem_append.mp hx with h | h
      · rw [hf _ _ x h]
        omega
      · have := ih x h
        omega

theorem merge_append_left {le : γ → γ → Bool} {xs ys : List γ} (zs : List γ)
    (h : ∀ x ∈ xs, ∀ y ∈ ys, le x y = true) : (xs ++ zs).merge ys le = xs ++ zs.merge ys le := by
  induction xs with
  | nil => rfl
  | cons x xs ih =>
    rw [List.cons_append, List.cons_append, ← ih fun z hz => h z (by simp [hz])]
    cases ys with
    | nil => simp
    | cons y ys => rw [List.cons_merge_cons_pos _ _ _ (h x (by simp) y (by simp))]

theorem merge_append_right {le : γ → γ → Bool} {xs ys : List γ} (zs : List γ)
    (h : ∀ x ∈ xs, ∀ y ∈ ys, ¬ le x y = true) : xs.merge (ys ++ zs) le = ys ++ xs.merge zs le := by
  induction ys with
  | nil => rfl
  | cons y ys ih =>
    rw [List.cons_append, List.cons_append, ← ih fun x hx z hz => h x hx z (by simp [hz])]
    cases xs with
    | nil => simp
    | cons x xs => rw [List.cons_merge_cons_neg _ _ _ (h x (by simp) y (by simp))]

/-- Two lists sorted by position are merged tag by tag. -/
theorem merge_locate {f g : Nat → Text → List γ} {start : γ → Nat}
    (hf : ∀ n b, ∀ x ∈ f n b, start x = n) (hg : ∀ n b, ∀ x ∈ g n b, start x = n) (pos : Nat)
    (ps : List (Piece P)) :
    (locate d w f pos ps).merge (locate d w g pos ps) (fun a b => start a ≤ start b) =
      locate d w (fun n b => f n b ++ g n b) pos ps := by
  induction ps generalizing pos with
  | nil => simp [locate]
  | cons q ps ih =>
    cases q with
    | plain p => exact ih _
    | tag body =>
      have hpos := List.length_pos_iff.mpr (d.enclose_ne_nil body)
      have hlow : ∀ y ∈ locate d w f (pos + (d.enclose body).length) ps, pos < start y := by
        intro y hy
        have := (start_of_mem_locate hf y hy).1
        omega
      have hlow' : ∀ y ∈ g pos body ++ locate d w g (pos + (d.enclose body).length) ps,
          pos ≤ start y := by
        intro y hy
        rcases List.mem_append.mp hy with h | h
        · exact Nat.le_of_eq (hg _ _ y h).symm
        · have := (start_of_mem_locate hg y h).1
          omega
      simp only [locate]
      rw [merge_append_left, merge_append_right, ih, List.append_assoc]
      · intro x hx y hy
        have hx := hlow x hx
        have hy := hg _ _ y hy
        simp
        omega
      · intro x hx y hy
        have hx := hf _ _ x hx
        have hy := hlow' y hy
        simp
        omega

/-! ## Replacing tags -/

/-- Replacing the tags of a grammar replaces pieces of the outline. -/
theorem replaceTags_write (hd : d.Apart) {r : Recognizer α} (h : Delimited d r)
    {ps : List (Piece P)} (hps : Tidy d w ps) (f : α → Text → Text) :
    (write d w ps).replaceTags r (fun t => f t.content t.lexeme) =
      ps.flatMap fun
        | .plain p => w p
        | .tag body =>
          ((reading d r body).map fun a => f a (d.enclose body)).getD (d.enclose body) := by
  let patch : Piece P → Text × Option Text := fun
    | .plain p => (w p, none)
    | .tag body => (d.enclose body, (reading d r body).map fun a => f a (d.enclose body))
  have hedits : ∀ pos, (Tag.scanFrom r pos 0 (write d w ps)).map
      (fun t => (⟨t.start, t.stop, f t.content t.lexeme⟩ : Edit)) =
        Text.patches pos (ps.map patch) := by
    intro pos
    rw [scanFrom_write hd h hps, map_locate]
    clear hps
    induction ps generalizing pos with
    | nil => rfl
    | cons q ps ih =>
      cases q with
      | plain p => exact ih _
      | tag body =>
        rw [locate, ih, List.map_cons]
        unfold tagAt
        cases hr : reading d r body with
        | none => simp [patch, hr, Text.patches]
        | some a => simp [patch, hr, Text.patches, Tag.stop]
  have hwrite : write d w ps = (ps.map patch).flatMap (·.1) := by
    rw [write, List.flatMap_map]
    congr 1
    funext q
    cases q <;> rfl
  rw [Text.replaceTags, Text.splice, Tag.scan, hedits 0, hwrite, Text.spliceFrom_patches,
    List.flatMap_map]
  congr 1
  funext q
  cases q <;> rfl

/-- A piece after its variable has been replaced. -/
def substituted (σ : Substitution) (w : P → Text) (ctx : Context) : Piece P → Text
  | .plain p => w p
  | .tag body =>
    ((reading σ.delimiters σ.delimiters.variableTag body).map fun v =>
      (σ.text? ctx v).getD (σ.delimiters.enclose body)).getD (σ.delimiters.enclose body)

/-- Replacing the variables of an outline. -/
theorem apply_write {σ : Substitution} (hd : σ.delimiters.Apart) {ps : List (Piece P)}
    (hps : Tidy σ.delimiters w ps) (ctx : Context) :
    σ.apply (write σ.delimiters w ps) ctx = ps.flatMap (substituted σ w ctx) := by
  rw [Substitution.apply, replaceTags_write hd (Delimiters.delimited_variableTag hd) hps
    fun v lexeme => (σ.text? ctx v).getD lexeme]
  rfl

end Outline

end Stencil
