import Stencil.Proofs.Outline.Loops
import Stencil.Proofs.Tag.Extent

/-!
# Tags of loops in any text

The tags of loops are written without delimiters between their delimiters. So wherever such tags
stand in a text, two of them are apart or the same stretch, and a scan that starts behind one finds
what a scan of the whole text finds there.
-/

namespace Stencil

namespace Recognizer

open Delimiters

variable {α β : Type} {d : Delimiters} {next r : Recognizer α}

/-- What is taken stands at the front of the text: something without delimiters, and the right
one. -/
def Seals (d : Delimiters) (r : Recognizer α) : Prop :=
  ∀ s lexeme a, r s = some (lexeme, a) →
    ∃ front rest, d.Free front ∧ lexeme = front ++ d.right ∧ s = lexeme ++ rest

/-- Something without delimiters may stand in front. -/
theorem Seals.behind (h : Seals d next) {v t l : Text} {a : α} (hv : d.Free v)
    (hn : next t = some (l, a)) :
    ∃ front rest, d.Free front ∧ v ++ l = front ++ d.right ∧ v ++ t = v ++ l ++ rest := by
  obtain ⟨front, rest, hfront, rfl, rfl⟩ := h _ _ _ hn
  exact ⟨v ++ front, rest, free_append.mpr ⟨hv, hfront⟩, by simp, by simp⟩

theorem Seals.literal (hd : d.Apart) {v : Text} (hv : v.all isTagChar = true) (h : Seals d next) :
    Seals d (literal v next) := by
  intro s lexeme a hs
  obtain ⟨t, l, rfl, rfl, hn⟩ := literal_eq_some.mp hs
  exact h.behind (hd.free_of_tagChar (List.all_eq_true.mp hv)) hn

theorem Seals.blanks (hd : d.Apart) (h : Seals d next) : Seals d (blanks next) := by
  intro s lexeme a hs
  obtain ⟨g, t, l, hg, rfl, rfl, hn, -⟩ := blanks_eq_some hs
  exact h.behind (hd.free_of_blank hg) hn

theorem Seals.someBlanks (hd : d.Apart) (h : Seals d next) : Seals d (someBlanks next) := by
  intro s lexeme a hs
  obtain ⟨g, t, l, hg, -, rfl, rfl, hn⟩ := someBlanks_eq_some hs
  exact h.behind (hd.free_of_blank hg) hn

theorem Seals.path (hd : d.Apart) (h : Seals d next) : Seals d (path next) := by
  intro s lexeme x hs
  obtain ⟨t, l, rfl, rfl, hp, hn⟩ := path_eq_some hs
  exact h.behind (free_of_isPath hd hp) hn

/-- A name, which starts with a letter and goes on with characters of words. -/
theorem Seals.name (hd : d.Apart) (h : Seals d next) :
    Seals d (leading isNameStart isWordChar next) := by
  intro s lexeme x hs
  obtain ⟨c, w, t, l, hc, rfl, rfl, hstart, hword, hn⟩ := leading_eq_some hs
  refine h.behind (hd.free_of_tagChar fun y hy => ?_) hn
  rw [hc] at hy
  rcases List.mem_cons.mp hy with rfl | hy
  · simp [isTagChar, isWordChar_of_isNameChar (isNameChar_of_isNameStart hstart)]
  · simp [isTagChar, hword y hy]

/-- What is taken stands at the front of the text, and is a tag without delimiters between its
own. -/
def Sealed (d : Delimiters) (r : Recognizer α) : Prop :=
  ∀ s lexeme a, r s = some (lexeme, a) →
    ∃ body rest, d.Free body ∧ lexeme = d.enclose body ∧ s = lexeme ++ rest

theorem Sealed.map {f : α → β} (h : Sealed d r) : Sealed d (r.map f) := by
  intro s lexeme b hs
  obtain ⟨a, ha, -⟩ := map_eq_some.mp hs
  exact h _ _ _ ha

theorem Sealed.opened (hd : d.Apart) (h : Seals d next) : Sealed d (d.opened next) := by
  intro s lexeme a hs
  obtain ⟨t, l, rfl, rfl, hb⟩ := literal_eq_some.mp hs
  obtain ⟨front, rest, hfront, rfl, rfl⟩ := h.blanks hd _ _ _ hb
  exact ⟨front, rest, hfront, rfl, by simp⟩

end Recognizer

namespace Delimiters

open Recognizer

variable {d : Delimiters}

theorem seals_closed (hd : d.Apart) : Seals d d.closed := by
  intro s lexeme a h
  obtain ⟨g, rest, hg, rfl, rfl⟩ := closed_eq_some h
  exact ⟨g, rest, hd.free_of_blank hg, rfl, rfl⟩

theorem sealed_loopOpening (hd : d.Apart) : Sealed d d.loopOpening :=
  .map (.opened hd (.name hd (.someBlanks hd
    (.literal hd (by decide) (.someBlanks hd (.path hd (seals_closed hd)))))))

theorem sealed_loopClosing (hd : d.Apart) : Sealed d d.loopClosing :=
  .map (.opened hd (.literal hd (by decide) (.someBlanks hd (.path hd (seals_closed hd)))))

theorem sealed_legacyOpening (hd : d.Apart) : Sealed d d.legacyOpening :=
  .map (.opened hd (.path hd (seals_closed hd)))

theorem sealed_legacyClosing (hd : d.Apart) : Sealed d d.legacyClosing :=
  .map (.opened hd (.literal hd (by decide) (.blanks hd (.path hd (seals_closed hd)))))

end Delimiters

namespace Tag

open Recognizer

variable {α β : Type} {d : Delimiters} {r : Recognizer α} {q : Recognizer β} {s : Text} {t : Tag α}
  {u : Tag β}

/-- A tag that stands in a text is a stretch of it. -/
theorem Stands.drop_eq (hr : Sealed d r) (h : Stands r s t) :
    ∃ body rest, d.Free body ∧ t.lexeme = d.enclose body ∧ s.drop t.start =
      d.enclose body ++ rest := by
  obtain ⟨body, rest, hbody, hlexeme, hdrop⟩ := hr _ _ _ h
  exact ⟨body, rest, hbody, hlexeme, by rw [hdrop, hlexeme]⟩

/-- Of two tags, one ends in front of the other. -/
theorem Stands.stop_le (hd : d.Apart) (hr : Sealed d r) (hq : Sealed d q) (ht : Stands r s t)
    (hu : Stands q s u) (h : t.start < u.start) : t.stop ≤ u.start := by
  obtain ⟨body, rest, hbody, hlexeme, hdrop⟩ := ht.drop_eq hr
  obtain ⟨body', rest', -, -, hdrop'⟩ := hu.drop_eq hq
  refine Nat.le_of_not_lt fun hlt => ?_
  rw [stop, hlexeme] at hlt
  obtain ⟨i, hi⟩ := Nat.exists_eq_add_of_lt h
  have hlt' : i + 1 < (d.enclose body).length := by omega
  have hinside : s.drop u.start = (d.enclose body).drop (i + 1) ++ rest := by
    rw [show u.start = t.start + (i + 1) by omega, ← List.drop_drop, hdrop,
      List.drop_append_of_le_length (Nat.le_of_lt hlt')]
  refine hd.not_prefix_inside hbody rest (Nat.succ_pos i) hlt' ?_
  rw [← hinside, hdrop', Delimiters.enclose, List.append_assoc]
  exact List.prefix_append _ _

/-- Two tags that start at one position are the same stretch. -/
theorem Stands.lexeme_eq (hr : Sealed d r) (hq : Sealed d q) (ht : Stands r s t) (hu : Stands q s u)
    (h : t.start = u.start) : t.lexeme = u.lexeme := by
  obtain ⟨body, rest, hbody, hlexeme, hdrop⟩ := ht.drop_eq hr
  obtain ⟨body', rest', hbody', hlexeme', hdrop'⟩ := hu.drop_eq hq
  rw [h, hdrop'] at hdrop
  rw [hlexeme, hlexeme', Delimiters.eq_of_enclose_append hbody hbody' hdrop]

/-- Where a tag ends, no tag goes on that started before. -/
theorem Stands.stop_le_stop (hd : d.Apart) (hr : Sealed d r) (hq : Sealed d q) (ht : Stands r s t)
    (hu : Stands q s u) (h : u.start < t.stop) : u.stop ≤ t.stop := by
  rcases Nat.lt_trichotomy u.start t.start with hlt | heq | hlt
  · exact Nat.le_trans (hu.stop_le hd hq hr ht hlt) (Nat.le_of_lt t.start_lt_stop)
  · exact Nat.le_of_eq (by rw [stop, stop, heq, hu.lexeme_eq hq hr ht heq])
  · exact absurd (ht.stop_le hd hr hq hu hlt) (Nat.not_le_of_lt h)

/-- What tags at one position say are two readings of one body. -/
theorem Stands.reading_eq (hr : Sealed d r) (hq : Sealed d q) (hr' : Delimited d r)
    (hq' : Delimited d q) (ht : Stands r s t) (hu : Stands q s u) (h : t.start = u.start) :
    ∃ body, d.Free body ∧ reading d r body = some t.content ∧ reading d q body =
      some u.content := by
  obtain ⟨body, rest, hbody, hlexeme, hdrop⟩ := ht.drop_eq hr
  have hsame := ht.lexeme_eq hr hq hu h
  rw [Stands, hdrop, hr'.eq_reading hbody] at ht
  rw [Stands, ← h, hdrop, hq'.eq_reading hbody] at hu
  obtain ⟨a, ha, hta⟩ := Option.map_eq_some_iff.mp ht
  obtain ⟨b, hb, hub⟩ := Option.map_eq_some_iff.mp hu
  exact ⟨body, hbody, (Prod.mk.inj hta).2 ▸ ha, (Prod.mk.inj hub).2 ▸ hb⟩

/-- A scan splits where no tag goes on. -/
theorem exists_scanFrom_append {pos skip n : Nat} (hpos : pos + skip ≤ n)
    (h : ∀ t ∈ scanFrom r pos skip s, t.start < n → t.stop ≤ n) :
    ∃ front, scanFrom r pos skip s = front ++ scanFrom r n 0 (s.drop (n - pos)) ∧
      ∀ t ∈ front, t.start < n := by
  induction s generalizing pos skip with
  | nil => exact ⟨[], by simp [scanFrom], by simp⟩
  | cons c s ih =>
    rcases Nat.eq_or_lt_of_le (Nat.le_of_add_right_le hpos) with rfl | hlt
    · obtain rfl : skip = 0 := by omega
      exact ⟨[], by simp, by simp⟩
    · rw [show n - pos = n - (pos + 1) + 1 by omega, List.drop_succ_cons]
      cases skip with
      | succ skip =>
        rw [scanFrom] at h ⊢
        exact ih (by omega) h
      | zero =>
        cases hr : r (c :: s) with
        | none =>
          simp only [scanFrom, hr] at h ⊢
          exact ih (by omega) h
        | some y =>
          obtain ⟨lexeme, a⟩ := y
          cases lexeme with
          | nil =>
            simp only [scanFrom, hr] at h ⊢
            exact ih (by omega) h
          | cons x lexeme =>
            simp only [scanFrom, hr] at h ⊢
            have hstop : pos + (x :: lexeme).length ≤ n := h _ List.mem_cons_self hlt
            rw [List.length_cons] at hstop
            have hlength : pos + 1 + lexeme.length ≤ n := by omega
            obtain ⟨front, heq, hfront⟩ := ih hlength fun t ht => h t (List.mem_cons_of_mem _ ht)
            exact ⟨_ :: front, by rw [heq, List.cons_append],
              List.forall_mem_cons.mpr ⟨hlt, hfront⟩⟩

/-- A scan behind a position where no tag goes on finds what the whole scan finds there. -/
theorem scanFrom_drop {n : Nat} (h : ∀ t ∈ scan r s, t.start < n → t.stop ≤ n) :
    scanFrom r n 0 (s.drop n) = (scan r s).filter (fun t => n ≤ t.start) := by
  obtain ⟨front, heq, hfront⟩ := exists_scanFrom_append (Nat.zero_le n) h
  have hnone : front.filter (fun t => n ≤ t.start) = [] :=
    List.filter_eq_nil_iff.mpr fun t ht => by simpa using hfront t ht
  have hall : (scanFrom r n 0 (s.drop n)).filter (fun t => n ≤ t.start) =
      scanFrom r n 0 (s.drop n) :=
    List.filter_eq_self.mpr fun t ht => by simpa using le_start_of_mem_scanFrom ht
  rw [scan, heq, List.filter_append, hnone, List.nil_append, Nat.sub_zero, hall]

end Tag

end Stencil
