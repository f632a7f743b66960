import Stencil.Proofs.Dict
import Stencil.Proofs.Document.Readings
import Stencil.Proofs.Protection.Regions
import Stencil.Proofs.Tag.Balance
import Stencil.Proofs.Tag.Sealed

/-!
# Which loops a text has

In any row of tags, well formed or not, an opening tag of a loop is closed by the first closing tag
of its form and path behind it that has as many opening as closing tags of them in between. From
left to right, an opening tag that is closed and does not start in the loop in front of it makes a
loop. Expanding the loops of a text puts their rendered rows in their place, and leaves the rest of
the text as it is. It changes nothing that legacy openings are left out if their path is closed
nowhere.
-/

namespace Stencil

open Recognizer Outline

/-! ## Rows in order -/

namespace Tag

section

variable {γ : Type} {start : γ → Nat} {xs ys : List γ}

/-- What stands in front of a member of a row in order is what starts before. -/
theorem countP_front {zs pre post : List γ} {z : γ} (h : zs.Pairwise fun x y => start x < start y)
    (heq : zs = pre ++ z :: post) (p : γ → Bool) :
    pre.countP p = zs.countP fun x => p x && decide (start x < start z) := by
  subst heq
  obtain ⟨-, hpost, hpre⟩ := List.pairwise_append.mp h
  have hfront : pre.countP (fun x => p x && decide (start x < start z)) = pre.countP p :=
    List.countP_congr fun x hx => by simp [hpre x hx z (by simp)]
  have hback : post.countP (fun x => p x && decide (start x < start z)) = 0 := by
    refine List.countP_eq_zero.mpr fun x hx => ?_
    have := (List.pairwise_cons.mp hpost).1 x hx
    simp
    omega
  rw [List.countP_append, List.countP_cons, hfront, hback]
  simp

/-- Members of a row in order that start at one position are the same. -/
theorem eq_of_start_eq {zs : List γ} (h : zs.Pairwise fun x y => start x < start y)
    {x y : γ} (hx : x ∈ zs) (hy : y ∈ zs) (heq : start x = start y) : x = y := by
  induction zs with
  | nil => exact absurd hx (by simp)
  | cons z zs ih =>
    obtain ⟨hz, hzs⟩ := List.pairwise_cons.mp h
    rcases List.mem_cons.mp hx with hxz | hx
    · rcases List.mem_cons.mp hy with hyz | hy
      · rw [hxz, hyz]
      · exact absurd (hxz ▸ heq) (Nat.ne_of_lt (hz y hy))
    · rcases List.mem_cons.mp hy with hyz | hy
      · exact absurd (hyz ▸ heq.symm) (Nat.ne_of_lt (hz x hx))
      · exact ih hzs hx hy

end

section

variable {α κ : Type} {close? : Tag α → Option (Tag κ)} {cursor : Nat} {ts : List (Tag α)}

theorem le_start_of_mem_outermost {e : Enclosure α κ} (h : e ∈ outermost close? cursor ts)
    (hclose : ∀ t c, close? t = some c → t.stop ≤ c.start) : cursor ≤ e.opening.start := by
  have hord : Edit.Ordered cursor ((outermost close? cursor ts).map fun e =>
      ⟨e.opening.start, e.closing.stop, []⟩) := ordered_outermost hclose fun _ => []
  exact hord.le_start _ (List.mem_map_of_mem h)

theorem pairwise_outermost (hclose : ∀ t c, close? t = some c → t.stop ≤ c.start) :
    (outermost close? cursor ts).Pairwise fun e f => e.closing.stop ≤ f.opening.start := by
  fun_induction outermost close? cursor ts with
  | case1 => exact .nil
  | case2 cursor t ts _ ih => exact ih
  | case3 cursor t ts _ _ ih => exact ih
  | case4 cursor t ts _ c hc ih => exact .cons (fun e he => le_start_of_mem_outermost he hclose) ih

/-- The outermost enclosures are those that start inside no other of them. -/
theorem mem_outermost_iff (hclose : ∀ t c, close? t = some c → t.stop ≤ c.start)
    (hts : ts.Pairwise fun t u => t.start < u.start) {e : Enclosure α κ} :
    e ∈ outermost close? cursor ts ↔
      (e.opening ∈ ts ∧ close? e.opening = some e.closing ∧ cursor ≤ e.opening.start) ∧
        ∀ f ∈ outermost close? cursor ts,
          ¬ (f.opening.start < e.opening.start ∧ e.opening.start < f.closing.stop) := by
  fun_induction outermost close? cursor ts with
  | case1 => simp
  | case2 cursor t ts hlt ih =>
    rw [ih (List.pairwise_cons.mp hts).2, List.mem_cons]
    refine and_congr_left fun _ => ⟨fun h => ⟨.inr h.1, h.2⟩, fun h => ?_⟩
    obtain ⟨h, hc, hle⟩ := h
    exact ⟨h.resolve_left fun heq => Nat.not_lt_of_le hle (heq ▸ hlt), hc, hle⟩
  | case3 cursor t ts _ hn ih =>
    rw [ih (List.pairwise_cons.mp hts).2, List.mem_cons]
    refine and_congr_left fun _ => ⟨fun h => ⟨.inr h.1, h.2⟩, fun h => ?_⟩
    obtain ⟨h, hc, hle⟩ := h
    refine ⟨h.resolve_left fun heq => ?_, hc, hle⟩
    rw [heq, hn] at hc
    exact absurd hc (by simp)
  | case4 cursor t ts hcursor c hc ih =>
    obtain ⟨ht, hts⟩ := List.pairwise_cons.mp hts
    have hstart := t.start_lt_stop
    have hstop := c.start_lt_stop
    have hclosing := hclose t c hc
    rw [List.mem_cons, ih hts, List.forall_mem_cons, List.mem_cons]
    constructor
    · rintro (rfl | ⟨⟨hmem, hce, hle⟩, hall⟩)
      · refine ⟨⟨.inl rfl, hc, Nat.le_of_not_lt hcursor⟩, fun h => Nat.lt_irrefl _ h.1,
          fun f hf h => ?_⟩
        have hbehind := le_start_of_mem_outermost hf hclose
        dsimp only at h
        omega
      · refine ⟨⟨.inr hmem, hce, by omega⟩, fun h => ?_, hall⟩
        dsimp only at h
        omega
    · rintro ⟨⟨hmem, hce, hle⟩, hfirst, hall⟩
      rcases hmem with heq | hmem
      · left
        obtain ⟨opening, closing⟩ := e
        obtain rfl : opening = t := heq
        rw [hc] at hce
        rw [Option.some.inj hce]
      · right
        exact ⟨⟨hmem, hce, Nat.le_of_not_lt fun h => hfirst ⟨ht _ hmem, h⟩⟩, hall⟩

end

end Tag

/-! ## The tags of loops -/

namespace Loop

variable {d : Delimiters} {s : Text} {t : Tag LoopHead} {c : Tag Text} {head : LoopHead}

/-- A tag of a text that opens a loop, of one form or the other. -/
def Opens (d : Delimiters) (s : Text) (t : Tag LoopHead) : Prop :=
  t ∈ Tag.scan d.loopOpening s ∨ t ∈ Tag.scan d.legacyOpening s

/-- The tags of a text that open a loop of a form over a path. -/
def openingTags (d : Delimiters) (s : Text) (head : LoopHead) : List (Tag Text) :=
  (Tag.scan (loopOpen d head.form) s).filter (·.content = head.path)

/-- The tags of a text that close a loop of a form over a path. -/
def closingTags (d : Delimiters) (s : Text) (head : LoopHead) : List (Tag Text) :=
  (Tag.scan (loopClose d head.form) s).filter (·.content = head.path)

/-- From one position of a text up to another as many tags open a loop of a form over a path as
close one. -/
def Level (d : Delimiters) (s : Text) (head : LoopHead) (start stop : Nat) : Prop :=
  (openingTags d s head).countP (fun t => start ≤ t.start ∧ t.start < stop) =
    (closingTags d s head).countP fun t => start ≤ t.start ∧ t.start < stop

/-- A tag closes a loop: it is the first behind its opening tag with as many tags opening as closing
strictly between, of those with the form and path of the loop. -/
structure Closes (d : Delimiters) (s : Text) (t : Tag LoopHead) (c : Tag Text) : Prop where
  /-- It closes a loop of that form over that path. -/
  closing : c ∈ closingTags d s t.content
  /-- It comes behind. -/
  behind : t.stop ≤ c.start
  /-- Between the two as many tags open as close. -/
  level : Level d s t.content t.stop c.start
  /-- That is so in front of no closing tag before. -/
  first : ∀ c' ∈ closingTags d s t.content, t.stop ≤ c'.start → c'.start < c.start →
    ¬ Level d s t.content t.stop c'.start

theorem sealed_loopOpen (hd : d.Apart) (form : LoopForm) : Sealed d (loopOpen d form) := by
  cases form with
  | bound name => exact (Delimiters.sealed_loopOpening hd).map
  | legacy => exact (Delimiters.sealed_legacyOpening hd).map

theorem sealed_loopClose (hd : d.Apart) (form : LoopForm) : Sealed d (loopClose d form) := by
  cases form with
  | bound name => exact Delimiters.sealed_loopClosing hd
  | legacy => exact Delimiters.sealed_legacyClosing hd

theorem Opens.exists_stands (hd : d.Apart) (h : Opens d s t) :
    ∃ r : Recognizer LoopHead, Sealed d r ∧ Tag.Stands r s t := by
  rcases h with h | h
  · exact ⟨_, Delimiters.sealed_loopOpening hd, Tag.stands_of_mem_scan h⟩
  · exact ⟨_, Delimiters.sealed_legacyOpening hd, Tag.stands_of_mem_scan h⟩

theorem pairwise_openingTags : (openingTags d s head).Pairwise fun t u => t.start < u.start :=
  (Tag.pairwise_start_scan _ s).sublist List.filter_sublist

theorem pairwise_closingTags : (closingTags d s head).Pairwise fun t u => t.start < u.start :=
  (Tag.pairwise_start_scan _ s).sublist List.filter_sublist

/-- No tag both opens and closes loops of a form. -/
theorem start_ne_of_mem (hd : d.Apart) {o : Tag Text} (ho : o ∈ openingTags d s head)
    (hc : c ∈ closingTags d s head) : o.start ≠ c.start := by
  intro heq
  obtain ⟨body, hbody, hopen, hclose⟩ := Tag.Stands.reading_eq (sealed_loopOpen hd head.form)
    (sealed_loopClose hd head.form) (delimited_loopOpen hd head.form)
    (delimited_loopClose hd head.form)
    (Tag.stands_of_mem_scan (List.mem_filter.mp ho).1)
    (Tag.stands_of_mem_scan (List.mem_filter.mp hc).1) heq
  cases hf : head.form with
  | bound name =>
    rw [hf] at hopen hclose
    rw [loopOpen, reading_map, Delimiters.not_loopOpening_of_loopClosing hd hbody hclose] at hopen
    exact absurd hopen (by simp)
  | legacy =>
    rw [hf] at hopen hclose
    rw [loopOpen, reading_map] at hopen
    obtain ⟨head', hhead, -⟩ := Option.map_eq_some_iff.mp hopen
    exact (Delimiters.words_legacyOpening hd hbody hhead).1
      (Delimiters.leadingWord_legacyClosing hd hbody hclose)

/-! ## The tag that closes a loop -/

/-- The tags of the form and path of a loop behind its opening tag. -/
def edgesBehind (d : Delimiters) (s : Text) (t : Tag LoopHead) : List (Tag.Edge Text) :=
  (((openingTags d s t.content).filter (t.stop ≤ ·.start)).map .opening).merge
    (((closingTags d s t.content).filter (t.stop ≤ ·.start)).map .closing)
    fun a b => a.start ≤ b.start

theorem closing?_eq (hd : d.Apart) (ht : Opens d s t) :
    closing? d s t = Tag.Edge.unmatched? 0 (edgesBehind d s t) := by
  obtain ⟨r, hr, hstands⟩ := ht.exists_stands hd
  have hbehind : ∀ {q : Recognizer Text}, Sealed d q →
      (Tag.scanFrom q t.stop 0 (s.drop t.stop)).filter (·.content = t.content.path) =
        ((Tag.scan q s).filter (·.content = t.content.path)).filter (t.stop ≤ ·.start) := by
    intro q hq
    rw [Tag.scanFrom_drop fun u hu => hstands.stop_le_stop hd hr hq (Tag.stands_of_mem_scan hu),
      List.filter_comm]
  have hform : closing? d s t =
      Tag.closing? (loopOpen d t.content.form)
        (loopClose d t.content.form) t.content.path s t.stop := by
    unfold closing?
    cases t.content.form <;> rfl
  rw [hform, Tag.closing?, Tag.Edge.edges, hbehind (sealed_loopOpen hd _),
    hbehind (sealed_loopClose hd _)]
  rfl

theorem pairwise_edgesBehind (hd : d.Apart) :
    (edgesBehind d s t).Pairwise fun a b => a.start < b.start := by
  refine Tag.pairwise_merge ?_ ?_ fun a ha b hb => ?_
  · exact List.pairwise_map.mpr (pairwise_openingTags.sublist List.filter_sublist)
  · exact List.pairwise_map.mpr (pairwise_closingTags.sublist List.filter_sublist)
  · obtain ⟨o, ho, rfl⟩ := List.mem_map.mp ha
    obtain ⟨c, hc, rfl⟩ := List.mem_map.mp hb
    exact start_ne_of_mem hd (List.mem_filter.mp ho).1 (List.mem_filter.mp hc).1

theorem closing_mem_edgesBehind :
    .closing c ∈ edgesBehind d s t ↔ c ∈ closingTags d s t.content ∧ t.stop ≤ c.start := by
  simp [edgesBehind, List.mem_merge]

/-- In front of a tag behind an opening tag as many open as close exactly if that is so in the
text. -/
theorem levelFrom_iff_level (hd : d.Apart) {pre post : List (Tag.Edge Text)}
    (h : edgesBehind d s t = pre ++ .closing c :: post) :
    LevelFrom Tag.Edge.isOpening Tag.Edge.isClosing 0 pre ↔ Level d s t.content t.stop c.start := by
  have hsorted := pairwise_edgesBehind (s := s) (t := t) hd
  have hcount : ∀ tags : List (Tag Text),
      (tags.filter (t.stop ≤ ·.start)).countP (·.start < c.start) =
        tags.countP fun u => t.stop ≤ u.start ∧ u.start < c.start := by
    intro tags
    rw [List.countP_filter]
    exact List.countP_congr fun u _ => by simp [and_comm]
  have hperm : (edgesBehind d s t).Perm
      (((openingTags d s t.content).filter (t.stop ≤ ·.start)).map .opening ++
        ((closingTags d s t.content).filter (t.stop ≤ ·.start)).map .closing) :=
    List.merge_perm_append fun a b : Tag.Edge Text => decide (a.start ≤ b.start)
  rw [LevelFrom, Nat.add_zero, Tag.countP_front hsorted h, Tag.countP_front hsorted h,
    hperm.countP_eq, hperm.countP_eq, Level, ← hcount, ← hcount, List.countP_append,
    List.countP_append, List.countP_map, List.countP_map, List.countP_map, List.countP_map]
  -- among the openings nothing closes, and among the closings nothing opens
  change _ + List.countP (fun _ => false) _ = List.countP (fun _ => false) _ + _ ↔ _
  rw [List.countP_false, Function.const_apply, Function.const_apply, Nat.add_zero, Nat.zero_add]
  exact Iff.rfl

namespace Closes

/-- A loop is closed by one tag at most. -/
theorem unique {c' : Tag Text} (h : Closes d s t c) (h' : Closes d s t c') : c = c' := by
  rcases Nat.lt_trichotomy c.start c'.start with hlt | heq | hlt
  · exact absurd h.level (h'.first c h.closing h.behind hlt)
  · exact Tag.eq_of_start_eq pairwise_closingTags h.closing h'.closing heq
  · exact absurd h'.level (h.first c' h'.closing h'.behind hlt)

end Closes

/-- The tag that is looked for is the one that closes the loop. -/
theorem closes_of_closing? (hd : d.Apart) (ht : Opens d s t) (h : closing? d s t = some c) :
    Closes d s t c := by
  rw [closing?_eq hd ht] at h
  obtain ⟨between, back, hedges, hlevel, hfirst⟩ := Tag.Edge.unmatched?_eq_some h
  have hmem : .closing c ∈ edgesBehind d s t := by simp [hedges]
  obtain ⟨hclosing, hbehind⟩ := closing_mem_edgesBehind.mp hmem
  refine ⟨hclosing, hbehind, (levelFrom_iff_level hd hedges).mp hlevel,
    fun c' hc' hbehind' hlt hlevel' => ?_⟩
  -- a closing tag in front of it is one of those in between
  have hbetween : .closing c' ∈ between := by
    have hmem' := closing_mem_edgesBehind.mpr ⟨hc', hbehind'⟩
    have hsorted := pairwise_edgesBehind (s := s) (t := t) hd
    rw [hedges] at hmem' hsorted
    rcases List.mem_append.mp hmem' with h | h
    · exact h
    · rcases List.mem_cons.mp h with heq | h
      · obtain rfl := Tag.Edge.closing.inj heq
        exact absurd hlt (Nat.lt_irrefl _)
      · have hback := (List.pairwise_cons.mp (List.pairwise_append.mp hsorted).2.1).1 _ h
        exact absurd hlt (Nat.lt_asymm hback)
  obtain ⟨pre, post, rfl⟩ := List.append_of_mem hbetween
  rw [List.append_assoc, List.cons_append] at hedges
  exact hfirst pre _ post rfl rfl ((levelFrom_iff_level hd hedges).mpr hlevel')

theorem closing?_eq_some_iff (hd : d.Apart) (ht : Opens d s t) :
    closing? d s t = some c ↔ Closes d s t c := by
  refine ⟨closes_of_closing? hd ht, fun h => ?_⟩
  cases hc : closing? d s t with
  | some c' => rw [(closes_of_closing? hd ht hc).unique h]
  | none =>
    rw [closing?_eq hd ht] at hc
    obtain ⟨pre, post, hedges⟩ :=
      List.append_of_mem (closing_mem_edgesBehind.mpr ⟨h.closing, h.behind⟩)
    exact absurd ((levelFrom_iff_level hd hedges).mpr h.level)
      (Tag.Edge.unspent_of_unmatched? hc pre _ post hedges rfl)

/-! ## The loops of a text -/

/-- The opening tags of both forms, from left to right. -/
def candidates (d : Delimiters) (s : Text) : List (Tag LoopHead) :=
  (Tag.scan d.loopOpening s).merge (Tag.scan d.legacyOpening s) fun a b => a.start ≤ b.start

theorem mem_candidates : t ∈ candidates d s ↔ Opens d s t := List.mem_merge

/-- No tag opens loops of both forms. -/
theorem start_ne_of_opens (hd : d.Apart) {u : Tag LoopHead} (ht : t ∈ Tag.scan d.loopOpening s)
    (hu : u ∈ Tag.scan d.legacyOpening s) : t.start ≠ u.start := by
  intro heq
  obtain ⟨body, hbody, hbound, hlegacy⟩ := Tag.Stands.reading_eq (Delimiters.sealed_loopOpening hd)
    (Delimiters.sealed_legacyOpening hd) (Delimiters.delimited_loopOpening hd)
    (Delimiters.delimited_legacyOpening hd) (Tag.stands_of_mem_scan ht)
    (Tag.stands_of_mem_scan hu) heq
  have hvalue := ((Delimiters.reading_legacyOpening_iff hd hbody).mp hlegacy).2
  rw [Delimiters.not_value_of_loopOpening hd hbody hbound] at hvalue
  exact absurd hvalue (by simp)

theorem pairwise_candidates (hd : d.Apart) :
    (candidates d s).Pairwise fun t u => t.start < u.start :=
  Tag.pairwise_merge (Tag.pairwise_start_scan _ s) (Tag.pairwise_start_scan _ s) fun _ ht _ hu =>
    start_ne_of_opens hd ht hu

theorem form_of_mem_loopOpening (h : t ∈ Tag.scan d.loopOpening s) :
    ∃ name, t.content.form = .bound name := by
  obtain ⟨x, -, hx⟩ := map_eq_some.mp (Tag.stands_of_mem_scan h)
  exact ⟨_, by rw [← hx]⟩

theorem form_of_mem_legacyOpening (h : t ∈ Tag.scan d.legacyOpening s) :
    t.content.form = .legacy := by
  obtain ⟨x, -, hx⟩ := map_eq_some.mp (Tag.stands_of_mem_scan h)
  rw [← hx]

/-- The opening tags that are looked at are those that may be closed. -/
theorem openings_eq_filter (hd : d.Apart) :
    openings d s =
      (candidates d s).filter (mayClose ((Tag.scan d.legacyClosing s).map (·.content))) := by
  rw [openings]
  generalize (Tag.scan d.legacyClosing s).map (·.content) = closed
  have hbound : (Tag.scan d.loopOpening s).filter (mayClose closed) = Tag.scan d.loopOpening s := by
    refine List.filter_eq_self.mpr fun t ht => ?_
    obtain ⟨name, hform⟩ := form_of_mem_loopOpening ht
    simp [mayClose, hform]
  have hlegacy : (Tag.scan d.legacyOpening s).filter (mayClose closed) =
      (Tag.scan d.legacyOpening s).filter fun t => t.content.path ∈ closed := by
    refine List.filter_congr fun t ht => ?_
    simp [mayClose, form_of_mem_legacyOpening ht]
  -- two rows in order with the same members are the same
  refine List.Perm.eq_of_pairwise (fun t u _ _ (hlt : t.start < u.start) hlt' =>
    absurd hlt' (Nat.lt_asymm hlt)) ?_ ((pairwise_candidates hd).sublist List.filter_sublist) ?_
  · exact Tag.pairwise_merge (Tag.pairwise_start_scan _ s)
      ((Tag.pairwise_start_scan _ s).sublist List.filter_sublist)
      fun t ht u hu => start_ne_of_opens hd ht (List.mem_filter.mp hu).1
  · refine (List.merge_perm_append _).trans ?_
    have hmerge : (candidates d s).Perm (Tag.scan d.loopOpening s ++ Tag.scan d.legacyOpening s) :=
      List.merge_perm_append fun a b : Tag LoopHead => decide (a.start ≤ b.start)
    have hperm := hmerge.filter (mayClose closed)
    rw [List.filter_append, hbound, hlegacy] at hperm
    exact hperm.symm

/-- Whether an opening tag is looked at or not is the same to the loops that are found. -/
theorem outermost_eq (hd : d.Apart) :
    outermost d s = Tag.outermost (closing? d s) 0 (candidates d s) := by
  rw [outermost, openings_eq_filter hd]
  refine outermost_filter (fun t ht hmay => Option.eq_none_iff_forall_ne_some.mpr fun c hc => ?_) 0
  have hclosing := (closes_of_closing? hd (mem_candidates.mp ht) hc).closing
  obtain ⟨hmem, hpath⟩ := List.mem_filter.mp hclosing
  cases hform : t.content.form with
  | bound name => simp [mayClose, hform] at hmay
  | legacy =>
    -- its closing tag is among those of the text
    rw [hform] at hmem
    have hclosed : t.content.path ∈ (Tag.scan d.legacyClosing s).map (·.content) :=
      List.mem_map.mpr ⟨c, hmem, by simpa using hpath⟩
    rw [mayClose, hform] at hmay
    simp [hclosed] at hmay

theorem mem_outermost_iff (hd : d.Apart) {e : Tag.Enclosure LoopHead Text} :
    e ∈ outermost d s ↔ (Opens d s e.opening ∧ Closes d s e.opening e.closing) ∧
      ∀ f ∈ outermost d s, ¬ (f.opening.start < e.opening.start ∧
        e.opening.start < f.closing.stop) := by
  rw [outermost_eq hd, Tag.mem_outermost_iff (fun t c h => (closing?_eq_some h).2)
    (pairwise_candidates hd), mem_candidates]
  refine and_congr_left fun _ => ⟨fun h => ⟨h.1, closes_of_closing? hd h.1 h.2.1⟩, fun h => ?_⟩
  exact ⟨h.1, (closing?_eq_some_iff hd h.1).mpr h.2, Nat.zero_le _⟩

/-! ## What a row gives to the body of a loop -/

/-- What the body of a loop finds of a row under a key: a field of the row, or the row under `value`
if it is no object, and else one of the counters. -/
def binding? (index : Nat) (row : Value) (key : String) : Option Value :=
  (match row with
    | .object fields => (Dict.ofEntries fields).get? key
    | row => if key = "value" then some row else none).or
  (if key = "index" then some (.int (Int64.ofNat index))
    else if key = "i" then some (.int (Int64.ofNat (index + 1)))
    else none)

theorem get?_bindings (index : Nat) (row : Value) (key : String) :
    Dict.get? (bindings index row) key = binding? index row key := by
  have hcounters : Dict.get? [("index", .int (Int64.ofNat index)),
      ("i", .int (Int64.ofNat (index + 1)))] key =
      if key = "index" then some (.int (Int64.ofNat index))
      else if key = "i" then some (Value.int (Int64.ofNat (index + 1)))
      else none := by
    simp only [Dict.get?, eq_comm]
  unfold bindings binding?
  cases row with
  | object fields => rw [Dict.get?_merge, hcounters]
  | _ =>
    rw [Dict.get?_set, hcounters]
    simp only [eq_comm (a := "value")]
    split <;> rfl

theorem keysUnique_bindings (index : Nat) (row : Value) : Dict.KeysUnique (bindings index row) := by
  have hcounters : Dict.KeysUnique
      [("index", Value.int (Int64.ofNat index)), ("i", .int (Int64.ofNat (index + 1)))] := by
    simp [Dict.KeysUnique, Dict.keys]
  cases row with
  | object fields => exact hcounters.merge fields
  | _ => exact hcounters.set "value" _

/-- The context of an iteration finds what its row gives: the bound form under its name, the legacy
form in front of what the enclosing context has. Everything else is found in the enclosing
context. -/
def Iterates (form : LoopForm) (outer : Context) (index : Nat) (row : Value) (inner : Context) :
    Prop :=
  match form with
  | .bound name => ∃ fields : Context, (∀ key, fields.get? key = binding? index row key) ∧
      ∀ key, inner.get? key = if key = name then some (.object fields) else outer.get? key
  | .legacy => ∀ key, inner.get? key = (binding? index row key).or (outer.get? key)

theorem iterates_rowContext (form : LoopForm) (outer : Context) (index : Nat) (row : Value) :
    Iterates form outer index row (rowContext form outer index row) := by
  cases form with
  | bound name =>
    refine ⟨bindings index row, get?_bindings index row, fun key => ?_⟩
    rw [rowContext, Dict.get?_set]
    simp only [eq_comm]
  | legacy =>
    intro key
    rw [rowContext, Dict.get?_merge, (keysUnique_bindings index row).get?_ofEntries, get?_bindings]

end Loop

/-! ## What expanding loops does -/

/-- Expands the loops of a text, looking for a closing tag to every opening tag of it. -/
def expandCandidates (d : Delimiters) (render : Text → Context → Text) (s : Text) (ctx : Context) :
    Text :=
  if _h : s = [] then []
  else
    s.splice ((Tag.outermost (Loop.closing? d s) 0 (Loop.candidates d s)).map fun loop =>
      ⟨loop.opening.start, loop.closing.stop,
        (Loop.rows ctx loop.opening.content).zipIdx.flatMap fun (row, index) =>
          let ctx := Loop.rowContext loop.opening.content.form ctx index row
          render (expandCandidates d render (loop.body s) ctx) ctx⟩)
termination_by s.length
decreasing_by exact loop.length_body_lt ‹_›

theorem expandLoops_eq_expandCandidates {d : Delimiters} (hd : d.Apart)
    (render : Text → Context → Text)
    (s : Text) (ctx : Context) : expandLoops d render s ctx = expandCandidates d render s ctx := by
  fun_induction expandLoops d render s ctx with
  | case1 => rw [expandCandidates, dif_pos rfl]
  | case2 s ctx hs ih =>
    rw [expandCandidates, dif_neg hs, Loop.outermost_eq hd]
    simp only [ih]

/-- Expanding the loops of any text puts, in the place of every opening tag that is closed and
starts in no loop in front of it, up to its closing tag, what its rows are rendered to, one after
the other, or nothing if there is no list at its path; the stretches around stay as they are. A body
is expanded and then rendered, each in the context of the iteration. Legacy openings that are closed
nowhere make no difference. -/
theorem expandLoops_eq_of_closes (render : Text → Context → Text) (s : Text) (ctx : Context) :
    let d := Delimiters.braces
    (∃ loops : List (Tag.Enclosure LoopHead Text),
      loops.Pairwise (fun e f => e.closing.stop ≤ f.opening.start) ∧
      (∀ e, e ∈ loops ↔ (Loop.Opens d s e.opening ∧ Loop.Closes d s e.opening e.closing) ∧
        ∀ f ∈ loops, ¬ (f.opening.start < e.opening.start ∧ e.opening.start < f.closing.stop)) ∧
      let spans := loops.map fun e => (e.opening.start, e.closing.stop)
      s = Text.interlace (s.around spans) (spans.map fun x => s.slice x.1 x.2) ∧
      expandLoops d render s ctx = Text.interlace (s.around spans) (loops.map fun e =>
        match ctx.resolve? e.opening.content.path with
        | some (.list rows) => rows.zipIdx.flatMap fun (row, index) =>
            let inner := Loop.rowContext e.opening.content.form ctx index row
            render (expandLoops d render (e.body s) inner) inner
        | _ => [])) ∧
    (∀ form index row, Loop.Iterates form ctx index row (Loop.rowContext form ctx index row)) ∧
    expandLoops d render s ctx = expandCandidates d render s ctx := by
  intro d
  have hd : d.Apart := Delimiters.apart_braces
  have hclose : ∀ t c, Loop.closing? d s t = some c → t.stop ≤ c.start := fun t c h =>
    (Loop.closing?_eq_some h).2
  refine ⟨⟨Loop.outermost d s, Tag.pairwise_outermost hclose,
    fun e => Loop.mem_outermost_iff hd, ?_⟩,
    fun form index row => Loop.iterates_rowContext form ctx index row,
    expandLoops_eq_expandCandidates hd render s ctx⟩
  intro spans
  let expansion (e : Tag.Enclosure LoopHead Text) : Text :=
    (Loop.rows ctx e.opening.content).zipIdx.flatMap fun (row, index) =>
      let inner := Loop.rowContext e.opening.content.form ctx index row
      render (expandLoops d render (e.body s) inner) inner
  have hord : Edit.Ordered 0 ((Loop.outermost d s).map fun e =>
      ⟨e.opening.start, e.closing.stop, expansion e⟩) := Tag.ordered_outermost hclose expansion
  have hspans : ((Loop.outermost d s).map fun e =>
      (⟨e.opening.start, e.closing.stop, expansion e⟩ : Edit)).map (fun e => (e.start, e.stop)) =
        spans :=
    List.map_map
  constructor
  · have hself := Text.interlace_around (s := s) hord
    rw [hspans, List.map_map] at hself
    rw [List.map_map]
    exact hself.symm
  · rw [expandLoops_eq, Text.splice_eq_around hord, hspans, List.map_map]
    refine congrArg _ (List.map_congr_left fun e _ => ?_)
    simp only [Function.comp, expansion, Loop.rows]
    rcases ctx.resolve? e.opening.content.path with _ | row
    · rfl
    · cases row <;> rfl

end Stencil
