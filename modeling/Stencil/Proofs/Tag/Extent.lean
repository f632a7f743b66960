import Stencil.Proofs.Tag.Wording
import Stencil.Template.Blocks
import Stencil.Template.Conditionals
import Stencil.Template.Loops

/-!
# Where tags stand

Every tag starts with the left delimiter and ends with the right one, whatever the delimiters are
and whatever is around it. Scans give tags in order and without overlap; so do the passes that pair
them up, and what they replace never overlaps.
-/

namespace Stencil

/-! ## The ends of a tag -/

namespace Recognizer

variable {α β : Type} {next r q : Recognizer α} {w : Text}

/-- What is taken stands at the front of the text, and ends with a given text. -/
def Ends (w : Text) (r : Recognizer α) : Prop :=
  ∀ s lexeme a, r s = some (lexeme, a) → ∃ front rest, lexeme = front ++ w ∧ s = lexeme ++ rest

/-- Something in front of what is taken does not change how it ends. -/
theorem Ends.behind (h : Ends w next) {v t l : Text} {a : α} (hn : next t = some (l, a)) :
    ∃ front rest, v ++ l = front ++ w ∧ v ++ t = v ++ l ++ rest := by
  obtain ⟨front, rest, rfl, rfl⟩ := h _ _ _ hn
  exact ⟨v ++ front, rest, by simp, by simp⟩

theorem Ends.map {f : α → β} (h : Ends w r) : Ends w (r.map f) := by
  intro s lexeme b hs
  obtain ⟨a, ha, -⟩ := map_eq_some.mp hs
  exact h _ _ _ ha

theorem Ends.orElse (hr : Ends w r) (hq : Ends w q) : Ends w (r.orElse q) := by
  intro s lexeme a hs
  rcases orElse_eq_some hs with h | h
  · exact hr _ _ _ h
  · exact hq _ _ _ h

theorem Ends.literal {v : Text} (h : Ends w next) : Ends w (literal v next) := by
  intro s lexeme a hs
  obtain ⟨t, l, rfl, rfl, hn⟩ := literal_eq_some.mp hs
  exact h.behind hn

theorem Ends.fewest {p : Char → Bool} (h : Ends w next) : Ends w (fewest p next) := by
  intro s lexeme x hs
  obtain ⟨t, l, rfl, rfl, -, hn, -⟩ := fewest_eq_some hs
  exact h.behind hn

theorem Ends.leading {p q : Char → Bool} (h : Ends w next) : Ends w (leading p q next) := by
  intro s lexeme x hs
  obtain ⟨c, u, t, l, -, rfl, rfl, -, -, hn⟩ := leading_eq_some hs
  exact h.behind hn

theorem Ends.blanks (h : Ends w next) : Ends w (blanks next) := by
  intro s lexeme a hs
  obtain ⟨g, t, l, -, rfl, rfl, hn, -⟩ := blanks_eq_some hs
  exact h.behind hn

theorem Ends.someBlanks (h : Ends w next) : Ends w (someBlanks next) := by
  intro s lexeme a hs
  obtain ⟨g, t, l, -, -, rfl, rfl, hn⟩ := someBlanks_eq_some hs
  exact h.behind hn

theorem Ends.wordEnd (h : Ends w next) : Ends w (wordEnd next) :=
  fun s lexeme a hs => h s lexeme a (wordEnd_eq_some hs).2

theorem Ends.path (h : Ends w next) : Ends w (path next) := by
  intro s lexeme x hs
  obtain ⟨t, l, rfl, rfl, -, hn⟩ := path_eq_some hs
  exact h.behind hn

end Recognizer

namespace Delimiters

open Recognizer

variable {α β : Type} {next r : Recognizer α} {d : Delimiters}

/-- What is taken stands at the front of the text, and is a body between the delimiters. -/
def Encloses (d : Delimiters) (r : Recognizer α) : Prop :=
  ∀ s lexeme a, r s = some (lexeme, a) → ∃ body rest, lexeme = d.enclose body ∧ s = lexeme ++ rest

theorem Encloses.map {f : α → β} (h : d.Encloses r) : d.Encloses (r.map f) := by
  intro s lexeme b hs
  obtain ⟨a, ha, -⟩ := map_eq_some.mp hs
  exact h _ _ _ ha

theorem encloses_opened (h : Ends d.right next) : d.Encloses (d.opened next) := by
  intro s lexeme a hs
  obtain ⟨t, l, rfl, rfl, hb⟩ := literal_eq_some.mp hs
  obtain ⟨front, rest, rfl, rfl⟩ := h.blanks _ _ _ hb
  exact ⟨front, rest, rfl, by simp⟩

/-- The end of a tag is blanks and the right delimiter. -/
theorem closed_eq_some {s lexeme : Text} {a : Unit} (h : d.closed s = some (lexeme, a)) :
    ∃ g rest, Blank g ∧ lexeme = g ++ d.right ∧ s = lexeme ++ rest := by
  obtain ⟨g, t, l, hg, rfl, rfl, hlit, -⟩ := blanks_eq_some h
  obtain ⟨t, l, rfl, rfl, hdone⟩ := literal_eq_some.mp hlit
  simp only [done, Option.some.injEq, Prod.mk.injEq] at hdone
  exact ⟨g, t, hg, by rw [← hdone.1, List.append_nil], by rw [← hdone.1]; simp⟩

theorem ends_closed (d : Delimiters) : Ends d.right d.closed := by
  intro s lexeme a h
  obtain ⟨g, rest, -, rfl, rfl⟩ := closed_eq_some h
  exact ⟨g, rest, rfl, rfl⟩

theorem ends_keyword (d : Delimiters) (word : Text) : Ends d.right (d.keyword word) :=
  .map (.literal (.wordEnd (.blanks (.fewest d.ends_closed))))

theorem ends_templateName (d : Delimiters) : Ends d.right d.templateName :=
  .map (.blanks (.literal (.blanks (.leading d.ends_closed))))

theorem encloses_variableTag (d : Delimiters) : d.Encloses d.variableTag := by
  refine .map (encloses_opened (.path (.blanks (.orElse (.map (.literal (.map ?_))) ?_))))
  · exact .blanks (.fewest d.ends_closed)
  · exact .map d.ends_closed

theorem encloses_conditionalTag (d : Delimiters) : d.Encloses d.conditionalTag :=
  encloses_opened (.orElse (.map (d.ends_keyword _)) (.orElse (.map (d.ends_keyword _))
    (.orElse (.map (d.ends_keyword _)) (.map (d.ends_keyword _)))))

theorem encloses_loopOpening (d : Delimiters) : d.Encloses d.loopOpening :=
  .map (encloses_opened (.leading (.someBlanks (.literal (.someBlanks (.path d.ends_closed))))))

theorem encloses_loopClosing (d : Delimiters) : d.Encloses d.loopClosing :=
  .map (encloses_opened (.literal (.someBlanks (.path d.ends_closed))))

theorem encloses_legacyOpening (d : Delimiters) : d.Encloses d.legacyOpening :=
  .map (encloses_opened (.path d.ends_closed))

theorem encloses_legacyClosing (d : Delimiters) : d.Encloses d.legacyClosing :=
  .map (encloses_opened (.literal (.blanks (.path d.ends_closed))))

theorem encloses_blockOpening (d : Delimiters) : d.Encloses d.blockOpening :=
  .map (encloses_opened (.literal (.someBlanks (.leading d.ends_closed))))

theorem encloses_blockClosing (d : Delimiters) : d.Encloses d.blockClosing :=
  encloses_opened (.literal (.orElse (.someBlanks (.map (.leading d.ends_closed))) d.ends_closed))

theorem encloses_baseTag (d : Delimiters) : d.Encloses d.baseTag :=
  encloses_opened (.literal (.orElse (.literal d.ends_templateName) d.ends_templateName))

theorem encloses_includeTag (d : Delimiters) : d.Encloses d.includeTag :=
  encloses_opened (.literal d.ends_templateName)

theorem encloses_protectedRegion (d : Delimiters) : d.Encloses d.protectedRegion :=
  .map (encloses_opened (.literal (.blanks (.literal (.fewest
    (.literal (.blanks (.literal (.blanks (.literal d.ends_closed))))))))))

/-- The filters of a variable tag stand between its bar and its end, but for blanks. -/
theorem variableTag_eq_some {s lexeme path chain : Text}
    (h : d.variableTag s = some (lexeme, ⟨path, some chain⟩)) :
    ∃ front g g', Blank g ∧ Blank g' ∧ lexeme =
      front ++ '|' :: (g ++ (chain ++ (g' ++ d.right))) := by
  obtain ⟨⟨p, chain?⟩, hopened, heq⟩ := map_eq_some.mp h
  simp only [Variable.mk.injEq] at heq
  obtain ⟨rfl, rfl⟩ := heq
  obtain ⟨t, l, rfl, rfl, hblanks⟩ := literal_eq_some.mp hopened
  obtain ⟨g₀, t, l, -, rfl, rfl, hpath, -⟩ := blanks_eq_some hblanks
  obtain ⟨t, l, rfl, rfl, -, hblanks⟩ := path_eq_some hpath
  obtain ⟨g₁, t, l, -, rfl, rfl, hend, -⟩ := blanks_eq_some hblanks
  rcases orElse_eq_some hend with hbar | hnone
  · obtain ⟨c, hlit, hc⟩ := map_eq_some.mp hbar
    obtain rfl : c = chain := by simpa using hc
    obtain ⟨t, l, rfl, rfl, hchain⟩ := literal_eq_some.mp hlit
    obtain ⟨⟨c', u⟩, hgap, rfl⟩ := map_eq_some.mp hchain
    obtain ⟨g, t, l, hg, rfl, rfl, hfew, -⟩ := blanks_eq_some hgap
    obtain ⟨t, l, rfl, rfl, -, hclosed, -⟩ := fewest_eq_some hfew
    obtain ⟨g', rest, hg', rfl, rfl⟩ := closed_eq_some hclosed
    exact ⟨d.left ++ (g₀ ++ (p ++ g₁)), g, g', hg, hg', by simp⟩
  · obtain ⟨u, -, hc⟩ := map_eq_some.mp hnone
    exact absurd hc (by simp)

end Delimiters

/-! ## Scans -/

namespace Edit

/-- Edits follow each other from a position on. -/
def Ordered : Nat → List Edit → Prop
  | _, [] => True
  | pos, e :: es => pos ≤ e.start ∧ e.start ≤ e.stop ∧ Ordered e.stop es

/-- Where an edit stands. -/
def Covers (e : Edit) (p : Nat) : Prop := e.start ≤ p ∧ p < e.stop

theorem Ordered.le_start {pos : Nat} {es : List Edit} (h : Ordered pos es) :
    ∀ e ∈ es, pos ≤ e.start := by
  induction es generalizing pos with
  | nil => exact fun e he => absurd he (by simp)
  | cons x es ih =>
    obtain ⟨hpos, hx, hord⟩ := h
    intro e he
    rcases List.mem_cons.mp he with rfl | he
    · exact hpos
    · have := ih hord e he
      omega

theorem Ordered.start_le_stop {pos : Nat} {es : List Edit} (h : Ordered pos es) :
    ∀ e ∈ es, e.start ≤ e.stop := by
  induction es generalizing pos with
  | nil => exact fun e he => absurd he (by simp)
  | cons x es ih =>
    obtain ⟨-, hx, hord⟩ := h
    intro e he
    rcases List.mem_cons.mp he with rfl | he
    · exact hx
    · exact ih hord e he

/-- Whether edits are in order depends on what they cover only. -/
theorem Ordered.congr {es es' : List Edit} {pos : Nat} (h : Ordered pos es)
    (hspans : es'.map (fun e => (e.start, e.stop)) = es.map fun e => (e.start, e.stop)) :
    Ordered pos es' := by
  induction es' generalizing es pos with
  | nil => trivial
  | cons e' es' ih =>
    cases es with
    | nil => exact absurd hspans (by simp)
    | cons e es =>
      simp only [List.map_cons, List.cons.injEq, Prod.mk.injEq] at hspans
      obtain ⟨⟨hstart, hstop⟩, hspans⟩ := hspans
      obtain ⟨hpos, hle, hord⟩ := h
      rw [← hstop] at hord
      exact ⟨hstart ▸ hpos, hstart ▸ hstop ▸ hle, ih hord hspans⟩

/-- No two edits stand at one position. -/
theorem Ordered.unique {β : Type} {f : β → Edit} {xs : List β} {pos p : Nat}
    (h : Ordered pos (xs.map f)) {x y : β} (hx : x ∈ xs) (hy : y ∈ xs) (hxp : (f x).Covers p)
    (hyp : (f y).Covers p) :
    x = y := by
  induction xs generalizing pos with
  | nil => exact absurd hx (by simp)
  | cons z xs ih =>
    obtain ⟨-, -, hord⟩ := h
    have hbehind : ∀ w ∈ xs, (f z).stop ≤ (f w).start := fun w hw =>
      hord.le_start (f w) (List.mem_map_of_mem hw)
    unfold Covers at hxp hyp
    rcases List.mem_cons.mp hx with hxz | hx
    · rcases List.mem_cons.mp hy with hyz | hy
      · rw [hxz, hyz]
      · have := hbehind y hy
        rw [hxz] at hxp
        omega
    · rcases List.mem_cons.mp hy with hyz | hy
      · have := hbehind x hx
        rw [hyz] at hyp
        omega
      · exact ih hord hx hy

end Edit

/-- Edits that put a stretch into its own place change nothing. -/
theorem Text.spliceFrom_self {s : Text} {pos : Nat} {es : List Edit} (hord : Edit.Ordered pos es)
    (hself : ∀ e ∈ es, s.drop e.start = e.replacement ++ s.drop e.stop) :
    spliceFrom pos (s.drop pos) es = s.drop pos := by
  induction es generalizing pos with
  | nil => rfl
  | cons e es ih =>
    obtain ⟨hstart, hstop, hord⟩ := hord
    have hrest := ih hord fun x hx => hself x (by simp [hx])
    have hfront : pos + (e.start - pos) = e.start := by omega
    have hback : pos + (e.stop - pos) = e.stop := by omega
    rw [spliceFrom, List.drop_drop, hback, hrest, ← hself e (by simp), ← hfront, ← List.drop_drop,
      Nat.add_sub_cancel_left, List.take_append_drop]

namespace Tag

variable {α κ : Type} {r : Recognizer α} {s : Text} {t : Tag α} {pos skip : Nat}

/-- A grammar reads a tag where it stands in a text. -/
def Stands (r : Recognizer α) (s : Text) (t : Tag α) : Prop :=
  r (s.drop t.start) = some (t.lexeme, t.content)

theorem mem_scanFrom (h : t ∈ scanFrom r pos skip s) :
    ∃ i, skip ≤ i ∧ t.start = pos + i ∧ r (s.drop i) = some (t.lexeme, t.content) := by
  fun_induction scanFrom r pos skip s with
  | case1 => exact absurd h (by simp)
  | case2 pos skip c s ih =>
    obtain ⟨i, hi, hstart, hr⟩ := ih h
    exact ⟨i + 1, by omega, by omega, hr⟩
  | case3 pos c s x lexeme a hr ih =>
    rcases List.mem_cons.mp h with rfl | h
    · exact ⟨0, Nat.zero_le _, rfl, hr⟩
    · obtain ⟨i, -, hstart, hr⟩ := ih h
      exact ⟨i + 1, Nat.zero_le _, by omega, hr⟩
  | case4 pos c s _ ih =>
    obtain ⟨i, -, hstart, hr⟩ := ih h
    exact ⟨i + 1, Nat.zero_le _, by omega, hr⟩

/-- What a scan from a position on finds stands in the text, behind the position. -/
theorem stands_of_mem (h : t ∈ scanFrom r pos 0 (s.drop pos)) : Stands r s t ∧ pos ≤ t.start := by
  obtain ⟨i, -, hstart, hr⟩ := mem_scanFrom h
  rw [List.drop_drop, ← hstart] at hr
  exact ⟨hr, by omega⟩

theorem stands_of_mem_scan (h : t ∈ scan r s) : Stands r s t := by
  have hfront : t ∈ scanFrom r 0 0 (s.drop 0) := h
  exact (stands_of_mem hfront).1

theorem le_start_of_mem_scanFrom (h : t ∈ scanFrom r pos skip s) : pos + skip ≤ t.start := by
  obtain ⟨i, hi, hstart, -⟩ := mem_scanFrom h
  omega

theorem pairwise_scanFrom (r : Recognizer α) (pos skip : Nat) (s : Text) :
    (scanFrom r pos skip s).Pairwise fun t u => t.stop ≤ u.start := by
  fun_induction scanFrom r pos skip s with
  | case1 => exact .nil
  | case2 pos skip c s ih => exact ih
  | case3 pos c s x lexeme a hr ih =>
    refine .cons (fun u hu => ?_) ih
    have := le_start_of_mem_scanFrom hu
    simp only [stop, List.length_cons]
    omega
  | case4 pos c s _ ih => exact ih

theorem pairwise_start_scan (r : Recognizer α) (s : Text) :
    (scan r s).Pairwise fun t u => t.start < u.start :=
  (pairwise_scanFrom r 0 0 s).imp fun {t _} h => Nat.lt_of_lt_of_le t.start_lt_stop h

/-- Edits in the place of tags in a row. -/
theorem ordered_of_pairwise {ts : List (Tag α)} (h : ts.Pairwise fun t u => t.stop ≤ u.start)
    (hpos : ∀ t ∈ ts, pos ≤ t.start) (f : Tag α → Text) :
    Edit.Ordered pos (ts.map fun t => ⟨t.start, t.stop, f t⟩) := by
  induction ts generalizing pos with
  | nil => trivial
  | cons t ts ih =>
    obtain ⟨ht, hts⟩ := List.pairwise_cons.mp h
    exact ⟨hpos t (by simp), Nat.le_of_lt t.start_lt_stop, ih hts ht⟩

theorem ordered_scan (r : Recognizer α) (s : Text) (f : Tag α → Text) :
    Edit.Ordered 0 ((scan r s).map fun t => ⟨t.start, t.stop, f t⟩) :=
  ordered_of_pairwise (pairwise_scanFrom r 0 0 s) (fun _ _ => Nat.zero_le _) f

/-! ## Pairs of tags -/

theorem mem_of_unmatched? {depth : Nat} {es : List (Edge κ)} {c : Tag κ}
    (h : Edge.unmatched? depth es = some c) : .closing c ∈ es := by
  fun_induction Edge.unmatched? depth es with
  | case1 => exact absurd h (by simp)
  | case2 depth u es ih => exact List.mem_cons_of_mem _ (ih h)
  | case3 u es =>
    obtain rfl := Option.some.inj h
    simp
  | case4 depth u es ih => exact List.mem_cons_of_mem _ (ih h)

/-- The balancing tag stands in the text, behind the position. -/
theorem closing?_eq_some [DecidableEq κ] {opening closing : Recognizer κ} {key : κ} {c : Tag κ}
    (h : closing? opening closing key s pos = some c) : Stands closing s c ∧ pos ≤ c.start := by
  have hmem := mem_of_unmatched? h
  simp only [Edge.edges, List.mem_merge, List.mem_map, List.mem_filter, reduceCtorEq, and_false,
    exists_false, false_or] at hmem
  obtain ⟨u, ⟨hu, -⟩, heq⟩ := hmem
  obtain rfl : u = c := by simpa using heq
  exact stands_of_mem hu

theorem mem_outermost {close? : Tag α → Option (Tag κ)} {cursor : Nat} {ts : List (Tag α)}
    {e : Enclosure α κ} (h : e ∈ outermost close? cursor ts) :
    e.opening ∈ ts ∧ close? e.opening = some e.closing := by
  fun_induction outermost close? cursor ts with
  | case1 => exact absurd h (by simp)
  | case2 cursor t ts _ ih => exact ⟨List.mem_cons_of_mem _ (ih h).1, (ih h).2⟩
  | case3 cursor t ts _ _ ih => exact ⟨List.mem_cons_of_mem _ (ih h).1, (ih h).2⟩
  | case4 cursor t ts _ c hc ih =>
    rcases List.mem_cons.mp h with rfl | h
    · exact ⟨by simp, hc⟩
    · exact ⟨List.mem_cons_of_mem _ (ih h).1, (ih h).2⟩

/-- Enclosures are passed over as a whole, so edits in their place do not overlap. -/
theorem ordered_outermost {close? : Tag α → Option (Tag κ)} {cursor : Nat} {ts : List (Tag α)}
    (hclose : ∀ t c, close? t = some c → t.stop ≤ c.start) (f : Enclosure α κ → Text) :
    Edit.Ordered cursor ((outermost close? cursor ts).map fun e =>
      ⟨e.opening.start, e.closing.stop, f e⟩) := by
  fun_induction outermost close? cursor ts with
  | case1 => trivial
  | case2 cursor t ts _ ih => exact ih
  | case3 cursor t ts _ _ ih => exact ih
  | case4 cursor t ts hcursor c hc ih =>
    have hstart := t.start_lt_stop
    have hstop := c.start_lt_stop
    have hle := hclose t c hc
    refine ⟨?_, ?_, ih⟩
    · dsimp only
      omega
    · dsimp only
      omega

end Tag

/-! ## The tags of each construct -/

namespace Loop

variable {d : Delimiters} {s : Text}

theorem closing?_eq_some {t : Tag LoopHead} {c : Tag Text} (h : closing? d s t = some c) :
    (Tag.Stands d.loopClosing s c ∨ Tag.Stands d.legacyClosing s c) ∧ t.stop ≤ c.start := by
  unfold closing? at h
  split at h
  · have := Tag.closing?_eq_some h
    exact ⟨.inl this.1, this.2⟩
  · have := Tag.closing?_eq_some h
    exact ⟨.inr this.1, this.2⟩

theorem stands_of_mem_openings {t : Tag LoopHead} (h : t ∈ openings d s) :
    Tag.Stands d.loopOpening s t ∨ Tag.Stands d.legacyOpening s t := by
  simp only [openings, List.mem_merge, List.mem_filter] at h
  rcases h with h | h
  · exact .inl (Tag.stands_of_mem_scan h)
  · exact .inr (Tag.stands_of_mem_scan h.1)

end Loop

namespace Branch

/-- A branch starts at one tag of a row and ends in front of one. -/
def Between (ts : List (Tag Conditional)) (b : Branch) : Prop :=
  b.tag ∈ ts ∧ ∃ t ∈ ts, b.stop = t.start

theorem Between.mono {ts us : List (Tag Conditional)} {b : Branch} (h : b.Between ts)
    (hsub : ts ⊆ us) :
    b.Between us := by
  obtain ⟨hmem, t, ht, hstop⟩ := h
  exact ⟨hsub hmem, t, hsub ht, hstop⟩

/-- The closing tag of a conditional and the tags behind it are among those behind its front. -/
theorem split?_eq_some {depth : Nat} {front last : Tag Conditional}
    {ts rest : List (Tag Conditional)} {bs : List Branch}
    (h : split? depth front ts = some (bs, last, rest)) :
    last :: rest <:+ ts ∧ ∀ b ∈ bs, b.Between (front :: ts) := by
  -- a tag that starts no branch only makes the row longer
  have hpass : ∀ {front t last : Tag Conditional} {ts rest : List (Tag Conditional)}
      {bs : List Branch}, (last :: rest <:+ ts ∧ ∀ b ∈ bs, b.Between (front :: ts)) →
        last :: rest <:+ t :: ts ∧ ∀ b ∈ bs, b.Between (front :: t :: ts) := by
    intro front t last ts rest bs ⟨hsuffix, hbs⟩
    exact ⟨hsuffix.trans (List.suffix_cons t ts), fun b hb =>
      (hbs b hb).mono (List.cons_subset_cons front (List.subset_cons_self t ts))⟩
  fun_induction split? depth front ts generalizing bs last rest with
  | case1 => exact absurd h (by simp)
  | case2 _ _ _ _ _ _ ih => exact hpass (ih h)
  | case3 front t ts ht =>
    simp only [Option.some.injEq, Prod.mk.injEq] at h
    obtain ⟨rfl, rfl, rfl⟩ := h
    refine ⟨List.suffix_refl _, fun b hb => ?_⟩
    obtain rfl := List.mem_singleton.mp hb
    exact ⟨by simp, t, by simp, rfl⟩
  | case4 _ _ _ _ _ ih => exact hpass (ih h)
  | case5 front t ts _ _ bs last rest hs ih =>
    simp only [Option.some.injEq, Prod.mk.injEq] at h
    obtain ⟨rfl, rfl, rfl⟩ := h
    obtain ⟨hsuffix, hbs⟩ := ih hs
    refine ⟨hsuffix.trans (List.suffix_cons t ts), fun b hb => ?_⟩
    rcases List.mem_cons.mp hb with rfl | hb
    · exact ⟨by simp, t, by simp, rfl⟩
    · exact (hbs b hb).mono (List.subset_cons_self front (t :: ts))
  | case6 => exact absurd h (by simp)
  | case7 _ _ _ _ _ _ ih => exact hpass (ih h)

/-- Branches lie between the front tag and the closing tag of their conditional. -/
theorem within_of_split? {depth : Nat} {front last : Tag Conditional}
    {ts rest : List (Tag Conditional)} {bs : List Branch}
    (hts : (front :: ts).Pairwise fun t u => t.stop ≤ u.start)
    (h : split? depth front ts = some (bs, last, rest)) :
    ∀ b ∈ bs, front.start ≤ b.tag.start ∧ b.stop ≤ last.start := by
  -- a tag that starts no branch may be left out
  have hskip : ∀ {front t : Tag Conditional} {ts : List (Tag Conditional)},
      (front :: t :: ts).Pairwise (fun t u => t.stop ≤ u.start) →
        (front :: ts).Pairwise fun t u => t.stop ≤ u.start := fun h =>
    h.sublist ((List.sublist_cons_self _ _).cons_cons _)
  fun_induction split? depth front ts generalizing bs last rest with
  | case1 => exact absurd h (by simp)
  | case2 _ _ _ _ _ _ ih => exact ih (hskip hts) h
  | case3 front t ts _ =>
    simp only [Option.some.injEq, Prod.mk.injEq] at h
    obtain ⟨rfl, rfl, rfl⟩ := h
    intro b hb
    obtain rfl := List.mem_singleton.mp hb
    exact ⟨Nat.le_refl _, Nat.le_refl _⟩
  | case4 _ _ _ _ _ ih => exact ih (hskip hts) h
  | case5 front t ts _ _ bs last rest hs ih =>
    simp only [Option.some.injEq, Prod.mk.injEq] at h
    obtain ⟨rfl, rfl, rfl⟩ := h
    obtain ⟨hfront, htail⟩ := List.pairwise_cons.mp hts
    have hstart := front.start_lt_stop
    have hnext := hfront t (by simp)
    intro b hb
    rcases List.mem_cons.mp hb with rfl | hb
    · refine ⟨Nat.le_refl _, ?_⟩
      have hlast : last ∈ ts := (split?_eq_some hs).1.subset (by simp)
      have := (List.pairwise_cons.mp htail).1 last hlast
      have := t.start_lt_stop
      dsimp only
      omega
    · obtain ⟨hle, hstop⟩ := ih htail hs b hb
      exact ⟨by omega, hstop⟩
  | case6 => exact absurd h (by simp)
  | case7 _ _ _ _ _ _ ih => exact ih (hskip hts) h

end Branch

namespace Choice

/-- A conditional starts at one tag of a row and ends behind one, and so do its branches. -/
structure Among (ts : List (Tag Conditional)) (choice : Choice) : Prop where
  /-- It starts at a tag. -/
  start : ∃ t ∈ ts, choice.start = t.start
  /-- It ends behind a tag. -/
  stop : ∃ t ∈ ts, choice.stop = t.stop
  /-- Its branches stand between tags. -/
  branches : ∀ b ∈ choice.branches, b.Between ts

theorem Among.mono {ts us : List (Tag Conditional)} {choice : Choice} (h : choice.Among ts)
    (hsub : ts ⊆ us) : choice.Among us := by
  obtain ⟨t, ht, hstart⟩ := h.start
  obtain ⟨u, hu, hstop⟩ := h.stop
  exact ⟨⟨t, hsub ht, hstart⟩, ⟨u, hsub hu, hstop⟩, fun b hb => (h.branches b hb).mono hsub⟩

theorem among_of_mem {ts : List (Tag Conditional)} {choice : Choice} (h : choice ∈ ofTags ts) :
    choice.Among ts := by
  fun_induction ofTags ts with
  | case1 => exact absurd h (by simp)
  | case2 t ts _ _ bs last rest hs _ ih =>
    obtain ⟨hsuffix, hbs⟩ := Branch.split?_eq_some hs
    rcases List.mem_cons.mp h with rfl | h
    · exact ⟨⟨t, by simp, rfl⟩, ⟨last, List.mem_cons_of_mem t (hsuffix.subset (by simp)), rfl⟩, hbs⟩
    · exact (ih h).mono fun u hu => List.mem_cons_of_mem t (hsuffix.subset (by simp [hu]))
  | case3 t ts _ _ _ ih => exact (ih h).mono (List.subset_cons_self t ts)
  | case4 t ts _ ih => exact (ih h).mono (List.subset_cons_self t ts)

/-- A conditional holds its branches. -/
theorem within_of_mem {ts : List (Tag Conditional)} (hts : ts.Pairwise fun t u => t.stop ≤ u.start)
    {choice : Choice} (h : choice ∈ ofTags ts) {b : Branch} (hb : b ∈ choice.branches) :
    choice.start ≤ b.tag.start ∧ b.stop ≤ choice.stop := by
  fun_induction ofTags ts with
  | case1 => exact absurd h (by simp)
  | case2 t ts _ _ bs last rest hs _ ih =>
    rcases List.mem_cons.mp h with rfl | h
    · obtain ⟨hstart, hstop⟩ := Branch.within_of_split? hts hs b hb
      exact ⟨hstart, Nat.le_trans hstop (Nat.le_of_lt last.start_lt_stop)⟩
    · obtain ⟨hsuffix, -⟩ := Branch.split?_eq_some hs
      exact ih ((List.pairwise_cons.mp hts).2.sublist
        ((List.sublist_cons_self last rest).trans hsuffix.sublist)) h
  | case3 t ts _ _ _ ih => exact ih (List.pairwise_cons.mp hts).2 h
  | case4 t ts _ ih => exact ih (List.pairwise_cons.mp hts).2 h

/-- Edits in the place of conditionals do not overlap. -/
theorem ordered_ofTags {ts : List (Tag Conditional)}
    (hts : ts.Pairwise fun t u => t.stop ≤ u.start) {pos : Nat} (hpos : ∀ t ∈ ts, pos ≤ t.start)
    (f : Choice → Text) :
    Edit.Ordered pos ((ofTags ts).map fun choice => ⟨choice.start, choice.stop, f choice⟩) := by
  fun_induction ofTags ts generalizing pos with
  | case1 => trivial
  | case2 t ts c ht bs last rest hs hlt ih =>
    obtain ⟨hsuffix, -⟩ := Branch.split?_eq_some hs
    obtain ⟨htail, hts⟩ := List.pairwise_cons.mp hts
    obtain ⟨hlast, hrest⟩ := List.pairwise_cons.mp (hts.sublist hsuffix.sublist)
    have hle := htail last (hsuffix.subset (by simp))
    have hstart := t.start_lt_stop
    have hstop := last.start_lt_stop
    refine ⟨hpos t (by simp), ?_, ih hrest hlast⟩
    dsimp only
    omega
  | case3 t ts c ht hs ih =>
    exact ih (List.pairwise_cons.mp hts).2 fun u hu => hpos u (by simp [hu])
  | case4 t ts ht ih =>
    exact ih (List.pairwise_cons.mp hts).2 fun u hu => hpos u (by simp [hu])

end Choice

end Stencil
