import Stencil.Proofs.Protection.Extract
import Stencil.Proofs.Tag.Extent

/-!
# Which regions a text has

A region stands between a tag that opens it and a tag that closes it. The regions of a text are
found from left to right. Where one starts, its opening tag is the longest that has a closing tag
behind it, it protects as little as it can, and its closing tag is the longest there is. If the
right delimiter does not start with a blank, that makes it the shortest region that starts there.
-/

namespace Stencil

/-! ## The stretches between edits -/

namespace Text

/-- The stretches of a text that edits leave alone. -/
def kept : (pos : Nat) → Text → List Edit → List Text
  | _, s, [] => [s]
  | pos, s, e :: es => s.take (e.start - pos) :: kept e.stop (s.drop (e.stop - pos)) es

/-- Stretches of a text with something else between each two of them. -/
def interlace : List Text → List Text → Text
  | w :: ws, g :: gs => w ++ (g ++ interlace ws gs)
  | ws, _ => ws.flatten

theorem spliceFrom_eq_interlace (pos : Nat) (s : Text) (es : List Edit) :
    spliceFrom pos s es = interlace (kept pos s es) (es.map Edit.replacement) := by
  induction es generalizing pos s with
  | nil => simp [spliceFrom, kept, interlace]
  | cons e es ih => rw [spliceFrom, kept, List.map_cons, interlace, ih]

theorem subset_of_mem_kept {s w : Text} {pos : Nat} {es : List Edit} (h : w ∈ kept pos s es) :
    w ⊆ s := by
  induction es generalizing pos s with
  | nil =>
    obtain rfl := List.mem_singleton.mp h
    exact fun c hc => hc
  | cons e es ih =>
    rcases List.mem_cons.mp h with rfl | h
    · exact fun c hc => List.mem_of_mem_take hc
    · exact fun c hc => List.mem_of_mem_drop (ih h hc)

/-- What is kept does not depend on what takes the place of the rest. -/
theorem kept_congr {es es' : List Edit}
    (h : es.map (fun e => (e.start, e.stop)) = es'.map fun e => (e.start, e.stop)) (pos : Nat)
    (s : Text) :
    kept pos s es = kept pos s es' := by
  induction es generalizing es' pos s with
  | nil =>
    obtain rfl : es' = [] := by simpa using h.symm
    rfl
  | cons e es ih =>
    cases es' with
    | nil => exact absurd h (by simp)
    | cons e' es' =>
      simp only [List.map_cons, List.cons.injEq, Prod.mk.injEq] at h
      obtain ⟨⟨hstart, hstop⟩, hes⟩ := h
      rw [kept, kept, hstart, hstop, ih hes]

/-- What holds of all stretches and of all that is between them holds of the whole, if it holds of
everything put together from parts. -/
theorem interlace_of {P : Text → Prop} (hnil : P []) (happend : ∀ {s t}, P s → P t → P (s ++ t))
    {ws gs : List Text} (hws : ∀ w ∈ ws, P w) (hgs : ∀ g ∈ gs, P g) : P (interlace ws gs) := by
  have hflatten : ∀ {ws : List Text}, (∀ w ∈ ws, P w) → P ws.flatten := by
    intro ws hws
    induction ws with
    | nil => exact hnil
    | cons w ws ih => exact happend (hws w (by simp)) (ih fun x hx => hws x (by simp [hx]))
  induction ws generalizing gs with
  | nil => exact hnil
  | cons w ws ih =>
    cases gs with
    | nil => exact hflatten hws
    | cons g gs =>
      have hrest : P (interlace ws gs) :=
        ih (fun x hx => hws x (by simp [hx])) fun x hx => hgs x (by simp [hx])
      exact happend (hws w (by simp)) (happend (hgs g (by simp)) hrest)

/-- A stretch that is kept lies between two edits, or between an edit and an end of the text. -/
theorem mem_kept {s w : Text} {pos : Nat} {es : List Edit} (hord : Edit.Ordered pos es)
    (h : w ∈ kept pos (s.drop pos) es) :
    ∃ a b, w = s.slice a b ∧ (a = pos ∨ ∃ e ∈ es, a = e.stop) ∧
      (b = s.length ∨ ∃ e ∈ es, b = e.start) ∧ pos ≤ a ∧ ∀ e ∈ es, b ≤ e.start ∨ e.stop ≤ a := by
  induction es generalizing pos with
  | nil =>
    obtain rfl := List.mem_singleton.mp h
    exact ⟨pos, s.length, by rw [slice, ← List.length_drop, List.take_length], .inl rfl, .inl rfl,
      Nat.le_refl _, by simp⟩
  | cons e es ih =>
    obtain ⟨hpos, hstop, hord⟩ := hord
    rcases List.mem_cons.mp h with rfl | h
    · refine ⟨pos, e.start, rfl, .inl rfl, .inr ⟨e, by simp, rfl⟩, Nat.le_refl _,
        fun x hx => .inl ?_⟩
      rcases List.mem_cons.mp hx with rfl | hx
      · exact Nat.le_refl _
      · have := hord.le_start x hx
        omega
    · rw [List.drop_drop, Nat.add_sub_cancel' (Nat.le_trans hpos hstop)] at h
      obtain ⟨a, b, hw, ha, hb, hle, hout⟩ := ih hord h
      refine ⟨a, b, hw, ?_, ?_, by omega, fun x hx => ?_⟩
      · rcases ha with rfl | ⟨x, hx, rfl⟩
        · exact .inr ⟨e, by simp, rfl⟩
        · exact .inr ⟨x, by simp [hx], rfl⟩
      · rcases hb with rfl | ⟨x, hx, rfl⟩
        · exact .inl rfl
        · exact .inr ⟨x, by simp [hx], rfl⟩
      · rcases List.mem_cons.mp hx with rfl | hx
        · exact .inr hle
        · exact hout x hx

/-- The stretches of a text in front of spans, between each two of them and behind them. -/
def around (s : Text) (spans : List (Nat × Nat)) : List Text :=
  List.zipWith s.slice (0 :: spans.map (·.2)) (spans.map (·.1) ++ [s.length])

theorem kept_eq_around {s : Text} {es : List Edit} (h : Edit.Ordered 0 es) :
    kept 0 s es = s.around (es.map fun e => (e.start, e.stop)) := by
  have hfrom : ∀ {pos : Nat}, Edit.Ordered pos es → kept pos (s.drop pos) es =
      List.zipWith s.slice (pos :: es.map Edit.stop) (es.map Edit.start ++ [s.length]) := by
    clear h
    induction es with
    | nil =>
      intro pos _
      rw [kept, List.map_nil, List.map_nil, List.nil_append, List.zipWith_cons_cons, slice,
        ← List.length_drop, List.take_length]
      rfl
    | cons e es ih =>
      rintro pos ⟨hstart, hstop, hord⟩
      rw [kept, List.drop_drop, Nat.add_sub_cancel' (Nat.le_trans hstart hstop), ih hord]
      rfl
  rw [around, List.map_map, List.map_map]
  exact hfrom h

/-- Edits change what they cover, and leave what is around them. -/
theorem splice_eq_around {s : Text} {es : List Edit} (h : Edit.Ordered 0 es) :
    s.splice es = interlace (s.around (es.map fun e => (e.start, e.stop)))
      (es.map Edit.replacement) := by
  rw [← kept_eq_around h]
  exact spliceFrom_eq_interlace 0 s es

/-- A text is what is around some spans, with what they cover in between. -/
theorem interlace_around {s : Text} {es : List Edit} (h : Edit.Ordered 0 es) :
    interlace (s.around (es.map fun e => (e.start, e.stop)))
      (es.map fun e => s.slice e.start e.stop) = s := by
  let self (e : Edit) : Edit := ⟨e.start, e.stop, s.slice e.start e.stop⟩
  have hspans : (es.map self).map (fun e => (e.start, e.stop)) =
      es.map fun e => (e.start, e.stop) := by
    rw [List.map_map]
    rfl
  have hord : Edit.Ordered 0 (es.map self) := h.congr hspans
  have hself : ∀ e ∈ es.map self, s.drop e.start = e.replacement ++ s.drop e.stop := by
    intro e he
    obtain ⟨x, hx, rfl⟩ := List.mem_map.mp he
    have hle : x.start ≤ x.stop := h.start_le_stop x hx
    rw [show s.drop x.stop = (s.drop x.start).drop (x.stop - x.start) by
      rw [List.drop_drop, Nat.add_sub_cancel' hle]]
    exact (List.take_append_drop _ _).symm
  have hsplice : s.splice (es.map self) = s := spliceFrom_self hord hself
  rw [splice_eq_around hord, hspans, List.map_map] at hsplice
  exact hsplice

/-- A character in front of all edits is kept in the first stretch. -/
theorem kept_cons {c : Char} {s : Text} {pos : Nat} {es : List Edit}
    (h : ∀ e ∈ es, pos + 1 ≤ e.start ∧ e.start ≤ e.stop) :
    ∃ w ws, kept (pos + 1) s es = w :: ws ∧ kept pos (c :: s) es = (c :: w) :: ws := by
  cases es with
  | nil => exact ⟨s, [], rfl, rfl⟩
  | cons e es =>
    obtain ⟨hstart, hstop⟩ := h e (by simp)
    refine ⟨_, _, rfl, ?_⟩
    rw [kept, show e.start - pos = (e.start - (pos + 1)) + 1 by omega,
      show e.stop - pos = (e.stop - (pos + 1)) + 1 by omega, List.take_succ_cons,
      List.drop_succ_cons]

end Text

namespace ProtectedRegions

/-- What a source says outside its protected regions. -/
def outside (d : Delimiters) (s : Text) : List Text :=
  Text.kept 0 s ((Tag.scan d.protectedRegion s).map fun t => ⟨t.start, t.stop, []⟩)

/-- The protected regions of a source. -/
def inside (d : Delimiters) (s : Text) : List Text := (Tag.scan d.protectedRegion s).map (·.content)

variable {d : Delimiters} {s t : Text} {regions : ProtectedRegions}

/-- The placeholders of regions that follow each other. -/
def placeholders (start count : Nat) : List Text := (List.range' start count).map placeholder

/-- Putting regions aside puts placeholders between what is outside of them. -/
theorem extract_fst (d : Delimiters) (regions : ProtectedRegions) (s : Text) :
    (extract d regions s).1 =
      Text.interlace (outside d s) (placeholders regions.length (inside d s).length) := by
  have hspans : ((Tag.scan d.protectedRegion s).zipIdx regions.length).map
        (fun x => (x.1.start, x.1.stop)) =
      (Tag.scan d.protectedRegion s).map fun t => (t.start, t.stop) := by
    have hfst := congrArg (List.map fun t : Tag Text => (t.start, t.stop))
      (List.zipIdx_map_fst regions.length (Tag.scan d.protectedRegion s))
    rwa [List.map_map] at hfst
  have hnumbers : ((Tag.scan d.protectedRegion s).zipIdx regions.length).map
      (fun x => placeholder x.2) = placeholders regions.length (inside d s).length := by
    have hsnd := congrArg (List.map placeholder)
      (List.zipIdx_map_snd regions.length (Tag.scan d.protectedRegion s))
    rw [List.map_map] at hsnd
    rw [placeholders, inside, List.length_map]
    exact hsnd
  have hkept : outside d s =
      Text.kept 0 s (((Tag.scan d.protectedRegion s).zipIdx regions.length).map
      fun x => ⟨x.1.start, x.1.stop, placeholder x.2⟩) := by
    refine Text.kept_congr ?_ 0 s
    rw [List.map_map, List.map_map]
    exact hspans.symm
  rw [hkept, ← hnumbers]
  refine (Text.spliceFrom_eq_interlace 0 s _).trans (congrArg (Text.interlace _) ?_)
  rw [List.map_map]
  rfl

theorem extract_snd (d : Delimiters) (regions : ProtectedRegions) (s : Text) :
    (extract d regions s).2 = regions ++ inside d s := rfl

/-! ## Spans -/

/-- A tag that opens a region. -/
def Opening (d : Delimiters) (u : Text) : Prop :=
  ∃ g g', Blank g ∧ Blank g' ∧ u = d.left ++ (g ++ ("noparse".toList ++ (g' ++ d.right)))

/-- A tag that closes a region. -/
def Closing (d : Delimiters) (u : Text) : Prop :=
  ∃ g g' g'', Blank g ∧ Blank g' ∧ Blank g'' ∧
    u = d.left ++ (g ++ ('/' :: (g' ++ ("noparse".toList ++ (g'' ++ d.right)))))

/-- A region and its tags. -/
structure Span where
  /-- The tag that opens it. -/
  opening : Text
  /-- What it protects. -/
  content : Text
  /-- The tag that closes it. -/
  closing : Text

/-- All of a region. -/
def Span.text (x : Span) : Text := x.opening ++ (x.content ++ x.closing)

/-- A region stands at the front of a text. -/
structure Span.Stands (d : Delimiters) (x : Span) (s : Text) : Prop where
  /-- It is opened. -/
  opening : Opening d x.opening
  /-- It is closed. -/
  closing : Closing d x.closing
  /-- It is there. -/
  front : x.text <+: s

/-- Of the regions that stand at the front of a text, the one that is found: the longest opening tag
that has a closing tag behind it, the shortest content, and the longest closing tag. -/
structure Span.Chosen (d : Delimiters) (x : Span) (s : Text) : Prop extends x.Stands d s where
  /-- No other has a longer opening tag. -/
  longest : ∀ y : Span, y.Stands d s → y.opening.length ≤ x.opening.length
  /-- No other protects less behind that tag. -/
  shortest : ∀ y : Span, y.Stands d s → y.opening = x.opening → x.content.length ≤ y.content.length
  /-- No other has a longer closing tag behind that. -/
  whole : ∀ y : Span, y.Stands d s → y.opening = x.opening → y.content = x.content →
    y.closing.length ≤ x.closing.length

end ProtectedRegions

/-! ## What the grammar of regions reads -/

/-- Where the blanks at the front of a text end is known. -/
theorem blank_unique {g g' t t' : Text} (hg : Blank g) (hg' : Blank g')
    (ht : t.head?.any isBlank = false) (ht' : t'.head?.any isBlank = false)
    (h : g ++ t = g' ++ t') :
    g = g' ∧ t = t' := by
  have htail : t = t' := by
    rw [← Delimiters.dropWhile_blank hg ht, ← Delimiters.dropWhile_blank hg' ht', h]
  exact ⟨List.append_cancel_right (htail ▸ h), htail⟩

namespace Recognizer

/-- A recognizer reads the longest text of a language that stands in front, if there is one. -/
structure ReadsLongest (L : Text → Prop) (r : Recognizer Unit) : Prop where
  /-- What it reads is in the language, and longer than all others. -/
  some : ∀ {s u a}, r s = some (u, a) → L u ∧ u <+: s ∧ ∀ v, L v → v <+: s → v.length ≤ u.length
  /-- Where it reads nothing, there is none. -/
  none : ∀ {s}, r s = none → ∀ v, L v → ¬ v <+: s

variable {L L' : Text → Prop} {r : Recognizer Unit}

theorem ReadsLongest.congr (h : ReadsLongest L r) (hL : ∀ u, L u ↔ L' u) : ReadsLongest L' r := by
  obtain rfl : L = L' := funext fun u => propext (hL u)
  exact h

theorem readsLongest_done : ReadsLongest (· = []) (done ()) where
  some h := by
    obtain ⟨rfl, -⟩ := Prod.mk.inj (Option.some.inj h)
    exact ⟨rfl, List.nil_prefix, fun v hv _ => Nat.le_of_eq (congrArg List.length hv)⟩
  none h := absurd h (by simp [done])

theorem ReadsLongest.literal (h : ReadsLongest L r) (w : Text) :
    ReadsLongest (fun u => ∃ v, L v ∧ u = w ++ v) (literal w r) where
  some hs := by
    obtain ⟨t, l, rfl, rfl, hr⟩ := literal_eq_some.mp hs
    obtain ⟨hl, hfront, hlongest⟩ := h.some hr
    refine ⟨⟨l, hl, rfl⟩, (List.prefix_append_right_inj w).mpr hfront, ?_⟩
    rintro _ ⟨v, hv, rfl⟩ hprefix
    have := hlongest v hv ((List.prefix_append_right_inj w).mp hprefix)
    simpa using this
  none := by
    rintro s hs _ ⟨v, hv, rfl⟩ ⟨t, rfl⟩
    rw [List.append_assoc, literal_append, Option.map_eq_none_iff] at hs
    exact h.none hs v hv (List.prefix_append v t)

/-- Blanks in front of texts none of which is longer behind fewer of them. -/
theorem ReadsLongest.blanks (h : ReadsLongest L r)
    (hL : ∀ {g g' v v' : Text} {t t'}, Blank g → Blank g' → L v → L v' →
    g ++ (v ++ t) = g' ++ (v' ++ t') → g.length < g'.length → (g ++ v).length ≤ (g' ++ v').length) :
    ReadsLongest (fun u => ∃ g v, Blank g ∧ L v ∧ u = g ++ v) (blanks r) where
  some hs := by
    obtain ⟨g, t, l, hg, rfl, rfl, hr, hlonger⟩ := blanks_eq_some hs
    obtain ⟨hl, ⟨rest, rfl⟩, hlongest⟩ := h.some hr
    refine ⟨⟨g, l, hg, hl, rfl⟩, (List.prefix_append_right_inj g).mpr (List.prefix_append l rest),
      ?_⟩
    rintro _ ⟨g', v, hg', hv, rfl⟩ ⟨rest', heq⟩
    rw [List.append_assoc] at heq
    rcases Nat.lt_trichotomy g.length g'.length with hlt | hlength | hlt
    · exact absurd (List.prefix_append v rest')
        (h.none (hlonger g' (v ++ rest') heq.symm hg' hlt) v hv)
    · obtain ⟨rfl, htail⟩ := List.append_inj heq hlength.symm
      have := hlongest v hv ⟨rest', htail⟩
      simpa using this
    · exact hL hg' hg hv hl heq hlt
  none := by
    rintro s hs _ ⟨g, v, hg, hv, rfl⟩ ⟨t, rfl⟩
    rw [List.append_assoc] at hs
    exact h.none (blanks_eq_none.mp hs g (v ++ t) rfl hg) v hv (List.prefix_append v t)

/-- Blanks in front of texts that start with something else. -/
theorem ReadsLongest.blanks_of_head (h : ReadsLongest L r)
    (hL : ∀ v, L v → v ≠ [] ∧ v.head?.any isBlank = false) :
    ReadsLongest (fun u => ∃ g v, Blank g ∧ L v ∧ u = g ++ v) (Recognizer.blanks r) := by
  refine h.blanks fun {g g' v v' t t'} hg hg' hv hv' heq hlt => ?_
  have hhead : ∀ {v t : Text}, L v → (v ++ t).head?.any isBlank = false := by
    intro v t hv
    obtain ⟨hne, hblank⟩ := hL v hv
    obtain ⟨c, v, rfl⟩ := List.exists_cons_of_ne_nil hne
    simpa using hblank
  exact absurd (blank_unique hg hg' (hhead hv) (hhead hv') heq).1
    fun hsame => by simp [hsame] at hlt

end Recognizer

namespace ProtectedRegions

open Recognizer

variable {d : Delimiters} {s : Text} {x y : Span}

theorem readsLongest_closed (d : Delimiters) :
    ReadsLongest (fun u => ∃ g, Blank g ∧ u = g ++ d.right) d.closed := by
  refine ((readsLongest_done.literal d.right).blanks ?_).congr fun u => by simp
  rintro g g' _ _ t t' - - ⟨v, rfl, rfl⟩ ⟨v', rfl, rfl⟩ - hlt
  simpa using Nat.le_of_lt hlt

theorem readsLongest_regionClosing (d : Delimiters) : ReadsLongest (Closing d) d.regionClosing := by
  have hword := ((readsLongest_closed d).literal "noparse".toList).blanks_of_head (by
    rintro _ ⟨v, -, rfl⟩
    exact ⟨by simp, by rfl⟩)
  have hslash := (hword.literal ['/']).blanks_of_head (by
    rintro _ ⟨v, -, rfl⟩
    exact ⟨by simp, by rfl⟩)
  refine (hslash.literal d.left).congr fun u => ⟨?_, ?_⟩
  · rintro ⟨_, ⟨g, _, hg, ⟨_, ⟨g', _, hg', ⟨_, ⟨g'', hg'', rfl⟩, rfl⟩, rfl⟩, rfl⟩, rfl⟩, rfl⟩
    exact ⟨g, g', g'', hg, hg', hg'', rfl⟩
  · rintro ⟨g, g', g'', hg, hg', hg'', rfl⟩
    exact ⟨_, ⟨g, _, hg, ⟨_, ⟨g', _, hg', ⟨_, ⟨g'', hg'', rfl⟩, rfl⟩, rfl⟩, rfl⟩, rfl⟩, rfl⟩

theorem head_right (h : d.right.head?.any isBlank = false) (t : Text) :
    (d.right ++ t).head?.any isBlank = false := by
  obtain ⟨c, right, hc⟩ := List.exists_cons_of_ne_nil d.right_ne_nil
  rw [hc] at h ⊢
  simpa using h

/-- A region that stands at the front of a text, written out. -/
theorem Span.Stands.exists_gaps (h : y.Stands d s) : ∃ g g' rest, Blank g ∧ Blank g' ∧
    y.opening = d.left ++ (g ++ ("noparse".toList ++ (g' ++ d.right))) ∧
    s = d.left ++
      (g ++ ("noparse".toList ++ (g' ++ (d.right ++ (y.content ++ (y.closing ++ rest)))))) := by
  obtain ⟨g, g', hg, hg', hopening⟩ := h.opening
  obtain ⟨rest, hrest⟩ := h.front
  refine ⟨g, g', rest, hg, hg', hopening, ?_⟩
  rw [← hrest, Span.text, hopening]
  simp only [List.append_assoc]

/-- Where a closing tag stands somewhere behind the right delimiter, the rest of a region is
read. -/
theorem rest_ne_none {content closing rest : Text} (h : Closing d closing) :
    literal d.right (fewest (fun _ => true) d.regionClosing)
      (d.right ++ (content ++ (closing ++ rest))) ≠ none := by
  rw [literal_append, Ne, Option.map_eq_none_iff]
  intro hnone
  exact (readsLongest_regionClosing d).none
    (fewest_eq_none.mp hnone content _ rfl (by simp)) closing h
    (List.prefix_append closing rest)

/-- Where the grammar reads nothing, no region stands. -/
theorem not_stands_of_protectedRegion (h : d.protectedRegion s = none) : ¬ y.Stands d s := by
  intro hy
  obtain ⟨g, g', rest, hg, hg', -, rfl⟩ := hy.exists_gaps
  rw [Delimiters.protectedRegion_eq, map_eq_none, Delimiters.opened, literal_append,
    Option.map_eq_none_iff] at h
  have hword := blanks_eq_none.mp h g _ rfl hg
  rw [literal_append, Option.map_eq_none_iff] at hword
  exact rest_ne_none hy.closing (blanks_eq_none.mp hword g' _ rfl hg')

/-- The region that the grammar reads is the one that is chosen. -/
theorem chosen_of_protectedRegion {lexeme content : Text}
    (h : d.protectedRegion s = some (lexeme, content)) :
    ∃ x : Span, lexeme = x.text ∧ content = x.content ∧ x.Chosen d s := by
  rw [Delimiters.protectedRegion_eq] at h
  obtain ⟨⟨_, u⟩, hregion, rfl⟩ := map_eq_some.mp h
  obtain ⟨t₁, l₁, hs, hlexeme, hfirst⟩ := literal_eq_some.mp hregion
  obtain ⟨g, t₂, l₂, hg, rfl, rfl, hword, -⟩ := blanks_eq_some hfirst
  obtain ⟨t₃, l₃, rfl, rfl, hsecond⟩ := literal_eq_some.mp hword
  obtain ⟨g', t₄, l₄, hg', rfl, rfl, hright, hlonger⟩ := blanks_eq_some hsecond
  obtain ⟨t₅, l₅, rfl, rfl, hfew⟩ := literal_eq_some.mp hright
  obtain ⟨t₆, closing, rfl, rfl, -, hclosing, hshorter⟩ := fewest_eq_some hfew
  obtain ⟨hl, ⟨rest, rfl⟩, hlongest⟩ := (readsLongest_regionClosing d).some hclosing
  rename_i content
  let x : Span := ⟨d.left ++ (g ++ ("noparse".toList ++ (g' ++ d.right))), content, closing⟩
  have htext : s = x.text ++ rest := by simp [x, hs, Span.text]
  have hbehind : ∀ y : Span, y.Stands d s → y.opening = x.opening → ∃ r,
      content ++ (closing ++ rest) = y.content ++ (y.closing ++ r) := by
    intro y hy hopening
    obtain ⟨r, hr⟩ := hy.front
    rw [htext, Span.text, Span.text, hopening] at hr
    simp only [List.append_assoc] at hr
    exact ⟨r, (List.append_cancel_left hr).symm⟩
  refine ⟨x, by simp [x, hlexeme, Span.text], rfl,
    ⟨⟨g, g', hg, hg', rfl⟩, hl, rest, htext.symm⟩, fun y hy => ?_, fun y hy hopening => ?_,
    fun y hy hopening hcontent => ?_⟩
  · -- a longer opening tag has a longer gap, behind which nothing is read
    obtain ⟨h₁, h₂, r, hh₁, hh₂, hopening, hy'⟩ := hy.exists_gaps
    obtain ⟨rfl, htail⟩ := blank_unique hg hh₁ (by rfl) (by rfl)
      (List.append_cancel_left (hs.symm.trans hy'))
    have hgap := List.append_cancel_left htail
    have hle : h₂.length ≤ g'.length := Nat.le_of_not_lt fun hlt =>
      rest_ne_none hy.closing (hlonger h₂ _ hgap hh₂ hlt)
    simp only [hopening, x, List.length_append]
    omega
  · obtain ⟨r, hr⟩ := hbehind y hy hopening
    exact Nat.le_of_not_lt fun hlt => (readsLongest_regionClosing d).none
      (hshorter y.content _ hr hlt) _ hy.closing (List.prefix_append _ _)
  · obtain ⟨r, hr⟩ := hbehind y hy hopening
    rw [hcontent] at hr
    exact hlongest _ hy.closing ⟨r, (List.append_cancel_left hr).symm⟩

/-! ## Layouts -/

/-- What stands outside the regions of a text, and its regions: none starts further to the left, the
one that starts there is chosen, and the next is looked for behind it. -/
inductive Layout (d : Delimiters) : Text → List Text → List Span → Prop where
  /-- There are none. -/
  | bare {s : Text} (none : ∀ p (y : Span), ¬ y.Stands d (s.drop p)) : Layout d s [s] []
  /-- The first of them, and those behind it. -/
  | region {front s : Text} {x : Span} {ws : List Text} {xs : List Span}
      (leftmost : ∀ p < front.length, ∀ y : Span, ¬ y.Stands d ((front ++ (x.text ++ s)).drop p))
      (chosen : x.Chosen d (x.text ++ s)) (rest : Layout d s ws xs) :
      Layout d (front ++ (x.text ++ s)) (front :: ws) (x :: xs)

/-- A layout is one of the text: the regions stand between what is outside of them. -/
theorem Layout.interlace_text {ws : List Text} {xs : List Span} (h : Layout d s ws xs) :
    Text.interlace ws (xs.map Span.text) = s := by
  induction h with
  | bare => simp [Text.interlace]
  | region _ _ _ ih => rw [List.map_cons, Text.interlace, ih]

theorem Layout.cons {c : Char} {w : Text} {ws : List Text} {xs : List Span}
    (hnone : ∀ y : Span, ¬ y.Stands d (c :: s)) (h : Layout d s (w :: ws) xs) :
    Layout d (c :: s) ((c :: w) :: ws) xs := by
  generalize hws : w :: ws = us at h
  cases h with
  | bare hbare =>
    obtain ⟨rfl, rfl⟩ := List.cons.inj hws
    refine .bare fun p => ?_
    cases p with
    | zero => exact hnone
    | succ p => exact hbare p
  | region hleft hchosen hrest =>
    obtain ⟨rfl, rfl⟩ := List.cons.inj hws
    rw [← List.cons_append] at hnone ⊢
    refine .region (fun p hp => ?_) hchosen hrest
    cases p with
    | zero => exact hnone
    | succ p => exact hleft p (by simpa using hp)

theorem not_stands_nil : ¬ y.Stands d [] := by
  intro h
  obtain ⟨g, g', rest, -, -, -, hs⟩ := h.exists_gaps
  exact d.left_ne_nil (List.append_eq_nil_iff.mp hs.symm).1

/-- Where a scan takes no region, none stands. -/
theorem not_stands_of_pass (h : ∀ c lexeme a, d.protectedRegion s ≠ some (c :: lexeme, a)) :
    ¬ y.Stands d s := by
  cases hread : d.protectedRegion s with
  | none => exact not_stands_of_protectedRegion hread
  | some x =>
    obtain ⟨lexeme, content⟩ := x
    cases lexeme with
    | nil =>
      -- a region has a delimiter at least
      obtain ⟨x, htext, -, hchosen⟩ := chosen_of_protectedRegion hread
      obtain ⟨g, g', hg, hg', hopening⟩ := hchosen.opening
      rw [Span.text, hopening, List.append_assoc] at htext
      exact absurd (List.append_eq_nil_iff.mp htext.symm).1 d.left_ne_nil
    | cons c lexeme => exact absurd hread (h c lexeme content)

/-- A scan for regions finds the layout of the text. -/
theorem layout_scanFrom (d : Delimiters) (pos : Nat) (s : Text) :
    ∃ xs : List Span, (Tag.scanFrom d.protectedRegion pos 0 s).map (·.content) =
      xs.map Span.content ∧ Layout d s (Text.kept pos s
        ((Tag.scanFrom d.protectedRegion pos 0 s).map fun t => ⟨t.start, t.stop, []⟩)) xs := by
  -- the scan goes on behind the region it has found, so the induction is on the length
  induction hn : s.length using Nat.strongRecOn generalizing s pos with
  | ind n ih =>
    cases s with
    | nil => exact ⟨[], rfl, .bare fun p => by simpa using fun y => not_stands_nil⟩
    | cons c s =>
      rw [Tag.scanFrom]
      split
      · rename_i x lexeme content hread
        obtain ⟨y, htext, rfl, hchosen⟩ := chosen_of_protectedRegion hread
        obtain ⟨rest, hrest⟩ := hchosen.front
        rw [← htext, List.cons_append] at hrest
        obtain ⟨rfl, rfl⟩ := List.cons.inj hrest
        rw [Outline.scanFrom_skip]
        obtain ⟨xs, hcontents, hlayout⟩ := ih rest.length (by simp at hn; omega)
          (pos + 1 + lexeme.length) rest rfl
        refine ⟨y :: xs, by rw [List.map_cons, hcontents, List.map_cons], ?_⟩
        have hstop : pos + (x :: lexeme).length = pos + 1 + lexeme.length := by simp; omega
        have hdrop : (x :: (lexeme ++ rest)).drop (pos + 1 + lexeme.length - pos) = rest := by
          rw [show pos + 1 + lexeme.length - pos = lexeme.length + 1 by omega, List.drop_succ_cons,
            List.drop_left]
        have hs : x :: (lexeme ++ rest) = y.text ++ rest := by rw [← htext, List.cons_append]
        rw [List.map_cons, Text.kept, Tag.stop, hstop, hdrop, Nat.sub_self, List.take_zero]
        rw [hs] at hchosen ⊢
        have hfirst : Layout d ([] ++ (y.text ++ rest)) _ _ :=
          .region (fun p hp => absurd hp (Nat.not_lt_zero p)) hchosen hlayout
        exact hfirst
      · rename_i hread
        obtain ⟨xs, hcontents, hlayout⟩ := ih s.length (by simp at hn; omega) (pos + 1) s rfl
        refine ⟨xs, hcontents, ?_⟩
        have hedits : ∀ e ∈ (Tag.scanFrom d.protectedRegion (pos + 1) 0 s).map
            (fun t => (⟨t.start, t.stop, []⟩ : Edit)), pos + 1 ≤ e.start ∧ e.start ≤ e.stop := by
          intro e he
          obtain ⟨t, ht, rfl⟩ := List.mem_map.mp he
          exact ⟨by simpa using Tag.le_start_of_mem_scanFrom ht, Nat.le_of_lt t.start_lt_stop⟩
        obtain ⟨w, ws, hkept, hcons⟩ := Text.kept_cons hedits
        rw [hkept] at hlayout
        rw [hcons]
        exact hlayout.cons fun y => not_stands_of_pass hread

/-- The regions that a text has are those of its layout. -/
theorem exists_layout (d : Delimiters) (s : Text) :
    ∃ xs : List Span, inside d s = xs.map Span.content ∧ Layout d s (outside d s) xs :=
  layout_scanFrom d 0 s

/-! ## Shortest regions -/

theorem not_mem_blank {g : Text} (hg : Blank g) :
    'n' ∉ g := fun hmem => absurd (hg _ hmem) (by decide)

/-- In front of its word, a closing tag has the word at most in its delimiter. -/
theorem front_of_word {g g' F t t' : Text} (hg : Blank g) (hg' : Blank g')
    (hF : d.left.length ≤ F.length)
    (h : (d.left ++ (g ++ '/' :: g')) ++ t = F ++ ("noparse".toList ++ t')) :
    ∃ m, F = (d.left ++ (g ++ '/' :: g')) ++ m ∧ t = m ++ ("noparse".toList ++ t') := by
  rcases List.append_eq_append_iff.mp h with hbehind | ⟨m, hfront, hback⟩
  · exact hbehind
  cases m with
  | nil => exact ⟨[], by simpa using hfront.symm, by simpa using hback.symm⟩
  | cons c m =>
    -- the word would start in a gap of the first tag
    obtain ⟨rfl, -⟩ : 'n' = c ∧ _ := List.cons.inj hback
    have hsuffix : 'n' :: m <:+ g ++ '/' :: g' := by
      refine List.suffix_of_suffix_length_le ⟨F, hfront.symm⟩ (List.suffix_append d.left _) ?_
      have := congrArg List.length hfront
      simp only [List.length_append, List.length_cons] at this ⊢
      omega
    have hmem : 'n' ∈ g ++ '/' :: g' := hsuffix.subset (by simp)
    simp [not_mem_blank hg, not_mem_blank hg'] at hmem

/-- Behind its first letter, the word of a closing tag is not found again before its last gap
ends. -/
theorem behind_word {g'' m t t' : Text} {c : Char} (hg'' : Blank g'')
    (h : "noparse".toList ++ (g'' ++ t) = c :: m ++ ("noparse".toList ++ t')) :
    "noparse".toList.length + g''.length ≤ (c :: m).length := by
  refine Nat.le_of_not_lt fun hlt => ?_
  rw [← List.append_assoc] at h
  -- the second word would start in the first or in the gap, and neither has a second first letter
  have hprefix : c :: m <+: "noparse".toList ++ g'' := by
    refine List.prefix_of_prefix_length_le (h ▸ List.prefix_append _ _) (List.prefix_append _ t) ?_
    rw [List.length_append]
    omega
  obtain ⟨m', hm'⟩ := hprefix
  rw [← hm', List.append_assoc] at h
  have hword := List.append_cancel_left h
  cases m' with
  | nil =>
    rw [List.append_nil] at hm'
    rw [hm', List.length_append] at hlt
    exact Nat.lt_irrefl _ hlt
  | cons x m' =>
    obtain ⟨rfl, -⟩ : x = 'n' ∧ _ := List.cons.inj hword
    have hrest : m ++ 'n' :: m' = "oparse".toList ++ g'' := (List.cons.inj hm').2
    have hmem : 'n' ∈ "oparse".toList ++ g'' := hrest ▸ by simp
    simp [not_mem_blank hg''] at hmem

/-- A closing tag does not end behind one that starts further to the right, if the right delimiter
does not start with a blank. -/
theorem Closing.length_le {u v w r r' : Text} (hright : d.right.head?.any isBlank = false)
    (hu : Closing d u) (hv : Closing d v) (h : u ++ r = w ++ (v ++ r')) :
    u.length ≤ w.length + v.length := by
  obtain ⟨g, g', g'', hg, hg', hg'', rfl⟩ := hu
  obtain ⟨k, k', k'', hk, hk', hk'', rfl⟩ := hv
  have hfronts : (d.left ++ (g ++ '/' :: g')) ++ ("noparse".toList ++ (g'' ++ (d.right ++ r))) =
      (w ++ (d.left ++ (k ++ '/' :: k'))) ++ ("noparse".toList ++ (k'' ++ (d.right ++ r'))) := by
    simpa using h
  obtain ⟨m, hfront, hback⟩ := front_of_word hg hg' (by simp; omega) hfronts
  have hlength := congrArg List.length hfront
  simp only [List.length_append, List.length_cons] at hlength ⊢
  cases m with
  | nil =>
    have hgap := (blank_unique hg'' hk'' (head_right hright r) (head_right hright r')
      (List.append_cancel_left hback)).1
    rw [hgap]
    simp only [List.length_nil] at hlength
    omega
  | cons c m =>
    have := behind_word hg'' hback
    simp only [List.length_cons] at this hlength
    omega

/-- What is chosen is the shortest of all, if the right delimiter does not start with a blank. -/
theorem Span.Chosen.length_le (hright : d.right.head?.any isBlank = false) (hx : x.Chosen d s)
    (hy : y.Stands d s) : x.text.length ≤ y.text.length := by
  obtain ⟨g, g', rest, hg, hg', hopening, hs⟩ := hx.exists_gaps
  obtain ⟨k, k', rest', hk, hk', hopening', hs'⟩ := hy.exists_gaps
  -- both have the same opening tag, so only what is behind it counts
  obtain ⟨rfl, hword⟩ :=
    blank_unique hg hk (by rfl) (by rfl) (List.append_cancel_left (hs.symm.trans hs'))
  obtain ⟨rfl, hbehind⟩ := blank_unique hg' hk' (head_right hright _) (head_right hright _)
    (List.append_cancel_left hword)
  have hsame : y.opening = x.opening := hopening'.trans hopening.symm
  have hbehind := List.append_cancel_left hbehind
  have hle := hx.shortest y hy hsame
  obtain ⟨w, hw⟩ : x.content <+: y.content :=
    List.prefix_of_prefix_length_le ⟨_, hbehind⟩ (List.prefix_append _ _) hle
  rw [← hw, List.append_assoc] at hbehind
  have hclosing := Closing.length_le hright hx.closing hy.closing (List.append_cancel_left hbehind)
  simp only [Span.text, hsame, ← hw, List.length_append]
  omega

end ProtectedRegions

end Stencil
