import Stencil.Proofs.Alphabet.Render

/-!
# Regions are put back where their placeholders stand

The regions of any number of texts are put aside one after the other. Whatever is put together from
what is left of the texts, cut wherever no placeholder is cut, and from other texts: each
placeholder in it is replaced by its own region, all at once, and nothing else changes.
-/

namespace Stencil

open Alphabet

namespace ProtectedRegions

variable {d : Delimiters} {regions : ProtectedRegions} {s t u : Text} {outs texts : List Text}

/-! ## Any number of texts -/

/-- Puts the regions of texts aside, one text after the other. -/
def extractAll (d : Delimiters) : ProtectedRegions → List Text → List Text × ProtectedRegions
  | regions, [] => ([], regions)
  | regions, s :: texts =>
    ((extract d regions s).1 :: (extractAll d (extract d regions s).2 texts).1,
      (extractAll d (extract d regions s).2 texts).2)

/-- A position that is not inside a placeholder. -/
def Beside (s : Text) (p : Nat) : Prop :=
  ∀ n i, Occurs n s i → ¬ (i < p ∧ p < i + (placeholder n).length)

/-- What is put together from stretches of texts that are cut beside placeholders, in any order and
any number of times, and from other texts. -/
inductive Assembled (outs : List Text) : Text → Prop where
  /-- Nothing. -/
  | nil : Assembled outs []
  /-- A stretch of one of the texts. -/
  | piece {out s : Text} {p q : Nat} : out ∈ outs → Beside out p → Beside out q → Assembled outs s →
    Assembled outs (out.slice p q ++ s)
  /-- Another text. -/
  | other {w s : Text} : w.Ordinary → Assembled outs s → Assembled outs (w ++ s)

/-- All placeholders of regions are replaced by their regions, and nothing else is changed. -/
inductive PutBack (regions : ProtectedRegions) : Text → Text → Prop where
  /-- At the end. -/
  | nil : PutBack regions [] []
  /-- A placeholder. -/
  | hit {n : Nat} {content s t : Text} : regions[n]? = some content → PutBack regions s t →
    PutBack regions (placeholder n ++ s) (content ++ t)
  /-- A character where there is none. -/
  | skip {c : Char} {s t : Text} : (∀ n < regions.length, ¬ placeholder n <+: c :: s) →
    PutBack regions s t → PutBack regions (c :: s) (c :: t)

/-- There is one way to put regions back. -/
theorem PutBack.unique (h : PutBack regions s t) (h' : PutBack regions s u) : t = u := by
  have hlt : ∀ {n : Nat} {content : Text}, regions[n]? = some content → n < regions.length :=
    fun hn => (List.getElem?_eq_some_iff.mp hn).1
  -- the front decides on the step: no placeholder begins another, and none may be skipped
  induction h generalizing u with
  | nil =>
    generalize hs : ([] : Text) = s at h'
    cases h' with
    | nil => rfl
    | hit => exact absurd hs (by simp [placeholder_eq])
    | skip => exact absurd hs (by simp)
  | @hit n content s t hn _ ih =>
    generalize hs : placeholder n ++ s = s' at h'
    cases h' with
    | nil => exact absurd hs (by simp [placeholder_eq])
    | @hit m content' s' t' hm ht' =>
      obtain rfl : n = m := placeholder_unique ⟨s, hs⟩
      obtain rfl := List.append_cancel_left hs
      rw [ih ht', Option.some.inj (hn.symm.trans hm)]
    | skip hnone => exact absurd ⟨s, hs⟩ (hnone n (hlt hn))
  | @skip c s t hnone _ ih =>
    generalize hs : c :: s = s' at h'
    cases h' with
    | nil => exact absurd hs (by simp)
    | hit hm => exact absurd ⟨_, hs.symm⟩ (hnone _ (hlt hm))
    | skip _ ht' =>
      obtain ⟨rfl, rfl⟩ := List.cons.inj hs
      rw [ih ht']

/-- Nothing is put back into a text without openers. -/
theorem PutBack.behind {w : Text} (hw : opener ∉ w) (h : PutBack regions s t) :
    PutBack regions (w ++ s) (w ++ t) := by
  induction w with
  | nil => exact h
  | cons c w ih =>
    refine .skip (fun n _ hn => hw ?_) (ih fun hmem => hw (by simp [hmem]))
    exact (List.cons_prefix_cons.mp (placeholder_eq n ▸ hn)).1 ▸ List.mem_cons_self

theorem PutBack.of_not_mem (hs : opener ∉ s) : PutBack regions s s := by
  have h : PutBack regions (s ++ []) (s ++ []) := .behind hs .nil
  rwa [List.append_nil] at h

/-- Restoring puts the regions back, all at once, where only placeholders of theirs have openers. -/
theorem putBack_restore {A : Alphabet} (h : A.Spelled s) (hopener : ¬ A.glyph opener)
    (hshelf : ∀ n, A.shelf n → n < regions.length)
    (hregions : ∀ content ∈ regions, opener ∉ content) :
    PutBack regions s (regions.restore s) := by
  obtain ⟨as, rfl, hglyphs, hshelves⟩ := h.exists_atoms
  have hw : ∀ c, .glyph c ∈ as → opener ∉ [c] := fun c hc hmem =>
    hopener (List.mem_singleton.mp hmem ▸ hglyphs c hc)
  rw [restore_shown hw hregions]
  clear h
  induction as with
  | nil => exact .nil
  | cons a as ih =>
    have hrest := ih (fun c hc => hglyphs c (by simp [hc])) (fun n hn => hshelves n (by simp [hn]))
      fun c hc => hw c (by simp [hc])
    cases a with
    | glyph c => exact hrest.behind (hw c (by simp))
    | shelved n =>
      have hn := List.getElem?_eq_getElem (hshelf n (hshelves n (by simp)))
      rw [shown_cons_shelved, shown_cons_shelved, hn]
      exact .hit hn hrest

/-! ## Pieces -/

/-- A text may be cut beside placeholders. -/
theorem seam_of_beside {A : Alphabet} (h : A.Spelled s) {p : Nat} (hp : Beside s p) :
    A.Seam s p := by
  induction h generalizing p with
  | nil => exact ⟨by simpa using Spelled.nil, by simpa using Spelled.nil⟩
  | @glyph c s hc hs ih =>
    cases p with
    | zero => exact seam_zero (.glyph hc hs)
    | succ p =>
      have hbeside : Beside s p := by
        intro n i hi hin
        have hocc : Occurs n (c :: s) (1 + i) := (occurs_behind (t := [c])).mpr hi
        exact hp n (1 + i) hocc ⟨by omega, by omega⟩
      obtain ⟨htake, hdrop⟩ := ih hbeside
      exact ⟨.glyph hc htake, hdrop⟩
  | @shelved n s hn hs ih =>
    by_cases hlt : p < (placeholder n).length
    · cases p with
      | zero => exact seam_zero (.shelved hn hs)
      | succ p => exact absurd ⟨Nat.succ_pos p, by omega⟩ (hp n 0 (List.prefix_append _ s))
    · obtain ⟨q, rfl⟩ := Nat.exists_eq_add_of_le (Nat.le_of_not_lt hlt)
      have hbeside : Beside s q := fun m i hi hin =>
        hp m _ (occurs_behind.mpr hi) ⟨by omega, by omega⟩
      obtain ⟨htake, hdrop⟩ := ih hbeside
      unfold Seam
      rw [List.take_length_add_append, List.drop_length_add_append]
      exact ⟨.shelved hn htake, hdrop⟩

theorem beside_length (s : Text) : Beside s s.length := by
  intro n i hi hin
  have hle := hi.length_le
  rw [List.length_drop] at hle
  omega

/-- Whole texts may be put together. -/
theorem Assembled.flatten {outs' : List Text} (h : outs' ⊆ outs) :
    Assembled outs outs'.flatten := by
  induction outs' with
  | nil => exact .nil
  | cons out outs' ih =>
    obtain ⟨hout, hrest⟩ := List.cons_subset.mp h
    have hwhole : out.slice 0 out.length = out := List.take_length
    have hpiece := Assembled.piece hout (fun n i _ hi => Nat.not_lt_zero i hi.1) (beside_length out)
      (ih hrest)
    rwa [hwhole] at hpiece

/-- What is assembled from spelled texts is spelled. -/
theorem Assembled.spelled {P : Nat → Prop} (h : Assembled outs s)
    (houts : ∀ out ∈ outs, (ordinary.only P).Spelled out) : (ordinary.only P).Spelled s := by
  induction h with
  | nil => exact .nil
  | piece hout hp hq _ ih =>
    have hspelled := houts _ hout
    exact ((seam_of_beside hspelled hp).slice (seam_of_beside hspelled hq)).append ih
  | other hw _ ih => exact (Bare.spelled (A := ordinary.only P) (bare_ordinary.mpr hw)).append ih

/-! ## The table -/

theorem extractAll_snd (d : Delimiters) (regions : ProtectedRegions) (texts : List Text) :
    (extractAll d regions texts).2 = regions ++ texts.flatMap (inside d) := by
  induction texts generalizing regions with
  | nil => rw [extractAll, List.flatMap_nil, List.append_nil]
  | cons s texts ih =>
    rw [extractAll, ih, extract_snd, List.flatMap_cons, List.append_assoc]

/-- What is left of texts is spelled with the placeholders of their regions. -/
theorem spelled_of_mem_extractAll (htexts : ∀ s ∈ texts, s.Ordinary) :
    ∀ out ∈ (extractAll d regions texts).1,
      (ordinary.only fun n => n < (extractAll d regions texts).2.length).Spelled out := by
  induction texts generalizing regions with
  | nil => exact fun out hout => absurd hout (by simp [extractAll])
  | cons s texts ih =>
    obtain ⟨hs, htexts⟩ := List.forall_mem_cons.mp htexts
    refine List.forall_mem_cons.mpr ⟨?_, ih htexts⟩
    have hbare := bare_ordinary.mpr hs
    refine spelled_extract (bare_outside hbare) fun n _ hn => ?_
    have hlt : n < (extractAll d regions (s :: texts)).2.length := by
      rw [extractAll, extractAll_snd, List.length_append]
      omega
    rw [← List.append_nil (placeholder n)]
    exact .shelved ⟨trivial, hlt⟩ .nil

/-- Putting the regions of a text back puts them between what is outside of them. -/
theorem putBack_interlace {ws gs : List Text} {start : Nat} (hws : ∀ w ∈ ws, opener ∉ w)
    (hgs : ∀ i g, gs[i]? = some g → regions[start + i]? = some g) :
    PutBack regions (Text.interlace ws (placeholders start gs.length)) (Text.interlace ws gs) := by
  induction ws generalizing gs start with
  | nil => exact .nil
  | cons w ws ih =>
    obtain ⟨hw, hrest⟩ := List.forall_mem_cons.mp hws
    cases gs with
    | nil =>
      refine .of_not_mem fun hmem => ?_
      obtain ⟨w', hw', hmem⟩ := List.mem_flatten.mp hmem
      exact hws w' hw' hmem
    | cons g gs =>
      have htail : PutBack regions (Text.interlace ws (placeholders (start + 1) gs.length))
          (Text.interlace ws gs) := by
        refine ih hrest fun i x hx => ?_
        rw [Nat.add_assoc, Nat.add_comm 1]
        exact hgs (i + 1) x hx
      exact (PutBack.hit (hgs 0 g rfl) htail).behind hw

theorem opener_not_mem_inside (hs : s.Ordinary) : ∀ content ∈ inside d s, opener ∉ content :=
  fun _ hcontent hmem => hs.1 (subset_of_mem_inside hcontent hmem)

/-- No region of a text without private characters has one. -/
theorem opener_not_mem_extractAll (hregions : ∀ content ∈ regions, opener ∉ content)
    (htexts : ∀ s ∈ texts, s.Ordinary) :
    ∀ content ∈ (extractAll d regions texts).2, opener ∉ content := by
  rw [extractAll_snd]
  refine List.forall_mem_append.mpr ⟨hregions, fun content hcontent => ?_⟩
  obtain ⟨s, hs, hcontent⟩ := List.mem_flatMap.mp hcontent
  exact opener_not_mem_inside (htexts s hs) content hcontent

/-- Texts whose regions are put aside and put back have lost the tags of their regions. -/
theorem restore_extractAll (hregions : ∀ content ∈ regions, opener ∉ content)
    (htexts : ∀ s ∈ texts, s.Ordinary) :
    (extractAll d regions texts).1.map (restore (extractAll d regions texts).2) =
      texts.map fun s => Text.interlace (outside d s) (inside d s) := by
  induction texts generalizing regions with
  | nil => rfl
  | cons s texts ih =>
    obtain ⟨hs, hrest⟩ := List.forall_mem_cons.mp htexts
    have hlater : ∀ content ∈ (extract d regions s).2, opener ∉ content :=
      List.forall_mem_append.mpr ⟨hregions, opener_not_mem_inside hs⟩
    rw [extractAll, List.map_cons, List.map_cons, ih hlater hrest]
    refine congrArg (· :: _) ?_
    have hspelled : (ordinary.only fun n => n <
        (extractAll d regions (s :: texts)).2.length).Spelled
        (extract d regions s).1 := spelled_of_mem_extractAll htexts _ List.mem_cons_self
    have hrestored := putBack_restore hspelled (fun h => h.1 rfl) (fun n hn => hn.2)
      (opener_not_mem_extractAll hregions htexts)
    -- there is one way to put the regions back, and the one between the stretches is such a way
    refine hrestored.unique ?_
    rw [extract_fst]
    refine putBack_interlace
      (fun w hw => (bare_ordinary.mp (bare_outside (bare_ordinary.mpr hs) w hw)).1)
      fun i g hg => ?_
    rw [extractAll, extractAll_snd, extract_snd, List.append_assoc,
      List.getElem?_append_right (Nat.le_add_right _ i), Nat.add_sub_cancel_left,
      List.getElem?_append_left (List.getElem?_eq_some_iff.mp hg).1, hg]

/-- **Protected regions survive**, across any number of texts: each text has a layout of regions,
one table holds the contents of all of them in order, and they are put back all at once and as they
were into whatever is put together from what is left of the texts. -/
theorem restore_assembled (d : Delimiters) (htexts : ∀ s ∈ texts, s.Ordinary) :
    (∀ s, ∃ xs : List Span, inside d s = xs.map Span.content ∧ Layout d s (outside d s) xs ∧
      Text.interlace (outside d s) (xs.map Span.text) = s) ∧
    (extractAll d [] texts).2 = texts.flatMap (inside d) ∧
    (extractAll d [] texts).1.map (restore (extractAll d [] texts).2) =
      texts.map (fun s => Text.interlace (outside d s) (inside d s)) ∧
    (∀ s t, Assembled (extractAll d [] texts).1 s →
      (PutBack (extractAll d [] texts).2 s t ↔ t = restore (extractAll d [] texts).2 s)) ∧
    (d.right.head?.any isBlank = false → ∀ s (x y : Span), x.Chosen d s → y.Stands d s →
      x.text.length ≤ y.text.length) := by
  have hregions : ∀ content ∈ (extractAll d [] texts).2, opener ∉ content :=
    opener_not_mem_extractAll (by simp) htexts
  refine ⟨fun s => ?_, extractAll_snd d [] texts, restore_extractAll (by simp) htexts,
    fun s t hs => ?_, fun hright s x y hx hy => hx.length_le hright hy⟩
  · obtain ⟨xs, hinside, hlayout⟩ := exists_layout d s
    exact ⟨xs, hinside, hlayout, hlayout.interlace_text⟩
  · have hrestored := putBack_restore (hs.spelled (spelled_of_mem_extractAll htexts))
        (fun h => h.1 rfl)
      (fun n hn => hn.2) hregions
    exact ⟨fun ht => ht.unique hrestored, fun ht => ht ▸ hrestored⟩

/-- Two texts with three regions, put together the other way round. -/
theorem restore_assembled_swapped :
    let texts := ["\x7bnoparse\x7d1\x7b/noparse\x7d-\x7b noparse \x7d2\x7b / noparse \x7d".toList,
      "\x7bnoparse\x7d\x7ba\x7d\x7b/noparse\x7d".toList]
    let outs := (extractAll .braces [] texts).1
    let regions := (extractAll .braces [] texts).2
    outs.map (restore regions) = ["1-2".toList, "\x7ba\x7d".toList] ∧
      PutBack regions outs.reverse.flatten "\x7ba\x7d1-2".toList := by
  intro texts outs regions
  have htexts : ∀ s ∈ texts, Text.Ordinary s := by
    unfold Text.Ordinary
    decide
  obtain ⟨-, -, hrestored, hassembled, -⟩ := restore_assembled .braces htexts
  refine ⟨hrestored.trans (by decide +kernel), (hassembled _ _ ?_).mpr (by decide +kernel)⟩
  have houts : outs.reverse ⊆ outs := fun out hout => List.mem_reverse.mp hout
  exact .flatten houts

/-- Between delimiters that are blanks, the region that is found is not the shortest: it is opened
and closed as late as it can be. -/
theorem extract_not_shortest :
    let d : Delimiters := ⟨[' '], [' '], by simp, by simp⟩
    let s := " noparse  /noparse   /noparse ".toList
    let y : Span := ⟨" noparse ".toList, [], " /noparse ".toList⟩
    Text.Ordinary s ∧ y.Stands d s ∧ s = y.text ++ "  /noparse ".toList ∧
      extract d [] s = (placeholder 0, ["/noparse".toList]) := by
  intro d s y
  have hblank : Blank [] := fun c hc => absurd hc (by simp)
  have hopening : Opening d y.opening := ⟨[], [], hblank, hblank, rfl⟩
  have hclosing : Closing d y.closing := ⟨[], [], [], hblank, hblank, hblank, rfl⟩
  refine ⟨⟨by decide, by decide⟩, ⟨hopening, hclosing, by decide⟩, rfl, ?_⟩
  decide +kernel

end ProtectedRegions

end Stencil
