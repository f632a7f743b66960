import Stencil.Template.Protection

/-!
# Putting protected regions back

Regions are put back by replacing one placeholder after the other in the whole text. That could go
wrong where other text spells a placeholder, or helps to spell one. It cannot where only
placeholders have the character that opens them: such a text is a row of glyphs and placeholders,
and restoring it puts each region in the place of its own placeholders, all at once.
-/

namespace Stencil

namespace Text

/-! ## Replacing -/

/-- Replacing passes over characters where the old text does not start. -/
theorem replaceFrom_pass {old new s t : Text} (h : ∀ i < s.length, ¬ old <+: s.drop i ++ t) :
    replaceFrom old new 0 (s ++ t) = s ++ replaceFrom old new 0 t := by
  induction s with
  | nil => rfl
  | cons c s ih =>
    have h0 : ¬ old <+: c :: (s ++ t) := h 0 (by simp)
    rw [List.cons_append, replaceFrom, if_neg (by rwa [List.isPrefixOf_iff_prefix]),
      ih fun i hi => h (i + 1) (by simpa using hi), List.cons_append]

theorem replaceFrom_skip (old new s t : Text) :
    replaceFrom old new s.length (s ++ t) = replaceFrom old new 0 t := by
  induction s with
  | nil => rfl
  | cons c s ih => rw [List.length_cons, List.cons_append, replaceFrom, ih]

theorem replaceFrom_hit {old new : Text} (hold : old ≠ []) (t : Text) :
    replaceFrom old new 0 (old ++ t) = new ++ replaceFrom old new 0 t := by
  obtain ⟨c, rest, rfl⟩ := List.exists_cons_of_ne_nil hold
  have hp : (c :: rest).isPrefixOf (c :: (rest ++ t)) = true := by
    rw [List.isPrefixOf_iff_prefix]
    exact ⟨t, rfl⟩
  rw [List.cons_append, replaceFrom, if_pos hp, List.length_cons, Nat.add_sub_cancel,
    replaceFrom_skip]

/-- Nothing is replaced where the old text cannot start. -/
theorem replaceFrom_foreign {c : Char} {rest new s : Text} (h : c ∉ s) (t : Text) :
    replaceFrom (c :: rest) new 0 (s ++ t) = s ++ replaceFrom (c :: rest) new 0 t := by
  refine replaceFrom_pass fun i hi hp => ?_
  obtain ⟨x, v, hxv⟩ := List.exists_cons_of_ne_nil (show s.drop i ≠ [] by simpa using hi)
  rw [hxv, List.cons_append, List.cons_prefix_cons] at hp
  have hmem : x ∈ s := List.mem_of_mem_drop (show x ∈ s.drop i by simp [hxv])
  exact h (hp.1 ▸ hmem)

end Text

namespace Decimal

theorem natText_injective {m n : Nat} (h : natText m = natText n) : m = n := by
  have := congrArg (Nat.ofDigitChars 10 · 0) h
  simpa [natText, Nat.ofDigitChars_toDigits] using this

theorem isDigit_of_mem_natText {n : Nat} {c : Char} (h : c ∈ natText n) : c.isDigit = true :=
  Nat.isDigit_of_mem_toDigits (by decide) (by decide) h

end Decimal

/-- Something that stands in a text: a glyph, or a region that has been put aside. -/
inductive Atom (α : Type) where
  /-- A glyph. -/
  | glyph (a : α)
  /-- A region, by its number. -/
  | shelved (index : Nat)

namespace ProtectedRegions

variable {α : Type}

/-- The text of atoms, given what glyphs and regions look like. -/
def shown (w : α → Text) (region : Nat → Text) (as : List (Atom α)) : Text :=
  as.flatMap fun
    | .glyph a => w a
    | .shelved index => region index

@[simp]
theorem shown_nil (w : α → Text) (region : Nat → Text) : shown w region [] = [] := rfl

@[simp]
theorem shown_cons_glyph (w : α → Text) (region : Nat → Text) (a : α) (as : List (Atom α)) :
    shown w region (.glyph a :: as) = w a ++ shown w region as := by
  simp [shown]

@[simp]
theorem shown_cons_shelved (w : α → Text) (region : Nat → Text) (index : Nat)
    (as : List (Atom α)) :
    shown w region (.shelved index :: as) = region index ++ shown w region as := by
  simp [shown]

@[simp]
theorem shown_append (w : α → Text) (region : Nat → Text) (as bs : List (Atom α)) :
    shown w region (as ++ bs) = shown w region as ++ shown w region bs := by
  simp [shown]

/-- What stands behind the opener of a placeholder. -/
def placeholderRest (index : Nat) : Text := "noparse:".toList ++ Decimal.natText index ++ [closer]

theorem placeholder_eq (index : Nat) : placeholder index = opener :: placeholderRest index := rfl

theorem opener_not_mem_placeholderRest (index : Nat) : opener ∉ placeholderRest index := by
  have hword : opener ∉ "noparse:".toList := by simp [opener]
  have hcloser : opener ∉ [closer] := by simp [opener, closer]
  have hnumber : opener ∉ Decimal.natText index := fun h =>
    absurd (Decimal.isDigit_of_mem_natText h) (by simp [opener])
  intro h
  rcases List.mem_append.mp h with h | h
  · rcases List.mem_append.mp h with h | h
    · exact hword h
    · exact hnumber h
  · exact hcloser h

/-- No placeholder is the beginning of another. -/
theorem placeholder_unique {m n : Nat} {t : Text} (h : placeholder m <+: placeholder n ++ t) :
    m = n := by
  have hcloser : ∀ k, closer ∉ Decimal.natText k := fun k hk =>
    absurd (Decimal.isDigit_of_mem_natText hk) (by simp [closer])
  obtain ⟨z, hz⟩ := h
  simp only [placeholder, List.cons_append, List.append_assoc, List.cons.injEq, true_and,
    List.append_cancel_left_eq, List.nil_append] at hz
  -- both numbers end at the first closer
  rcases List.append_eq_append_iff.mp hz with ⟨u, hu, hrest⟩ | ⟨u, hu, hrest⟩
  · cases u with
    | nil => exact Decimal.natText_injective (by simpa using hu.symm)
    | cons c u =>
      obtain rfl : closer = c := by simpa using (List.cons.inj hrest).1
      exact absurd (show closer ∈ Decimal.natText n by simp [hu]) (hcloser n)
  · cases u with
    | nil => exact Decimal.natText_injective (by simpa using hu)
    | cons c u =>
      obtain rfl : closer = c := by simpa using (List.cons.inj hrest).1
      exact absurd (show closer ∈ Decimal.natText m by simp [hu]) (hcloser m)

/-- Replacing one placeholder replaces the atoms that stand for it, if nothing else has an
opener. -/
theorem replace_shown {w : α → Text} {region : Nat → Text} {as : List (Atom α)}
    (hw : ∀ a, .glyph a ∈ as → opener ∉ w a) {k : Nat}
    (hregion : ∀ index, .shelved index ∈ as → region index = placeholder index ∨
    opener ∉ region index)
    (hk : region k = placeholder k) (content : Text) :
    (shown w region as).replace (placeholder k) content =
      shown w (fun index => if index = k then content else region index) as := by
  unfold Text.replace
  induction as with
  | nil => rfl
  | cons a as ih =>
    have ih := ih (fun b hb => hw b (by simp [hb])) fun b hb => hregion b (by simp [hb])
    cases a with
    | glyph a =>
      rw [shown_cons_glyph, shown_cons_glyph, placeholder_eq,
        Text.replaceFrom_foreign (hw a (by simp)), ← placeholder_eq, ih]
    | shelved index =>
      rw [shown_cons_shelved, shown_cons_shelved]
      by_cases hi : index = k
      · subst hi
        rw [if_pos rfl, hk, Text.replaceFrom_hit (by simp [placeholder_eq]), ih]
      · rw [if_neg hi]
        rcases hregion index (by simp) with hp | hn
        · -- another placeholder: it has one opener, and goes on with another number
          have hopener : Text.replaceFrom (placeholder k) content 0
              ([opener] ++ (placeholderRest index ++ shown w region as)) =
                [opener] ++ Text.replaceFrom (placeholder k) content 0
                  (placeholderRest index ++ shown w region as) := by
            refine Text.replaceFrom_pass fun i hlt hpre => ?_
            obtain rfl : i = 0 := by simpa using hlt
            exact hi (placeholder_unique (n := index) (by simpa [placeholder_eq] using hpre)).symm
          have hrest : Text.replaceFrom (opener :: placeholderRest k) content 0
              (placeholderRest index ++ shown w region as) =
                placeholderRest index ++
                  Text.replaceFrom (opener :: placeholderRest k) content 0 (shown w region as) :=
            Text.replaceFrom_foreign (opener_not_mem_placeholderRest index) _
          rw [← placeholder_eq, ih] at hrest
          rw [hrest] at hopener
          rw [hp]
          exact hopener
        · rw [placeholder_eq, Text.replaceFrom_foreign hn, ← placeholder_eq, ih]

/-- Restoring a text in which only placeholders have openers puts every region in the place of its
placeholders. Only regions that are put back have to be free of openers. -/
theorem restore_shown_of_mem {w : α → Text} {as : List (Atom α)}
    (hw : ∀ a, .glyph a ∈ as → opener ∉ w a) {regions : ProtectedRegions}
    (hregions : ∀ index content, .shelved index ∈ as → regions[index]? = some content →
      opener ∉ content) :
    regions.restore (shown w placeholder as) =
      shown w (fun index => (regions[index]?).getD (placeholder index)) as := by
  -- after some rounds, the regions put back are those in front
  have hround : ∀ (rest : List Text) (k : Nat) (region : Nat → Text),
      (∀ j content, .shelved (k + j) ∈ as → rest[j]? = some content → opener ∉ content) →
      (∀ index, .shelved index ∈ as → region index = placeholder index ∨ opener ∉ region index) →
      (∀ index, k ≤ index → region index = placeholder index) →
      (rest.zipIdx k).foldl (fun s x => s.replace (placeholder x.2) x.1) (shown w region as) =
        shown w (fun index => if index < k then region index
          else (rest[index - k]?).getD (placeholder index)) as := by
    intro rest
    induction rest with
    | nil =>
      intro k region _ _ hlater
      have hsame : (fun index => if index < k then region index
          else (([] : List Text)[index - k]?).getD (placeholder index)) = region := by
        funext index
        by_cases hlt : index < k
        · rw [if_pos hlt]
        · rw [if_neg hlt, hlater index (by omega)]
          rfl
      rw [hsame]
      rfl
    | cons content rest ih =>
      intro k region hrest hregion hlater
      rw [List.zipIdx_cons, List.foldl_cons,
        replace_shown hw hregion (hlater k (Nat.le_refl k)), ih]
      · congr 1
        funext index
        rcases Nat.lt_trichotomy index k with hlt | rfl | hgt
        · rw [if_pos (by omega), if_neg (by omega), if_pos hlt]
        · rw [if_pos (by omega), if_pos rfl, if_neg (by omega), Nat.sub_self]
          rfl
        · obtain ⟨j, rfl⟩ : ∃ j, index = k + 1 + j := ⟨index - (k + 1), by omega⟩
          rw [if_neg (by omega), if_neg (by omega), Nat.add_sub_cancel_left,
            show k + 1 + j - k = j + 1 by omega, List.getElem?_cons_succ]
      · intro j c hmem hc
        exact hrest (j + 1) c (by rwa [show k + (j + 1) = k + 1 + j by omega]) (by simpa using hc)
      · intro index hmem
        split
        · rename_i hik
          exact .inr (hrest 0 content (by rwa [Nat.add_zero, ← hik]) rfl)
        · exact hregion index hmem
      · intro index hi
        rw [if_neg (by omega)]
        exact hlater index (by omega)
  have := hround regions 0 placeholder (fun j content => by simpa using hregions j content)
    (fun _ _ => .inl rfl) fun _ _ => rfl
  simpa [restore] using this

/-- Restoring a text in which only placeholders have openers puts every region in the place of its
placeholders. -/
theorem restore_shown {w : α → Text} {as : List (Atom α)} (hw : ∀ a, .glyph a ∈ as → opener ∉ w a)
    {regions : ProtectedRegions} (hregions : ∀ content ∈ regions, opener ∉ content) :
    regions.restore (shown w placeholder as) =
      shown w (fun index => (regions[index]?).getD (placeholder index)) as :=
  restore_shown_of_mem hw fun _ content _ hc => hregions content (List.mem_of_getElem? hc)

/-- Nothing is put back into a text without openers. -/
theorem restore_of_not_mem {regions : ProtectedRegions}
    (hregions : ∀ content ∈ regions, opener ∉ content)
    {s : Text} (hs : opener ∉ s) : regions.restore s = s := by
  have hrestore : regions.restore (shown (fun _ : Unit => s) placeholder [.glyph ()]) = _ :=
    restore_shown (fun _ _ => hs) hregions
  simpa using hrestore

theorem shown_eq_flatten (w : α → Text) (region : Nat → Text) (as : List (Atom α)) :
    shown w region as = (as.map fun a => shown w region [a]).flatten := by
  rw [shown, List.flatMap_def]
  exact congrArg List.flatten (List.map_congr_left fun a _ => by simp [shown])

/-- Regions are put back text by text, if each is a placeholder or has no opener. -/
theorem restore_flatten {regions : ProtectedRegions}
    (hregions : ∀ content ∈ regions, opener ∉ content) {ts : List Text}
    (hts : ∀ t ∈ ts, (∃ n, t = placeholder n) ∨ opener ∉ t) :
    regions.restore ts.flatten = (ts.map regions.restore).flatten := by
  obtain ⟨as, has, rfl⟩ : ∃ as : List (Atom Text), (∀ s, .glyph s ∈ as → opener ∉ s) ∧
      ts = as.map fun a => shown id placeholder [a] := by
    induction ts with
    | nil => exact ⟨[], by simp, rfl⟩
    | cons t ts ih =>
      obtain ⟨as, has, rfl⟩ := ih fun t ht => hts t (.tail _ ht)
      rcases hts t (.head _) with ⟨n, rfl⟩ | hopener
      · exact ⟨.shelved n :: as, by simpa using has, by simp⟩
      · refine ⟨.glyph t :: as, fun s hs => ?_, by simp⟩
        rcases List.mem_cons.mp hs with heq | hs
        · exact Atom.glyph.inj heq ▸ hopener
        · exact has s hs
  rw [← shown_eq_flatten, restore_shown (w := id) has hregions, shown_eq_flatten, List.map_map]
  refine congrArg List.flatten (List.map_congr_left fun a ha => ?_)
  refine (restore_shown (w := id) (fun s hs => has s ?_) hregions).symm
  exact List.mem_singleton.mp hs ▸ ha

end ProtectedRegions

end Stencil
