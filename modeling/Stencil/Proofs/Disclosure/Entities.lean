import Stencil.Proofs.Alphabet.Values

/-!
# Escaping is a code

Each of the five replacements goes over what the ones before it have made, and each puts in
ampersands. Because the ampersand goes first, none touches an entity, and together they write every
character on its own: the five with a meaning as their entities, all others as they are. What is
escaped can be decoded again, and the ampersands in it are those that open the entities.
-/

namespace Stencil

namespace Html

/-- The characters with a meaning, each with the entity that stands for it. -/
def entities : List (Char × Text) :=
  [('&', "&amp;".toList), ('<', "&lt;".toList), ('>', "&gt;".toList), ('"', "&quot;".toList),
   ('\'', "&#039;".toList)]

/-- Decodes the entities of a text from left to right, after a number of characters that belong to
an entity in front. -/
def decodeFrom : (skip : Nat) → Text → Text
  | _, [] => []
  | skip + 1, _ :: s => decodeFrom skip s
  | 0, c :: s =>
    match entities.find? fun e => e.2.isPrefixOf (c :: s) with
    | some (d, entity) => d :: decodeFrom (entity.length - 1) s
    | none => c :: decodeFrom 0 s

/-- Puts the characters back that entities stand for, from left to right. -/
def decode (s : Text) : Text := decodeFrom 0 s

/-! ## One character -/

/-- A character with a meaning is written as its entity, and any other one as itself. -/
theorem htmlEntity_cases (c : Char) :
    (c, htmlEntity c) ∈ entities ∨ htmlEntity c = [c] ∧ ∀ e ∈ entities, c ≠ e.1 := by
  unfold htmlEntity
  split
  · simp_all [entities]
  split
  · simp_all [entities]
  split
  · simp_all [entities]
  split
  · simp_all [entities]
  split
  · simp_all [entities]
  · simp_all [entities]

/-- Nothing but an ampersand opens an entity. -/
theorem not_isPrefixOf_of_ne {c : Char} (hc : c ≠ '&') (s : Text) :
    ∀ e ∈ entities, e.2.isPrefixOf (c :: s) = false := by
  simp [entities, List.isPrefixOf, Ne.symm hc]

/-- No character with a meaning is left in an entity but the ampersand, which opens it. -/
theorem entity_eq_cons {c : Char} {entity : Text} (h : (c, entity) ∈ entities) :
    ∃ t, entity = '&' :: t ∧ ∀ d ∈ entities, d.1 ∉ t := by
  have hall : ∀ e ∈ entities, ∃ t, e.2 = '&' :: t ∧ ∀ d ∈ entities, d.1 ∉ t := by simp [entities]
  exact hall _ h

theorem decodeFrom_length (w s : Text) : decodeFrom w.length (w ++ s) = decodeFrom 0 s := by
  induction w with
  | nil => rfl
  | cons c w ih => exact ih

/-- No entity starts with another one, so the one in front is the one that is decoded. -/
theorem find?_entity {c : Char} {entity : Text} (h : (c, entity) ∈ entities) (s : Text) :
    (entities.find? fun e => e.2.isPrefixOf (entity ++ s)) = some (c, entity) := by
  simp only [entities, List.mem_cons, Prod.mk.injEq, List.not_mem_nil, or_false] at h
  rcases h with ⟨rfl, rfl⟩ | ⟨rfl, rfl⟩ | ⟨rfl, rfl⟩ | ⟨rfl, rfl⟩ | ⟨rfl, rfl⟩ <;> rfl

theorem decodeFrom_entity {c : Char} {entity : Text} (h : (c, entity) ∈ entities) (s : Text) :
    decodeFrom 0 (entity ++ s) = c :: decodeFrom 0 s := by
  have hfind := find?_entity h s
  obtain ⟨t, rfl, -⟩ := entity_eq_cons h
  rw [List.cons_append] at hfind ⊢
  rw [decodeFrom, hfind]
  exact congrArg _ (decodeFrom_length t s)

/-- What a character is written as is decoded to it. -/
theorem decodeFrom_htmlEntity (c : Char) (s : Text) :
    decodeFrom 0 (htmlEntity c ++ s) = c :: decodeFrom 0 s := by
  obtain h | ⟨h, hc⟩ := htmlEntity_cases c
  · exact decodeFrom_entity h s
  · have hnone : (entities.find? fun e => e.2.isPrefixOf (c :: s)) = none :=
      List.find?_eq_none.mpr fun e he => by
        simp [not_isPrefixOf_of_ne (hc ('&', "&amp;".toList) (by simp [entities])) s e he]
    rw [h, List.singleton_append, decodeFrom, hnone]

/-! ## Texts -/

/-- A character that is not in a text stands behind it. -/
theorem suffix_of_notMem {c : Char} {w s v : Text} (hc : c ∉ w) (h : c :: v <:+ w ++ s) :
    c :: v <:+ s := by
  induction w with
  | nil => exact h
  | cons x w ih =>
    rw [List.mem_cons, not_or] at hc
    rw [List.cons_append, List.suffix_cons_iff] at h
    exact ih hc.2 (h.resolve_left fun heq => hc.1 (List.cons.inj heq).1)

/-- Where an ampersand stands in what is escaped, an entity starts. -/
theorem exists_entity_of_suffix {s v : Text} (h : '&' :: v <:+ s.flatMap htmlEntity) :
    ∃ e ∈ entities, e.2 <+: '&' :: v := by
  induction s with
  | nil => simp at h
  | cons c s ih =>
    have hamp : ('&', "&amp;".toList) ∈ entities := by simp [entities]
    rw [List.flatMap_cons] at h
    obtain hentity | ⟨hself, hc⟩ := htmlEntity_cases c
    · obtain ⟨t, ht, hplain⟩ := entity_eq_cons hentity
      rw [ht, List.cons_append, List.suffix_cons_iff] at h
      obtain h | h := h
      · exact ⟨_, hentity, by rw [h, ht]; exact List.prefix_append ('&' :: t) _⟩
      · exact ih (suffix_of_notMem (hplain _ hamp) h)
    · rw [hself] at h
      exact ih (suffix_of_notMem (by simpa using (hc _ hamp).symm) h)

/-- No angle bracket and no quote is left in what is escaped. -/
theorem notMem_flatMap_htmlEntity (s : Text) :
    ∀ d ∈ entities, d.1 ≠ '&' → d.1 ∉ s.flatMap htmlEntity := by
  intro d hd hne hmem
  obtain ⟨c, -, hc⟩ := List.mem_flatMap.mp hmem
  obtain hentity | ⟨hself, hplain⟩ := htmlEntity_cases c
  · obtain ⟨t, ht, hnone⟩ := entity_eq_cons hentity
    rw [ht, List.mem_cons] at hc
    exact hc.elim hne (hnone d hd)
  · rw [hself, List.mem_singleton] at hc
    exact hplain d hd hc.symm

theorem decodeFrom_flatMap_htmlEntity (s : Text) : decodeFrom 0 (s.flatMap htmlEntity) = s := by
  induction s with
  | nil => rfl
  | cons c s ih => rw [List.flatMap_cons, decodeFrom_htmlEntity, ih]

/-- **Escaping is a faithful code.** The five replacements, one after the other, write every
character on its own, as its entity or as itself. So a text is escaped piece by piece; neither an
angle bracket nor a quote is left in it, and every ampersand in it opens one of the five entities;
and to decode the entities from left to right gives the text back. -/
theorem escapeHtml_faithful (s : Text) :
    escapeHtml s = s.flatMap htmlEntity ∧
    (∀ t, escapeHtml (s ++ t) = escapeHtml s ++ escapeHtml t) ∧
    (∀ c ∈ escapeHtml s, c ∉ ['<', '>', '"', '\'']) ∧
    (∀ u v, escapeHtml s = u ++ '&' :: v → ∃ e ∈ entities, e.2 <+: '&' :: v) ∧
    decode (escapeHtml s) = s := by
  simp only [escapeHtml_eq]
  refine ⟨trivial, fun t => List.flatMap_append, ?_, fun u v h => ?_, ?_⟩
  · intro c hc hmem
    have hnone := notMem_flatMap_htmlEntity s
    simp only [List.mem_cons, List.not_mem_nil, or_false] at hmem
    rcases hmem with rfl | rfl | rfl | rfl
    · exact hnone ('<', "&lt;".toList) (by simp [entities]) (by decide) hc
    · exact hnone ('>', "&gt;".toList) (by simp [entities]) (by decide) hc
    · exact hnone ('"', "&quot;".toList) (by simp [entities]) (by decide) hc
    · exact hnone ('\'', "&#039;".toList) (by simp [entities]) (by decide) hc
  · exact exists_entity_of_suffix ⟨u, h.symm⟩
  · exact decodeFrom_flatMap_htmlEntity s

/-- What looks like an entity before escaping is none afterwards. -/
theorem escapeHtml_faithful_entity :
    escapeHtml "&lt;'".toList = "&amp;lt;&#039;".toList ∧
      (∃ e ∈ entities, e.2 <+: '&' :: "#039;".toList) ∧
      decode (escapeHtml "&lt;'".toList) = "&lt;'".toList := by
  obtain ⟨hcode, -, -, hamp, hdecode⟩ := escapeHtml_faithful "&lt;'".toList
  have hescaped : escapeHtml "&lt;'".toList = "&amp;lt;&#039;".toList := hcode.trans (by decide)
  exact ⟨hescaped, hamp "&amp;lt;".toList "#039;".toList hescaped, hdecode⟩

end Html

end Stencil
