import Stencil.Proofs.Tag.Balance

/-!
# Tags of a text that is cut off

A tag that stands in a text is still read if the text is cut off behind it, and where no tag stands,
none appears. That is so whatever the delimiters are. The other way round it need not be: a tag at
the end of a text can be read differently if more text is put behind it, but it keeps the word it
starts with, and so stays a tag of its kind.
-/

namespace Stencil

namespace Recognizer

variable {α β : Type} {next r q : Recognizer α} {s t : Text}

/-- What is read at the front of a text is read at the front of its prefixes, if it fits, and what
is not read is not read there. -/
structure Steady (r : Recognizer α) : Prop where
  /-- Prefixes have nothing new. -/
  fails : ∀ {s t}, t <+: s → r s = none → r t = none
  /-- What fits is kept. -/
  reads : ∀ {s t lexeme a}, t <+: s → r s = some (lexeme, a) → lexeme.length ≤ t.length →
    r t = some (lexeme, a)

theorem Steady.done (a : α) : Steady (done a) where
  fails _ h := absurd h (by simp [Recognizer.done])
  reads _ h _ := h

theorem Steady.map {f : α → β} (h : Steady r) : Steady (r.map f) where
  fails ht hs := map_eq_none.mpr (h.fails ht (map_eq_none.mp hs))
  reads ht hs hle := by
    obtain ⟨a, ha, rfl⟩ := map_eq_some.mp hs
    exact map_eq_some.mpr ⟨a, h.reads ht ha hle, rfl⟩

theorem orElse_eq_none : r.orElse q s = none ↔ r s = none ∧ q s = none := by
  unfold Recognizer.orElse
  cases r s <;> simp

theorem Steady.orElse (hr : Steady r) (hq : Steady q) : Steady (r.orElse q) where
  fails ht hs := by
    obtain ⟨h, h'⟩ := orElse_eq_none.mp hs
    exact orElse_eq_none.mpr ⟨hr.fails ht h, hq.fails ht h'⟩
  reads {s t lexeme a} ht hs hle := by
    unfold Recognizer.orElse at hs ⊢
    cases h : r s with
    | none =>
      rw [h] at hs
      rw [hr.fails ht h]
      exact hq.reads ht hs hle
    | some x =>
      rw [h] at hs
      rw [hr.reads ht (h.trans hs) hle]

/-- A prefix of what starts with a word starts with the word, or is shorter. -/
theorem exists_of_prefix_append {w u : Text} (ht : t <+: w ++ u) (hw : w <+: t) :
    ∃ v, t = w ++ v ∧ v <+: u := by
  obtain ⟨v, rfl⟩ := hw
  exact ⟨v, rfl, (List.prefix_append_right_inj w).mp ht⟩

theorem prefix_of_length_le {w u : Text} (ht : t <+: w ++ u) (hle : w.length ≤ t.length) :
    w <+: t :=
  List.prefix_of_prefix_length_le (List.prefix_append w u) ht hle

theorem Steady.literal {w : Text} (h : Steady next) : Steady (literal w next) where
  fails {s t} ht hs := by
    refine (Decidable.em (w <+: t)).elim (fun hw => ?_) literal_eq_none
    obtain ⟨u, rfl⟩ := hw.trans ht
    obtain ⟨v, rfl, hv⟩ := exists_of_prefix_append ht hw
    rw [literal_append, Option.map_eq_none_iff] at hs ⊢
    exact h.fails hv hs
  reads {s t lexeme a} ht hs hle := by
    obtain ⟨u, l, rfl, rfl, hn⟩ := literal_eq_some.mp hs
    rw [List.length_append] at hle
    obtain ⟨v, rfl, hv⟩ :=
      exists_of_prefix_append ht (prefix_of_length_le ht (Nat.le_of_add_right_le hle))
    rw [List.length_append] at hle
    exact literal_eq_some.mpr ⟨v, l, rfl, rfl, h.reads hv hn (Nat.le_of_add_le_add_left hle)⟩

/-- Where a word may end matters only if something has to follow. -/
theorem Steady.wordEnd (h : Steady next) (hnil : next [] = none) : Steady (wordEnd next) where
  fails {s t} ht hs := by
    cases t with
    | nil => rw [Recognizer.wordEnd]; exact hnil
    | cons c t =>
      obtain ⟨u, rfl⟩ := ht
      rw [Recognizer.wordEnd] at hs ⊢
      split
      · rfl
      · rename_i hc
        rw [List.cons_append, List.head?_cons, if_neg (by simpa using hc)] at hs
        exact h.fails ⟨u, rfl⟩ hs
  reads {s t lexeme a} ht hs hle := by
    obtain ⟨hc, hn⟩ := wordEnd_eq_some hs
    have hnext := h.reads ht hn hle
    cases t with
    | nil => exact absurd hnext (by simp [hnil])
    | cons c t =>
      obtain ⟨u, rfl⟩ := ht
      rw [Recognizer.wordEnd, if_neg (by simpa using hc)]
      exact hnext

theorem Steady.most {p : Char → Bool} (h : Steady next) : Steady (most p next) where
  fails {s t} ht hs := by
    obtain ⟨u, rfl⟩ := ht
    refine most_eq_none.mpr fun w v hv hw => ?_
    exact h.fails ⟨u, rfl⟩ (most_eq_none.mp hs w (v ++ u) (by rw [hv, List.append_assoc]) hw)
  reads {s t lexeme x} ht hs hle := by
    obtain ⟨taken, a⟩ := x
    obtain ⟨u, l, rfl, rfl, hp, hn, hlonger⟩ := most_eq_some hs
    rw [List.length_append] at hle
    obtain ⟨v, rfl, hv⟩ :=
      exists_of_prefix_append ht (prefix_of_length_le ht (Nat.le_of_add_right_le hle))
    rw [List.length_append] at hle
    have hnext := h.reads hv hn (Nat.le_of_add_le_add_left hle)
    cases hm : Recognizer.most p next (taken ++ v) with
    | none => exact absurd hnext (by simp [most_eq_none.mp hm taken v rfl hp])
    | some y =>
      obtain ⟨lexeme, taken', b⟩ := y
      obtain ⟨v', l', hsplit, rfl, hp', hn', hlonger'⟩ := most_eq_some hm
      rcases Nat.lt_trichotomy taken.length taken'.length with hlt | heq | hlt
      -- a longer stretch would have been taken before
      · obtain ⟨w, hw⟩ := hv
        have hnone :=
          hlonger taken' (v' ++ w) (by rw [← hw, ← List.append_assoc, hsplit]; simp) hp' hlt
        exact absurd hn' (by simp [h.fails ⟨w, rfl⟩ hnone])
      · obtain ⟨rfl, rfl⟩ := List.append_inj hsplit heq
        rw [hnext] at hn'
        obtain ⟨rfl, rfl⟩ := Prod.mk.inj (Option.some.inj hn')
        rfl
      · exact absurd hnext (by simp [hlonger' taken v rfl hp hlt])

theorem Steady.fewest {p : Char → Bool} (h : Steady next) : Steady (fewest p next) where
  fails {s t} ht hs := by
    obtain ⟨u, rfl⟩ := ht
    refine fewest_eq_none.mpr fun w v hv hw => ?_
    exact h.fails ⟨u, rfl⟩ (fewest_eq_none.mp hs w (v ++ u) (by rw [hv, List.append_assoc]) hw)
  reads {s t lexeme x} ht hs hle := by
    obtain ⟨taken, a⟩ := x
    obtain ⟨u, l, rfl, rfl, hp, hn, hshorter⟩ := fewest_eq_some hs
    rw [List.length_append] at hle
    obtain ⟨v, rfl, hv⟩ :=
      exists_of_prefix_append ht (prefix_of_length_le ht (Nat.le_of_add_right_le hle))
    rw [List.length_append] at hle
    have hnext := h.reads hv hn (Nat.le_of_add_le_add_left hle)
    cases hm : Recognizer.fewest p next (taken ++ v) with
    | none => exact absurd hnext (by simp [fewest_eq_none.mp hm taken v rfl hp])
    | some y =>
      obtain ⟨lexeme, taken', b⟩ := y
      obtain ⟨v', l', hsplit, rfl, hp', hn', hshorter'⟩ := fewest_eq_some hm
      rcases Nat.lt_trichotomy taken.length taken'.length with hlt | heq | hlt
      · exact absurd hnext (by simp [hshorter' taken v rfl hlt])
      · obtain ⟨rfl, rfl⟩ := List.append_inj hsplit heq
        rw [hnext] at hn'
        obtain ⟨rfl, rfl⟩ := Prod.mk.inj (Option.some.inj hn')
        rfl
      -- a shorter stretch would have been taken before
      · obtain ⟨w, hw⟩ := hv
        have hnone :=
          hshorter taken' (v' ++ w) (by rw [← hw, ← List.append_assoc, hsplit]; simp) hlt
        exact absurd hn' (by simp [h.fails ⟨w, rfl⟩ hnone])

theorem Steady.blanks (h : Steady next) : Steady (blanks next) := .map h.most

end Recognizer

namespace Delimiters

open Recognizer

variable (d : Delimiters)

theorem steady_closed : Steady d.closed := .blanks (.literal (.done ()))

theorem closed_nil : d.closed [] = none := by
  have hlit : literal d.right (done ()) [] = none :=
    literal_eq_none fun h => d.right_ne_nil (List.prefix_nil.mp h)
  exact blanks_eq_none.mpr fun w t ht _ => by rw [(List.append_eq_nil_iff.mp ht.symm).2]; exact hlit

theorem steady_keyword (word : Text) : Steady (d.keyword word) := by
  have hempty : ∀ {s t : Text}, [] = s ++ t → t = [] :=
    fun h => (List.append_eq_nil_iff.mp h.symm).2
  refine .map (.literal (.wordEnd (.blanks (.fewest d.steady_closed)) (blanks_eq_none.mpr ?_)))
  intro w t ht _
  refine fewest_eq_none.mpr fun w' t' ht' _ => ?_
  rw [hempty ht] at ht'
  rw [hempty ht']
  exact d.closed_nil

theorem steady_conditionalTag : Steady d.conditionalTag :=
  .literal (.blanks (.orElse (.map (d.steady_keyword _)) (.orElse (.map (d.steady_keyword _))
    (.orElse (.map (d.steady_keyword _)) (.map (d.steady_keyword _))))))

end Delimiters

/-! ## The kind of a tag -/

namespace Conditional

/-- The word that a tag starts with. -/
def word : Conditional → Text
  | .opening _ => "if".toList
  | .branch (some _) => "elseif".toList
  | .branch none => "else".toList
  | .closing => "endif".toList

/-- Whether a tag opens or closes a conditional. -/
def sign (c : Conditional) : Bool × Bool := (c.isOpening, c.isClosing)

theorem word_mem (c : Conditional) :
    c.word ∈ ["if", "elseif", "else", "endif"].map String.toList := by
  cases c with
  | opening => exact .head _
  | branch condition? =>
    cases condition? with
    | none => exact .tail _ (.tail _ (.head _))
    | some => exact .tail _ (.head _)
  | closing => exact .tail _ (.tail _ (.tail _ (.head _)))

/-- The word of a tag tells its kind. -/
theorem sign_eq (c : Conditional) :
    c.sign = (decide (c.word = "if".toList), decide (c.word = "endif".toList)) := by
  rcases c with _ | (_ | _) | _ <;> rfl

end Conditional

namespace Delimiters

open Recognizer

variable {d : Delimiters} {s t lexeme : Text}

/-- A tag of a keyword goes on behind it, but not with a word. -/
theorem keyword_eq_some {word a : Text} (h : d.keyword word s = some (lexeme, a)) :
    ∃ rest, rest ≠ [] ∧ rest.head?.any isWordChar = false ∧ lexeme = word ++ rest := by
  obtain ⟨⟨a, u⟩, hlit, -⟩ := map_eq_some.mp h
  obtain ⟨t, l, -, rfl, hend⟩ := literal_eq_some.mp hlit
  obtain ⟨hword, hblanks⟩ := wordEnd_eq_some hend
  obtain ⟨front, rest, rfl, rfl⟩ := (Ends.blanks (.fewest d.ends_closed)) _ _ _ hblanks
  refine ⟨front ++ d.right, by simp [d.right_ne_nil], ?_, rfl⟩
  obtain ⟨c, v, hcv⟩ :=
    List.exists_cons_of_ne_nil (show front ++ d.right ≠ [] by simp [d.right_ne_nil])
  rw [hcv] at hword ⊢
  exact hword

/-- A tag of a conditional starts with the left delimiter, perhaps blanks, and the word of its
kind. -/
theorem conditionalTag_eq_some {c : Conditional} (h : d.conditionalTag s = some (lexeme, c)) :
    ∃ g rest, Blank g ∧ rest ≠ [] ∧ rest.head?.any isWordChar = false ∧
      lexeme = d.left ++ (g ++ (c.word ++ rest)) := by
  obtain ⟨t, l, -, rfl, hblanks⟩ := literal_eq_some.mp h
  obtain ⟨g, t, l, hg, -, rfl, hor, -⟩ := blanks_eq_some hblanks
  have hkey : ∀ {word : Text} {f : Text → Conditional}, (d.keyword word).map f t = some (l, c) →
      (∀ a, (f a).word = word) → ∃ rest, rest ≠ [] ∧ rest.head?.any isWordChar = false ∧
        l = c.word ++ rest := by
    intro word f hk hf
    obtain ⟨a, ha, rfl⟩ := map_eq_some.mp hk
    rw [hf]
    exact keyword_eq_some ha
  obtain ⟨rest, hne, hrest, rfl⟩ : ∃ rest, rest ≠ [] ∧ rest.head?.any isWordChar = false ∧
      l = c.word ++ rest := by
    rcases orElse_eq_some hor with hk | hor
    · exact hkey hk fun _ => rfl
    rcases orElse_eq_some hor with hk | hor
    · exact hkey hk fun _ => rfl
    rcases orElse_eq_some hor with hk | hk
    · exact hkey hk fun _ => rfl
    · exact hkey hk fun _ => rfl
  exact ⟨g, rest, hg, hne, hrest, rfl⟩

/-- What is put behind a tag does not change its kind. -/
theorem sign_eq_of_append {u : Text} {c c' : Conditional}
    (h : d.conditionalTag s = some (lexeme, c))
    (h' : d.conditionalTag (lexeme ++ t) = some (u, c')) : c'.sign = c.sign := by
  have hname : ∀ c : Conditional, c.word.all isNameChar = true ∧ c.word ≠ [] := by
    intro c
    have htable : ∀ w ∈ ["if", "elseif", "else", "endif"].map String.toList,
        w.all isNameChar = true ∧ w ≠ [] := by decide
    exact htable _ c.word_mem
  obtain ⟨g, rest, hg, hne, hrest, rfl⟩ := conditionalTag_eq_some h
  obtain ⟨front, back, hfront, hback⟩ := d.encloses_conditionalTag _ _ _ h'
  obtain ⟨g', rest', hg', hne', hrest', rfl⟩ := conditionalTag_eq_some h'
  have hsame : g ++ (c.word ++ (rest ++ t)) = g' ++ (c'.word ++ (rest' ++ back)) := by
    simpa using hback
  have hhead : ∀ {v w : Text}, v ≠ [] → v.head?.any isWordChar = false →
      (v ++ w).head?.any isWordChar = false := by
    intro v w hv hh
    obtain ⟨x, v, rfl⟩ := List.exists_cons_of_ne_nil hv
    exact hh
  have hleading := congrArg leadingWord hsame
  rw [leadingWord_fixed hg (hname c).1 (hname c).2 (hhead hne hrest),
    leadingWord_fixed hg' (hname c').1 (hname c').2 (hhead hne' hrest')] at hleading
  rw [Conditional.sign_eq, Conditional.sign_eq, hleading]

end Delimiters

end Stencil
