import Stencil.Proofs.Json.Members
import Stencil.Proofs.Json.RoundTrip
import Mathlib.Data.List.DropRight

/-!
# The notation of JSON

What stands in a text is told by a grammar without any limits: a value is a word, a string, a
number, or a row of items or members in brackets, with white space wherever a token may start.
Objects have every member that is written, so a key may come again.

The reader follows the grammar as far as arrays and objects may be nested: its fuel never runs
out. Of the members with one key it keeps the last, in the place of the first, so in what it
returns no object has a key twice.
-/

namespace Stencil.Json

variable {s t rest : Text} {v : Json} {fuel d : Nat}

/-! ## What is written -/

mutual

/-- A value is written at the front of a text, and something behind it. -/
inductive Written : Text → Json → Text → Prop
  | null {s rest : Text} (h : skip s = 'n' :: 'u' :: 'l' :: 'l' :: rest) : Written s .null rest
  | true {s rest : Text} (h : skip s = 't' :: 'r' :: 'u' :: 'e' :: rest) :
      Written s (.bool true) rest
  | false {s rest : Text} (h : skip s = 'f' :: 'a' :: 'l' :: 's' :: 'e' :: rest) :
      Written s (.bool false) rest
  | str {s t k rest : Text} (h : skip s = '"' :: t) (hstring : readString t = some (k, rest)) :
      Written s (.str (String.ofList k)) rest
  | number {s rest : Text} {v : Json} (h : readNumber (skip s) = some (v, rest)) : Written s v rest
  | noItems {s t rest : Text} (h : skip s = '[' :: t) (hclose : skip t = ']' :: rest) :
      Written s (.arr []) rest
  | items {s t rest : Text} {items : List Json} (h : skip s = '[' :: t)
      (hitems : ItemsWritten t items rest) : Written s (.arr items) rest
  | noMembers {s t rest : Text} (h : skip s = '\x7b' :: t) (hclose : skip t = '\x7d' :: rest) :
      Written s (.obj []) rest
  | members {s t rest : Text} {members : List (String × Json)} (h : skip s = '\x7b' :: t)
      (hmembers : MembersWritten t members rest) : Written s (.obj members) rest

/-- Items are written up to the bracket that closes them. -/
inductive ItemsWritten : Text → List Json → Text → Prop
  | last {s t rest : Text} {v : Json} (hvalue : Written s v t) (hclose : skip t = ']' :: rest) :
      ItemsWritten s [v] rest
  | cons {s t u rest : Text} {v : Json} {items : List Json} (hvalue : Written s v t)
      (hcomma : skip t = ',' :: u) (hitems : ItemsWritten u items rest) :
      ItemsWritten s (v :: items) rest

/-- Members are written up to the brace that closes them. -/
inductive MembersWritten : Text → List (String × Json) → Text → Prop
  | last {s t k u w x rest : Text} {v : Json} (hquote : skip s = '"' :: t)
      (hkey : readString t = some (k, u)) (hcolon : skip u = ':' :: w) (hvalue : Written w v x)
      (hclose : skip x = '\x7d' :: rest) : MembersWritten s [(String.ofList k, v)] rest
  | cons {s t k u w x y rest : Text} {v : Json} {members : List (String × Json)}
      (hquote : skip s = '"' :: t) (hkey : readString t = some (k, u)) (hcolon : skip u = ':' :: w)
      (hvalue : Written w v x) (hcomma : skip x = ',' :: y)
      (hmembers : MembersWritten y members rest) :
      MembersWritten s ((String.ofList k, v) :: members) rest

end

/-! ## Tokens -/

theorem skip_suffix (s : Text) : skip s <:+ s := List.dropWhile_suffix _

theorem skip_skip (s : Text) : skip (skip s) = skip s := List.dropWhile_idempotent isSpace s

theorem readFraction_suffix {fraction : Option Text} (h : readFraction s = some (fraction, rest)) :
    rest <:+ s := by
  unfold readFraction at h
  split at h
  · dsimp only at h
    split at h
    · cases h
    · cases h
      exact (List.dropWhile_suffix _).trans (List.suffix_cons _ _)
  · cases h
    exact List.suffix_refl _

theorem readExponent_suffix {exponent : Option Int}
    (h : readExponent s = some (exponent, rest)) : rest <:+ s := by
  unfold readExponent at h
  split at h
  · rename_i c s
    split at h
    · refine .trans ?_ (List.suffix_cons c s)
      split at h
      rename_i sign t hsign
      have ht : t <:+ s := by
        split at hsign
        · cases hsign
          exact List.suffix_cons _ _
        · cases hsign
          exact List.suffix_cons _ _
        · cases hsign
          exact List.suffix_refl _
      dsimp only at h
      split at h
      · cases h
      · cases h
        exact (List.dropWhile_suffix _).trans ht
    · cases h
      exact List.suffix_refl _
  · cases h
    exact List.suffix_refl _

/-- A value that is a number. -/
def IsNumber : Json → Prop
  | .int _ | .float _ => True
  | _ => False

theorem isNumber_ofWhole? {negative : Bool} {whole : Text} (h : ofWhole? negative whole = some v) :
    v.IsNumber := by
  unfold ofWhole? at h
  extract_lets n at h
  split at h
  · split at h
    · cases h
      trivial
    · obtain ⟨f, -, rfl⟩ := Option.map_eq_some_iff.mp h
      trivial
  · split at h
    · cases h
      trivial
    · obtain ⟨f, -, rfl⟩ := Option.map_eq_some_iff.mp h
      trivial

theorem readMagnitude_eq_some {negative : Bool} (h : readMagnitude negative s = some (v, rest)) :
    v.IsNumber ∧ rest <:+ s ∧ ∃ c ∈ s.head?, isDigit c = true := by
  unfold readMagnitude at h
  dsimp only at h
  split at h
  · cases h
  rename_i hwhole
  simp only [Option.bind_eq_bind, Option.bind_eq_some_iff, Prod.exists] at h
  obtain ⟨fraction, s₁, hfraction, exponent, s₂, hexponent, h⟩ := h
  have hsuffix : s₂ <:+ s :=
    (readExponent_suffix hexponent).trans
      ((readFraction_suffix hfraction).trans (List.dropWhile_suffix _))
  have hvalue : v.IsNumber ∧ rest = s₂ := by
    split at h
    · obtain ⟨w, hw, h⟩ := Option.bind_eq_some_iff.mp h
      cases h
      exact ⟨isNumber_ofWhole? hw, rfl⟩
    · obtain ⟨f, -, h⟩ := Option.bind_eq_some_iff.mp h
      cases h
      exact ⟨trivial, rfl⟩
  refine ⟨hvalue.1, hvalue.2 ▸ hsuffix, ?_⟩
  cases s with
  | nil => simp at hwhole
  | cons c s =>
    refine ⟨c, rfl, ?_⟩
    by_contra hc
    simp [hc] at hwhole

theorem readNumber_cases (s : Text) :
    (∃ t, s = '-' :: t ∧ readNumber s = readMagnitude true t) ∨
      readNumber s = readMagnitude false s := by
  by_cases h : ∃ t, s = '-' :: t
  · obtain ⟨t, rfl⟩ := h
    exact .inl ⟨t, rfl, rfl⟩
  · refine .inr ?_
    rw [readNumber]
    · rfl
    · exact fun t ht => h ⟨t, ht⟩

theorem readNumber_eq_some (h : readNumber s = some (v, rest)) :
    v.IsNumber ∧ rest <:+ s ∧ ∃ c ∈ s.head?, c = '-' ∨ isDigit c = true := by
  rcases readNumber_cases s with ⟨t, rfl, heq⟩ | heq
  · obtain ⟨hv, hsuffix, -⟩ := readMagnitude_eq_some (heq ▸ h)
    exact ⟨hv, hsuffix.trans (List.suffix_cons _ _), '-', rfl, .inl rfl⟩
  · obtain ⟨hv, hsuffix, c, hc, hdigit⟩ := readMagnitude_eq_some (heq ▸ h)
    exact ⟨hv, hsuffix, c, hc, .inr hdigit⟩

theorem readString_suffix {k : Text} (h : readString s = some (k, rest)) : rest <:+ s := by
  fun_induction readString s generalizing k rest with
  | case2 s =>
    cases h
    exact List.suffix_cons _ _
  | case5 a b c d n hn hhigh e f g i s m hm hlow ih =>
    obtain ⟨⟨k, r⟩, hread, h⟩ := Option.map_eq_some_iff.mp h
    cases h
    exact (ih hread).trans (List.suffix_append ['\\', 'u', a, b, c, d, '\\', 'u', e, f, g, i] s)
  | case9 a b c d s n hn hhigh hlow ih =>
    obtain ⟨⟨k, r⟩, hread, h⟩ := Option.map_eq_some_iff.mp h
    cases h
    exact (ih hread).trans (List.suffix_append ['\\', 'u', a, b, c, d] s)
  | case11 c s hu e he ih =>
    obtain ⟨⟨k, r⟩, hread, h⟩ := Option.map_eq_some_iff.mp h
    cases h
    exact (ih hread).trans (List.suffix_append ['\\', c] s)
  | case13 c s hquote hu hescape hplain ih =>
    obtain ⟨⟨k, r⟩, hread, h⟩ := Option.map_eq_some_iff.mp h
    cases h
    exact (ih hread).trans (List.suffix_cons c s)
  | _ => cases h

theorem IsNumber.settled_eq (h : v.IsNumber) : v.settled = v := by
  cases v <;> first | rfl | exact h.elim

theorem IsNumber.depth_eq (h : v.IsNumber) : v.depth = 0 := by
  cases v <;> first | rfl | exact h.elim

/-! ## White space in front -/

theorem readValue_skip (fuel d : Nat) (s : Text) :
    readValue fuel d (skip s) = readValue fuel d s := by
  cases fuel with
  | zero => rfl
  | succ fuel => rw [readValue, readValue, skip_skip]

theorem readItems_skip (fuel d : Nat) (s : Text) :
    readItems fuel d (skip s) = readItems fuel d s := by
  cases fuel with
  | zero => rfl
  | succ fuel => rw [readItems, readItems, readValue_skip]

theorem readMembers_skip (fuel d : Nat) (s : Text) :
    readMembers fuel d (skip s) = readMembers fuel d s := by
  cases fuel with
  | zero => rfl
  | succ fuel => rw [readMembers, readMembers, skip_skip]

/-! ## What the reader takes is written -/

mutual

theorem written_of_readValue : ∀ {fuel d : Nat} {s rest : Text} {v : Json},
    readValue fuel d s = some (v, rest) →
      ∃ raw, Written s raw rest ∧ raw.depth ≤ d ∧ raw.settled = v
  | 0, _, _, _, _, h => by cases h
  | fuel + 1, d, s, rest, v, h => by
    rw [readValue] at h
    split at h
    · cases h
      exact ⟨_, .null ‹_›, Nat.zero_le _, rfl⟩
    · cases h
      exact ⟨_, .true ‹_›, Nat.zero_le _, rfl⟩
    · cases h
      exact ⟨_, .false ‹_›, Nat.zero_le _, rfl⟩
    · obtain ⟨⟨k, u⟩, hread, h⟩ := Option.map_eq_some_iff.mp h
      cases h
      exact ⟨_, .str ‹_› hread, Nat.zero_le _, rfl⟩
    · rename_i t hopen
      cases d with
      | zero => cases h
      | succ d =>
        dsimp only at h
        split at h
        · cases h
          exact ⟨_, .noItems hopen ‹_›, Nat.succ_le_succ (Nat.zero_le d), rfl⟩
        · -- white space behind the bracket is skipped here, and would be in front of the item too
          rw [readItems_skip] at h
          obtain ⟨⟨items, u⟩, hread, h⟩ := Option.map_eq_some_iff.mp h
          cases h
          obtain ⟨raw, hraw, hdepth, rfl⟩ := written_of_readItems hread
          exact ⟨_, .items hopen hraw, Nat.succ_le_succ hdepth, rfl⟩
    · rename_i t hopen
      cases d with
      | zero => cases h
      | succ d =>
        dsimp only at h
        split at h
        · cases h
          exact ⟨_, .noMembers hopen ‹_›, Nat.succ_le_succ (Nat.zero_le d), rfl⟩
        · rw [readMembers_skip] at h
          obtain ⟨⟨members, u⟩, hread, h⟩ := Option.map_eq_some_iff.mp h
          cases h
          obtain ⟨raw, hraw, hdepth, rfl⟩ := written_of_readMembers hread
          exact ⟨_, .members hopen hraw, Nat.succ_le_succ hdepth, rfl⟩
    · obtain ⟨hnumber, -, -⟩ := readNumber_eq_some h
      exact ⟨v, .number h, hnumber.depth_eq ▸ Nat.zero_le d, hnumber.settled_eq⟩

theorem written_of_readItems : ∀ {fuel d : Nat} {s rest : Text} {items : List Json},
    readItems fuel d s = some (items, rest) →
      ∃ raw, ItemsWritten s raw rest ∧ itemsDepth raw ≤ d ∧ itemsSettled raw = items
  | 0, _, _, _, _, h => by cases h
  | fuel + 1, d, s, rest, items, h => by
    rw [readItems] at h
    split at h
    · cases h
    rename_i v t hread
    obtain ⟨raw, hraw, hdepth, rfl⟩ := written_of_readValue hread
    split at h
    · obtain ⟨⟨items, u⟩, hread, h⟩ := Option.map_eq_some_iff.mp h
      cases h
      obtain ⟨rawItems, hitems, hdepths, rfl⟩ := written_of_readItems hread
      exact ⟨_, .cons hraw ‹_› hitems, Nat.max_le.mpr ⟨hdepth, hdepths⟩, rfl⟩
    · cases h
      exact ⟨_, .last hraw ‹_›, Nat.max_le.mpr ⟨hdepth, Nat.zero_le d⟩, rfl⟩
    · cases h

theorem written_of_readMembers : ∀ {fuel d : Nat} {s rest : Text} {members : List (String × Json)},
    readMembers fuel d s = some (members, rest) →
      ∃ raw, MembersWritten s raw rest ∧ membersDepth raw ≤ d ∧ membersSettled raw = members
  | 0, _, _, _, _, h => by cases h
  | fuel + 1, d, s, rest, members, h => by
    rw [readMembers] at h
    split at h
    swap
    · cases h
    split at h
    · cases h
    split at h
    swap
    · cases h
    split at h
    · cases h
    rename_i w v x hread
    obtain ⟨raw, hraw, hdepth, rfl⟩ := written_of_readValue hread
    dsimp only at h
    split at h
    · obtain ⟨⟨members, u⟩, hread, h⟩ := Option.map_eq_some_iff.mp h
      cases h
      obtain ⟨rawMembers, hmembers, hdepths, rfl⟩ := written_of_readMembers hread
      exact ⟨_, .cons ‹_› ‹_› ‹_› hraw ‹_› hmembers, Nat.max_le.mpr ⟨hdepth, hdepths⟩, rfl⟩
    · cases h
      exact ⟨_, .last ‹_› ‹_› ‹_› hraw ‹_›, Nat.max_le.mpr ⟨hdepth, Nat.zero_le d⟩, rfl⟩
    · cases h

end

/-! ## What is written is read -/

/-- Every sign takes up room. -/
theorem length_lt_of_skip {c : Char} (h : skip s = c :: t) : t.length < s.length := by
  have hlength := (skip_suffix s).length_le
  rw [h, List.length_cons] at hlength
  omega

theorem length_lt_of_member {k u w : Text} (hquote : skip s = '"' :: t)
    (hkey : readString t = some (k, u)) (hcolon : skip u = ':' :: w) : w.length < s.length := by
  have hquote := length_lt_of_skip hquote
  have hkey := (readString_suffix hkey).length_le
  have hcolon := length_lt_of_skip hcolon
  omega

mutual

theorem Written.length_le : ∀ {s rest : Text} {v : Json}, Written s v rest → rest.length ≤ s.length
  | s, _, _, .null h | s, _, _, .true h | s, _, _, .false h => by
    have hlength := (skip_suffix s).length_le
    rw [h] at hlength
    simp only [List.length_cons] at hlength
    omega
  | s, _, _, .str h hstring => by
    have hlength := length_lt_of_skip h
    have hstring := (readString_suffix hstring).length_le
    omega
  | s, _, _, .number h => ((readNumber_eq_some h).2.1.trans (skip_suffix s)).length_le
  | s, _, _, .noItems h hclose | s, _, _, .noMembers h hclose => by
    have hopen := length_lt_of_skip h
    have hclose := length_lt_of_skip hclose
    omega
  | s, _, _, .items h hitems => by
    have hopen := length_lt_of_skip h
    have hitems := hitems.length_le
    omega
  | s, _, _, .members h hmembers => by
    have hopen := length_lt_of_skip h
    have hmembers := hmembers.length_le
    omega

theorem ItemsWritten.length_le : ∀ {s rest : Text} {items : List Json},
    ItemsWritten s items rest → rest.length ≤ s.length
  | _, _, _, .last hvalue hclose => by
    have hvalue := hvalue.length_le
    have hclose := length_lt_of_skip hclose
    omega
  | _, _, _, .cons hvalue hcomma hitems => by
    have hvalue := hvalue.length_le
    have hcomma := length_lt_of_skip hcomma
    have hitems := hitems.length_le
    omega

theorem MembersWritten.length_le : ∀ {s rest : Text} {members : List (String × Json)},
    MembersWritten s members rest → rest.length ≤ s.length
  | _, _, _, .last hquote hkey hcolon hvalue hclose => by
    have hmember := length_lt_of_member hquote hkey hcolon
    have hvalue := hvalue.length_le
    have hclose := length_lt_of_skip hclose
    omega
  | _, _, _, .cons hquote hkey hcolon hvalue hcomma hmembers => by
    have hmember := length_lt_of_member hquote hkey hcolon
    have hvalue := hvalue.length_le
    have hcomma := length_lt_of_skip hcomma
    have hmembers := hmembers.length_le
    omega

end

/-- No value starts with a closing bracket. -/
theorem Written.ne_bracket (h : Written s v rest) : skip s ≠ ']' :: t := by
  intro hbracket
  cases h with
  | number h =>
    obtain ⟨-, -, c, hc, hfirst⟩ := readNumber_eq_some h
    rw [hbracket] at hc
    obtain rfl := Option.some.inj hc
    exact absurd hfirst (by decide)
  | null h | true h | false h | str h | noItems h | items h | noMembers h | members h =>
    rw [hbracket] at h
    exact absurd (List.cons.inj h).1 (by decide)

theorem ItemsWritten.ne_bracket {items : List Json} (h : ItemsWritten s items rest) :
    skip s ≠ ']' :: t := by
  cases h with
  | last hvalue => exact hvalue.ne_bracket
  | cons hvalue => exact hvalue.ne_bracket

theorem MembersWritten.ne_brace {members : List (String × Json)}
    (h : MembersWritten s members rest) : skip s ≠ '\x7d' :: t := by
  intro hbrace
  cases h with
  | last hquote | cons hquote =>
    rw [hbrace] at hquote
    exact absurd (List.cons.inj hquote).1 (by decide)

theorem readValue_str (h : skip s = '"' :: t) :
    readValue (fuel + 1) d s = (readString t).map fun p => (.str (String.ofList p.1), p.2) := by
  rw [readValue, h]
  rfl

theorem readValue_number (h : readNumber (skip s) = some (v, rest)) :
    readValue (fuel + 1) d s = some (v, rest) := by
  obtain ⟨-, -, c, hc, hfirst⟩ := readNumber_eq_some h
  rw [readValue]
  split
  case h_7 => exact h
  all_goals
    rename_i heq
    rw [heq] at hc
    obtain rfl := Option.some.inj hc
    exact absurd hfirst (by decide)

theorem readValue_arr (h : skip s = '[' :: t) :
    readValue (fuel + 1) (d + 1) s =
      match skip t with
      | ']' :: rest => some (.arr [], rest)
      | _ => (readItems fuel d t).map fun p => (.arr p.1, p.2) := by
  rw [readValue, h, ← readItems_skip]
  show (match skip t with
    | ']' :: rest => some (.arr [], rest)
    | u => (readItems fuel d u).map fun p => (.arr p.1, p.2) : Option (Json × Text)) = _
  split <;> rfl

theorem readValue_obj (h : skip s = '\x7b' :: t) :
    readValue (fuel + 1) (d + 1) s =
      match skip t with
      | '\x7d' :: rest => some (.obj [], rest)
      | _ => (readMembers fuel d t).map fun p => (.obj (Dict.ofEntries p.1), p.2) := by
  rw [readValue, h, ← readMembers_skip]
  show (match skip t with
    | '\x7d' :: rest => some (.obj [], rest)
    | u => (readMembers fuel d u).map fun p => (.obj (Dict.ofEntries p.1), p.2) :
      Option (Json × Text)) = _
  split <;> rfl

theorem ItemsWritten.readValue_eq {items : List Json} (hitems : ItemsWritten t items rest)
    (h : skip s = '[' :: t) :
    readValue (fuel + 1) (d + 1) s = (readItems fuel d t).map fun p => (.arr p.1, p.2) := by
  rw [readValue_arr h]
  split
  · exact absurd ‹_› hitems.ne_bracket
  · rfl

theorem MembersWritten.readValue_eq {members : List (String × Json)}
    (hmembers : MembersWritten t members rest) (h : skip s = '\x7b' :: t) :
    readValue (fuel + 1) (d + 1) s =
      (readMembers fuel d t).map fun p => (.obj (Dict.ofEntries p.1), p.2) := by
  rw [readValue_obj h]
  split
  · exact absurd ‹_› hmembers.ne_brace
  · rfl

section Member

variable {k u w x y : Text} (hquote : skip s = '"' :: t) (hkey : readString t = some (k, u))
  (hcolon : skip u = ':' :: w)

include hquote hkey hcolon

theorem readMembers_none (hvalue : readValue fuel d w = none) :
    readMembers (fuel + 1) d s = none := by
  rw [readMembers, hquote]
  simp only [hkey, hcolon, hvalue]

theorem readMembers_last (hvalue : readValue fuel d w = some (v, x))
    (hclose : skip x = '\x7d' :: rest) :
    readMembers (fuel + 1) d s = some ([(String.ofList k, v)], rest) := by
  rw [readMembers, hquote]
  simp only [hkey, hcolon, hvalue, hclose]

theorem readMembers_cons (hvalue : readValue fuel d w = some (v, x)) (hcomma : skip x = ',' :: y) :
    readMembers (fuel + 1) d s =
      (readMembers fuel d y).map fun p => ((String.ofList k, v) :: p.1, p.2) := by
  rw [readMembers, hquote]
  simp only [hkey, hcolon, hvalue, hcomma]

end Member

mutual

/-- **What is written is read**, as far as the reader goes into arrays and objects. -/
theorem Written.readValue_eq :
    ∀ (fuel : Nat) {d : Nat} {s rest : Text} {v : Json}, Written s v rest →
    v.depth ≤ d → 2 * s.length < fuel → readValue fuel d s = some (v.settled, rest)
  | fuel + 1, d, s, rest, _, .null h, _, _ | fuel + 1, d, s, rest, _, .true h, _, _
  | fuel + 1, d, s, rest, _, .false h, _, _ => by
    rw [readValue, h]
    rfl
  | fuel + 1, d, s, rest, _, .str h hstring, _, _ => by
    rw [readValue_str h, hstring]
    rfl
  | fuel + 1, d, s, rest, v, .number h, _, _ => by
    rw [readValue_number h, (readNumber_eq_some h).1.settled_eq]
  | fuel + 1, d + 1, s, rest, _, .noItems h hclose, _, _ => by
    rw [readValue_arr h, hclose]
    rfl
  | fuel + 1, d + 1, s, rest, _, .items h hitems, hd, hfuel => by
    -- the bracket is one sign less to read, which leaves fuel for the list and for the items in it
    have hlength := length_lt_of_skip h
    have hread := hitems.readItems_eq fuel (Nat.le_of_succ_le_succ hd) (by omega)
    rw [hitems.readValue_eq h, hread]
    rfl
  | fuel + 1, d + 1, s, rest, _, .noMembers h hclose, _, _ => by
    rw [readValue_obj h, hclose]
    rfl
  | fuel + 1, d + 1, s, rest, _, .members h hmembers, hd, hfuel => by
    have hlength := length_lt_of_skip h
    have hread := hmembers.readMembers_eq fuel (Nat.le_of_succ_le_succ hd) (by omega)
    rw [hmembers.readValue_eq h, hread]
    rfl
  | _, 0, _, _, _, .noItems .., hd, _ | _, 0, _, _, _, .items .., hd, _
  | _, 0, _, _, _, .noMembers .., hd, _ | _, 0, _, _, _, .members .., hd, _ => by
    cases hd
  | 0, _, _, _, _, _, _, hfuel => by cases hfuel

theorem ItemsWritten.readItems_eq : ∀ (fuel : Nat) {d : Nat} {s rest : Text} {items : List Json},
    ItemsWritten s items rest → itemsDepth items ≤ d → 2 * s.length + 1 < fuel →
      readItems fuel d s = some (itemsSettled items, rest)
  | fuel + 1, d, s, rest, _, .last hvalue hclose, hd, hfuel => by
    have hread := hvalue.readValue_eq fuel (Nat.max_le.mp hd).1 (by omega)
    rw [readItems, hread]
    simp only [hclose]
    rfl
  | fuel + 1, d, s, rest, _, .cons hvalue hcomma hitems, hd, hfuel => by
    have hlength := hvalue.length_le
    have hlength' := length_lt_of_skip hcomma
    have hread := hvalue.readValue_eq fuel (Nat.max_le.mp hd).1 (by omega)
    have hreadItems := hitems.readItems_eq fuel (Nat.max_le.mp hd).2 (by omega)
    rw [readItems, hread]
    simp only [hcomma, hreadItems]
    rfl
  | 0, _, _, _, _, _, _, hfuel => by cases hfuel

theorem MembersWritten.readMembers_eq : ∀ (fuel : Nat) {d : Nat} {s rest : Text}
    {members : List (String × Json)}, MembersWritten s members rest → membersDepth members ≤ d →
      2 * s.length + 1 < fuel → readMembers fuel d s = some (membersSettled members, rest)
  | fuel + 1, d, s, rest, _, .last hquote hkey hcolon hvalue hclose, hd, hfuel => by
    have hlength := length_lt_of_member hquote hkey hcolon
    have hread := hvalue.readValue_eq fuel (Nat.max_le.mp hd).1 (by omega)
    exact readMembers_last hquote hkey hcolon hread hclose
  | fuel + 1, d, s, rest, _, .cons hquote hkey hcolon hvalue hcomma hmembers, hd, hfuel => by
    have hlength := length_lt_of_member hquote hkey hcolon
    have hlengthValue := hvalue.length_le
    have hlengthRest := length_lt_of_skip hcomma
    have hread := hvalue.readValue_eq fuel (Nat.max_le.mp hd).1 (by omega)
    have hreadMembers := hmembers.readMembers_eq fuel (Nat.max_le.mp hd).2 (by omega)
    rw [readMembers_cons hquote hkey hcolon hread hcomma, hreadMembers]
    rfl
  | 0, _, _, _, _, _, _, hfuel => by cases hfuel

end

theorem readValue_arr_zero (h : skip s = '[' :: t) : readValue (fuel + 1) 0 s = none := by
  rw [readValue, h]
  rfl

theorem readValue_obj_zero (h : skip s = '\x7b' :: t) : readValue (fuel + 1) 0 s = none := by
  rw [readValue, h]
  rfl

mutual

/-- **What is nested too deeply is refused.** -/
theorem Written.readValue_eq_none : ∀ (fuel : Nat) {d : Nat} {s rest : Text} {v : Json},
    Written s v rest → d < v.depth → 2 * s.length < fuel → readValue fuel d s = none
  | _, _, _, _, _, .null _, hd, _ | _, _, _, _, _, .true _, hd, _ | _, _, _, _, _, .false _, hd, _
  | _, _, _, _, _, .str _ _, hd, _ => by cases hd
  | _, _, _, _, _, .number h, hd, _ => by
    rw [(readNumber_eq_some h).1.depth_eq] at hd
    cases hd
  | fuel + 1, 0, _, _, _, .noItems h _, _, _ | fuel + 1, 0, _, _, _, .items h _, _, _ =>
    readValue_arr_zero h
  | fuel + 1, 0, _, _, _, .noMembers h _, _, _ | fuel + 1, 0, _, _, _, .members h _, _, _ =>
    readValue_obj_zero h
  | _, d + 1, _, _, _, .noItems _ _, hd, _ | _, d + 1, _, _, _, .noMembers _ _, hd, _ => by
    cases Nat.lt_of_succ_lt_succ hd
  | fuel + 1, d + 1, s, _, _, .items h hitems, hd, hfuel => by
    have hlength := length_lt_of_skip h
    have hread := hitems.readItems_eq_none fuel (Nat.lt_of_succ_lt_succ hd) (by omega)
    rw [hitems.readValue_eq h, hread]
    rfl
  | fuel + 1, d + 1, s, _, _, .members h hmembers, hd, hfuel => by
    have hlength := length_lt_of_skip h
    have hread := hmembers.readMembers_eq_none fuel (Nat.lt_of_succ_lt_succ hd) (by omega)
    rw [hmembers.readValue_eq h, hread]
    rfl
  | 0, _, _, _, _, _, _, hfuel => by cases hfuel

theorem ItemsWritten.readItems_eq_none : ∀ (fuel : Nat) {d : Nat} {s rest : Text}
    {items : List Json}, ItemsWritten s items rest → d < itemsDepth items →
      2 * s.length + 1 < fuel → readItems fuel d s = none
  | fuel + 1, d, s, rest, _, .last hvalue hclose, hd, hfuel => by
    rw [itemsDepth, itemsDepth, Nat.max_zero] at hd
    rw [readItems, hvalue.readValue_eq_none fuel hd (by omega)]
  | fuel + 1, d, s, rest, _, .cons (v := v) hvalue hcomma hitems, hd, hfuel => by
    have hlength := hvalue.length_le
    have hlength' := length_lt_of_skip hcomma
    rw [readItems]
    -- the items in front of the first that is too deep are read
    rcases Nat.lt_or_ge d v.depth with hdeep | hdepth
    · rw [hvalue.readValue_eq_none fuel hdeep (by omega)]
    · have hrest := (lt_max_iff.mp hd).resolve_left hdepth.not_gt
      rw [hvalue.readValue_eq fuel hdepth (by omega)]
      simp only [hcomma, hitems.readItems_eq_none fuel hrest (by omega)]
      rfl
  | 0, _, _, _, _, _, _, hfuel => by cases hfuel

theorem MembersWritten.readMembers_eq_none : ∀ (fuel : Nat) {d : Nat} {s rest : Text}
    {members : List (String × Json)}, MembersWritten s members rest → d < membersDepth members →
      2 * s.length + 1 < fuel → readMembers fuel d s = none
  | fuel + 1, d, s, rest, _, .last hquote hkey hcolon hvalue hclose, hd, hfuel => by
    have hlength := length_lt_of_member hquote hkey hcolon
    rw [membersDepth, membersDepth, Nat.max_zero] at hd
    exact readMembers_none hquote hkey hcolon (hvalue.readValue_eq_none fuel hd (by omega))
  | fuel + 1, d, s, rest, _, .cons (v := v) hquote hkey hcolon hvalue hcomma hmembers, hd,
      hfuel => by
    have hlength := length_lt_of_member hquote hkey hcolon
    have hlengthValue := hvalue.length_le
    have hlengthRest := length_lt_of_skip hcomma
    rcases Nat.lt_or_ge d v.depth with hdeep | hdepth
    · exact readMembers_none hquote hkey hcolon (hvalue.readValue_eq_none fuel hdeep (by omega))
    · have hrest := (lt_max_iff.mp hd).resolve_left hdepth.not_gt
      have hread := hvalue.readValue_eq fuel hdepth (by omega)
      rw [readMembers_cons hquote hkey hcolon hread hcomma,
        hmembers.readMembers_eq_none fuel hrest (by omega)]
      rfl
  | 0, _, _, _, _, _, _, hfuel => by cases hfuel

end

/-- A text that is a value and nothing else. -/
def IsText (s : Text) (v : Json) : Prop := ∃ rest, Written s v rest ∧ skip rest = []

/-- **The reader reads what is written.** The texts it accepts are those of values that are not
nested too deeply, and its answer is the value that is meant. -/
theorem parse?_eq_some_iff :
    parse? s = some v ↔ ∃ raw, IsText s raw ∧ raw.depth ≤ maxDepth ∧ raw.settled = v := by
  rw [parse?]
  constructor
  · intro h
    split at h
    · rename_i w rest hread
      split at h
      · rename_i hrest
        obtain rfl := Option.some.inj h
        obtain ⟨raw, hraw, hdepth, hsettled⟩ := written_of_readValue hread
        exact ⟨raw, ⟨rest, hraw, List.isEmpty_iff.mp hrest⟩, hdepth, hsettled⟩
      · cases h
    · cases h
  · rintro ⟨raw, ⟨rest, hraw, hrest⟩, hdepth, rfl⟩
    have hread := hraw.readValue_eq (2 * s.length + 2) hdepth (by omega)
    rw [hread]
    simp only [hrest]
    rfl

theorem parse?_eq_none (h : IsText s v) (hdepth : maxDepth < v.depth) : parse? s = none := by
  obtain ⟨rest, hwritten, -⟩ := h
  rw [parse?, hwritten.readValue_eq_none (2 * s.length + 2) hdepth (by omega)]

theorem keysOnce_parse? (h : parse? s = some v) : v.KeysOnce := by
  obtain ⟨raw, -, -, rfl⟩ := parse?_eq_some_iff.mp h
  exact keysOnce_settled raw

end Stencil.Json
