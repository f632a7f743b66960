import Stencil.Proofs.Dict
import Stencil.Proofs.Json.Text

/-!
# JSON reads back

The text of a value without doubles is read as that value, whatever stands behind it: a string stops
at its quote, a number before the comma or bracket that ends it, and lists and objects are read item
by item. Keys keep their order because no key comes twice. The reader's fuel is counted in
characters of the text, and its depth in brackets that are still open.
-/

namespace Stencil.Json

mutual

/-- Reading the text gives the value back: integers have 64 bits, no number is a double, and in no
object a key occurs twice. -/
def Exact : Json → Prop
  | .int n => Int64.minValue.toInt ≤ n ∧ n < UInt64.size
  | .float _ => False
  | .arr items => ItemsExact items
  | .obj members => Dict.KeysUnique members ∧ MembersExact members
  | _ => True

/-- The same for every item. -/
def ItemsExact : List Json → Prop
  | [] => True
  | v :: rest => v.Exact ∧ ItemsExact rest

/-- The same for every member. -/
def MembersExact : List (String × Json) → Prop
  | [] => True
  | (_, v) :: rest => v.Exact ∧ MembersExact rest

end

mutual

/-- How deep arrays and objects are nested. -/
def depth : Json → Nat
  | .arr items => itemsDepth items + 1
  | .obj members => membersDepth members + 1
  | _ => 0

/-- How deep the deepest item is nested. -/
def itemsDepth : List Json → Nat
  | [] => 0
  | v :: rest => max v.depth (itemsDepth rest)

/-- How deep the deepest member is nested. -/
def membersDepth : List (String × Json) → Nat
  | [] => 0
  | (_, v) :: rest => max v.depth (membersDepth rest)

end

mutual

theorem Exact.isFinite : ∀ {a : Json}, a.Exact → a.isFinite = true
  | .arr _, h => ItemsExact.itemsFinite h
  | .obj _, h => MembersExact.membersFinite h.2
  | .float _, h => h.elim
  | .null, _ => rfl
  | .bool _, _ => rfl
  | .int _, _ => rfl
  | .str _, _ => rfl

theorem ItemsExact.itemsFinite : ∀ {items : List Json}, ItemsExact items →
    Json.itemsFinite items = true
  | [], _ => rfl
  | _ :: _, h => Bool.and_eq_true_iff.mpr ⟨h.1.isFinite, h.2.itemsFinite⟩

theorem MembersExact.membersFinite : ∀ {members : List (String × Json)}, MembersExact members →
    Json.membersFinite members = true
  | [], _ => rfl
  | (_, _) :: _, h => Bool.and_eq_true_iff.mpr ⟨h.1.isFinite, h.2.membersFinite⟩

end

/-! ## Where a value starts -/

variable {a : Json} {s : Text}

theorem skip_cons {c : Char} (hc : isSpace c = false) (s : Text) : skip (c :: s) = c :: s := by
  unfold skip
  rw [List.dropWhile_cons, if_neg (by simp [hc])]

/-- No white space stands in front of a value, and no closing bracket. -/
theorem exists_text_front (h : a.Exact) :
    ∃ c r, a.text = c :: r ∧ isSpace c = false ∧ c ≠ ']' := by
  obtain ⟨c, r, hcr, hopen⟩ := exists_text_eq_cons h.isFinite
  refine ⟨c, r, hcr, ?_⟩
  by_cases hc : isPlainChar c = true
  · -- words and numbers have neither
    constructor
    · by_contra hspace
      rw [Bool.not_eq_false] at hspace
      simp only [isSpace, Bool.or_eq_true, decide_eq_true_eq] at hspace
      rcases hspace with ((rfl | rfl) | rfl) | rfl <;> exact absurd hc (by decide)
    · rintro rfl
      exact absurd hc (by decide)
  · rw [if_neg hc] at hopen
    cases a with
    | null | bool _ | int _ | float _ => cases hopen
    | str _ | arr _ | obj _ =>
      obtain rfl := Option.some.inj hopen
      exact ⟨by decide, by decide⟩

theorem length_text_pos (h : a.Exact) : 0 < a.text.length := by
  obtain ⟨c, r, hcr, -, -⟩ := exists_text_front h
  rw [hcr]
  exact Nat.succ_pos _

/-! ## Numbers -/

theorem ends_stops (hs : Ends s) : ∀ c ∈ s.head?, isDigit c = false := by
  intro c hc
  rcases hs c hc with rfl | rfl | rfl <;> decide

/-- Reads what follows the sign of a number. -/
def readMagnitude (negative : Bool) (s : Text) : Option (Json × Text) := do
  let whole := s.takeWhile isDigit
  if whole.isEmpty || (whole.length > 1 && whole.head? = some '0') then none
  let (fraction, s) ← readFraction (s.dropWhile isDigit)
  let (exponent, s) ← readExponent s
  if fraction.isNone && exponent.isNone then
    return (← ofWhole? negative whole, s)
  let f ← floatOf? whole (fraction.getD []) (exponent.getD 0)
  return (.float (Decimal.signed negative f), s)

/-- The sign is taken off first. -/
theorem readNumber_eq (negative : Bool) {d : Char} (hd : isDigit d = true) (s : Text) :
    readNumber (if negative then '-' :: d :: s else d :: s) = readMagnitude negative (d :: s) := by
  cases negative with
  | true => rfl
  | false =>
    rw [if_neg Bool.false_ne_true, readNumber]
    · rfl
    · rintro t ht
      obtain rfl := (List.cons.inj ht).1
      cases hd

/-- Behind a number neither a fraction nor an exponent is read. -/
theorem readNumber_whole {w : Text} (hw : w.all isDigit = true) (hne : w ≠ [])
    (hzero : w.length > 1 → w.head? ≠ some '0') (hs : Ends s) (negative : Bool) :
    readNumber ((if negative then '-' :: w else w) ++ s) =
      (ofWhole? negative w).map fun v => (v, s) := by
  obtain ⟨htake, hdrop⟩ := Decimal.span_append hw (ends_stops hs)
  have hguard : (w.isEmpty || (decide (w.length > 1) && decide (w.head? = some '0'))) = false := by
    rw [Bool.or_eq_false_iff]
    refine ⟨by simpa using hne, ?_⟩
    by_cases hlen : w.length > 1
    · simp [hlen, hzero hlen]
    · simp [hlen]
  have hfraction : readFraction s = some (none, s) := by
    unfold readFraction
    split
    · rcases hs '.' rfl with h | h | h <;> exact absurd h (by decide)
    · rfl
  have hexponent : readExponent s = some (none, s) := by
    cases s with
    | nil => rfl
    | cons c s =>
      have hc : ¬ (c = 'e' || c = 'E') = true := by
        rcases hs c rfl with rfl | rfl | rfl <;> decide
      unfold readExponent
      exact if_neg hc
  have hsign : readNumber ((if negative then '-' :: w else w) ++ s) =
      readMagnitude negative (w ++ s) := by
    obtain ⟨d, w, rfl⟩ := List.exists_cons_of_ne_nil hne
    rw [List.all_cons, Bool.and_eq_true] at hw
    rw [List.cons_append, ← readNumber_eq negative hw.1]
    cases negative <;> rfl
  unfold readMagnitude at hsign
  rw [hsign, htake, hdrop, hfraction]
  simp only [hguard, Option.bind_eq_bind, Option.bind_some, hexponent]
  cases ofWhole? negative w <;> rfl

/-- An integer of 64 bits reads back. -/
theorem readNumber_int {n : Int} (hlow : Int64.minValue.toInt ≤ n) (hhigh : n < UInt64.size)
    (hs : Ends s) : readNumber (Decimal.intText n ++ s) = some (.int n, s) := by
  have hwhole : ∀ (negative : Bool) (m : Nat),
      readNumber ((if negative then '-' :: Decimal.natText m else Decimal.natText m) ++ s) =
        (ofWhole? negative (Decimal.natText m)).map fun v => (v, s) := by
    intro negative m
    refine readNumber_whole (Decimal.all_isDigit_natText m)
      (Decimal.natText_ne_nil m) ?_ hs negative
    intro hlen
    refine Decimal.head_natText_ne_zero (Nat.pos_of_ne_zero ?_)
    rintro rfl
    exact absurd hlen (by decide)
  cases n with
  | ofNat m =>
    have hm : m < UInt64.size := Int.ofNat_lt.mp hhigh
    have hvalue : ofWhole? false (Decimal.natText m) = some (.int m) := by
      simp [ofWhole?, Decimal.natOfDigits_natText, hm]
    have h := hwhole false m
    rw [hvalue] at h
    exact h
  | negSucc m =>
    have hvalue : ofWhole? true (Decimal.natText (m + 1)) = some (.int (Int.negSucc m)) := by
      have hlow' : Int64.minValue.toInt ≤ -((m + 1 : Nat) : Int) := hlow
      simp only [ofWhole?, Decimal.natOfDigits_natText, if_true]
      rw [if_pos (by simpa using hlow')]
      rfl
    have h := hwhole true (m + 1)
    rw [hvalue] at h
    exact h

/-! ## Values -/

theorem skip_text (h : a.Exact) (s : Text) : skip (a.text ++ s) = a.text ++ s := by
  obtain ⟨c, r, hcr, hc, -⟩ := exists_text_front h
  rw [hcr, List.cons_append, skip_cons hc]

theorem readValue_int {n : Int} (h : (Json.int n).Exact) (hs : Ends s) (fuel depth : Nat) :
    readValue (fuel + 1) depth (text (.int n) ++ s) = some (.int n, s) := by
  obtain ⟨c, r, hcr, -, hc⟩ := Decimal.intText_eq_cons n
  have hread := readNumber_int h.1 h.2 hs
  have hopen : text (.int n) ++ s = c :: (r ++ s) := by rw [text, hcr, List.cons_append]
  rw [hcr, List.cons_append] at hread
  rw [readValue, skip_text h, hopen]
  -- every other kind of value opens with a character that no number starts with
  split
  case h_7 => exact hread
  all_goals
    rename_i heq
    obtain rfl := (List.cons.inj heq).1
    rcases hc with hc | hc
    · exact absurd hc (by decide)
    · exact absurd hc.1 (by decide)

theorem readValue_items {c : Char} (hc : isSpace c = false) (hclosing : c ≠ ']') (fuel depth : Nat)
    (s : Text) : readValue (fuel + 1) (depth + 1) ('[' :: c :: s) =
      (readItems fuel depth (c :: s)).map fun p => (.arr p.1, p.2) := by
  rw [readValue, skip_cons (by decide)]
  simp only [skip_cons hc]
  split
  · rename_i heq
    exact absurd (List.cons.inj heq).1 hclosing
  · rfl

theorem readValue_members (fuel depth : Nat) (s : Text) :
    readValue (fuel + 1) (depth + 1) ('\x7b' :: '"' :: s) =
      (readMembers fuel depth ('"' :: s)).map fun p => (.obj (Dict.ofEntries p.1), p.2) := by
  rw [readValue, skip_cons (by decide)]
  simp only [skip_cons (show isSpace '"' = false by decide)]
  rfl

mutual

/-- **Values read back.** -/
theorem readValue_text : ∀ (a : Json) (fuel depth : Nat) (s : Text), a.Exact → a.depth ≤ depth →
    2 * a.text.length ≤ fuel → Ends s → readValue fuel depth (a.text ++ s) = some (a, s)
  | a, 0, depth, s, h, _, hfuel, _ => by
    have := length_text_pos h
    omega
  | .null, fuel + 1, depth, s, h, _, _, _ => by
    rw [readValue, skip_text h]
    rfl
  | .bool b, fuel + 1, depth, s, h, _, _, _ => by
    rw [readValue, skip_text h]
    cases b <;> rfl
  | .int n, fuel + 1, depth, s, h, _, _, hs => readValue_int h hs fuel depth
  | .str k, fuel + 1, depth, s, h, _, _, _ => by
    rw [readValue, skip_text h]
    show (readString (k.toList.flatMap escapeChar ++ ['"'] ++ s)).map _ = _
    rw [List.append_assoc, List.singleton_append, readString_written]
    simp
  | .float _, _ + 1, _, _, h, _, _, _ => h.elim
  | .arr [], fuel + 1, depth, s, h, hdepth, hfuel, _ => by
    rw [Json.depth] at hdepth
    obtain ⟨depth, rfl⟩ : ∃ d, depth = d + 1 := ⟨depth - 1, by omega⟩
    rfl
  | .arr (v :: rest), fuel + 1, depth, s, h, hdepth, hfuel, _ => by
    rw [Json.depth] at hdepth
    obtain ⟨depth, rfl⟩ : ∃ d, depth = d + 1 := ⟨depth - 1, by omega⟩
    have hread := readItems_text v rest fuel depth s h (by omega) (by
      simp only [text, List.length_append, List.length_cons, List.length_nil] at hfuel
      omega)
    obtain ⟨c, r, hcr, hc, hclosing⟩ := exists_text_front h.1
    have hopen : text (.arr (v :: rest)) ++ s = '[' :: (itemsText (v :: rest) ++ ']' :: s) := by
      simp [text]
    rw [itemsText_cons, hcr, List.cons_append] at hread hopen
    rw [hopen, readValue_items hc hclosing, hread]
    rfl
  | .obj [], fuel + 1, depth, s, h, hdepth, hfuel, _ => by
    rw [Json.depth] at hdepth
    obtain ⟨depth, rfl⟩ : ∃ d, depth = d + 1 := ⟨depth - 1, by omega⟩
    rfl
  | .obj ((k, v) :: rest), fuel + 1, depth, s, h, hdepth, hfuel, _ => by
    rw [Json.depth] at hdepth
    obtain ⟨depth, rfl⟩ : ∃ d, depth = d + 1 := ⟨depth - 1, by omega⟩
    have hread := readMembers_text k v rest fuel depth s h.2 (by omega) (by
      simp only [text, List.length_append, List.length_cons, List.length_nil] at hfuel
      omega)
    have hopen : text (.obj ((k, v) :: rest)) ++ s =
        '\x7b' :: (membersText ((k, v) :: rest) ++ '\x7d' :: s) := by
      simp [text]
    rw [membersText_cons, stringText, List.cons_append, List.cons_append] at hread hopen
    rw [hopen, readValue_members, hread, Option.map_some, Dict.ofEntries_eq_self h.1]

/-- Items read back, up to the closing bracket. -/
theorem readItems_text : ∀ (v : Json) (rest : List Json) (fuel depth : Nat) (s : Text),
    ItemsExact (v :: rest) → itemsDepth (v :: rest) ≤ depth →
    2 * (itemsText (v :: rest)).length + 1 ≤ fuel →
    readItems fuel depth (itemsText (v :: rest) ++ ']' :: s) = some (v :: rest, s)
  | v, rest, 0, depth, s, _, _, hfuel => by omega
  | v, rest, fuel + 1, depth, s, h, hdepth, hfuel => by
    rw [itemsDepth] at hdepth
    have hlength := congrArg List.length (itemsText_cons v rest [])
    simp only [List.length_append, List.length_singleton] at hlength
    have hafter : 0 < (afterItem rest []).length := by cases rest <;> exact Nat.succ_pos _
    have hv := readValue_text v fuel depth (afterItem rest s) h.1 (by omega) (by omega)
      (ends_afterItem rest s)
    rw [itemsText_cons, readItems, hv]
    cases rest with
    | nil => rfl
    | cons w rest =>
      have hpos := length_text_pos h.1
      rw [afterItem, List.length_cons, List.length_append, List.length_singleton] at hlength
      have hrest := readItems_text w rest fuel depth s h.2 (by omega) (by omega)
      show (readItems fuel depth (itemsText (w :: rest) ++ ']' :: s)).map _ = _
      rw [hrest]
      rfl

/-- Members read back, up to the closing brace. -/
theorem readMembers_text : ∀ (k : String) (v : Json) (rest : List (String × Json))
    (fuel depth : Nat) (s : Text), MembersExact ((k, v) :: rest) →
    membersDepth ((k, v) :: rest) ≤ depth → 2 * (membersText ((k, v) :: rest)).length + 1 ≤ fuel →
    readMembers fuel depth (membersText ((k, v) :: rest) ++ '\x7d' :: s) =
      some ((k, v) :: rest, s)
  | k, v, rest, 0, depth, s, _, _, hfuel => by omega
  | k, v, rest, fuel + 1, depth, s, h, hdepth, hfuel => by
    rw [membersDepth] at hdepth
    have hlength := congrArg List.length (membersText_cons k v rest [])
    simp only [List.length_append, List.length_cons, List.length_nil] at hlength
    have hafter : 0 < (afterMember rest []).length := by cases rest <;> exact Nat.succ_pos _
    have hv := readValue_text v fuel depth (afterMember rest s) h.1 (by omega) (by omega)
      (ends_afterMember rest s)
    have hkey := readString_written k.toList (':' :: (v.text ++ afterMember rest s))
    have hquote : stringText k ++ ':' :: (v.text ++ afterMember rest s) =
        '"' :: (k.toList.flatMap escapeChar ++ '"' :: ':' :: (v.text ++ afterMember rest s)) := by
      simp [stringText]
    rw [membersText_cons, hquote, readMembers, skip_cons (by decide)]
    simp only [hkey, skip_cons (show isSpace ':' = false by decide), hv, String.ofList_toList]
    cases rest with
    | nil => rfl
    | cons m rest =>
      obtain ⟨l, w⟩ := m
      rw [afterMember, List.length_cons, List.length_append, List.length_singleton] at hlength
      have hrest := readMembers_text l w rest fuel depth s h.2 (by omega) (by omega)
      show (readMembers fuel depth (membersText ((l, w) :: rest) ++ '\x7d' :: s)).map _ = _
      rw [hrest]
      rfl

end

/-- **Text that was written reads back.** -/
theorem parse?_text (h : a.Exact) (hdepth : a.depth ≤ maxDepth) : parse? a.text = some a := by
  have hread := readValue_text a (2 * a.text.length + 2) maxDepth [] h hdepth (by omega) ends_nil
  rw [List.append_nil] at hread
  rw [parse?, hread]
  rfl

end Stencil.Json
