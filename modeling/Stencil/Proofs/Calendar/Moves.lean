import Stencil.Calendar.Shift
import Stencil.Proofs.Decimal.Digits
import Stencil.Proofs.Text.Words
import Mathlib.Data.List.Basic

/-!
# Modifiers as rows of moves

The words of a modifier are read from left to right, and what they stand for is done on the way.
Here the reading is taken apart from the doing: the words stand for a row of moves, whatever point
in time they start from, and a modifier that can be read makes the moves of its words one after the
other.
-/

namespace Stencil.Calendar

/-- One move of a modifier. -/
inductive Move where
  /-- To the start of the day. -/
  | midnight
  /-- By an amount of a unit of time. -/
  | shift (amount : Int) (unit : Text)

/-- Makes a move. -/
def Move.run? (t : DateTime) : Move → Option DateTime
  | .midnight => some (.midnight t.date)
  | .shift amount unit => (Calendar.shift t amount unit).toOption

/-- The moves that a name of a day near today stands for. -/
def namedMoves? (name : String) : Option (List Move) :=
  match name with
  | "now" => some []
  | "today" | "midnight" => some [.midnight]
  | "tomorrow" => some [.midnight, .shift 1 "day".toList]
  | "yesterday" => some [.midnight, .shift (-1) "day".toList]
  | _ => none

/-- The moves of a row of words. -/
def moves? : List Text → Option (List Move)
  | [] => some []
  | word :: rest =>
    match namedMoves? (String.ofList word) with
    | some moves => (moves? rest).map (moves ++ ·)
    | none =>
      let (digits, unit) := splitAmount word
      match Decimal.readInt64? digits with
      | none => none
      | some amount =>
        if unit.isEmpty then
          match rest with
          | [] => none
          | unit :: rest => (moves? rest).map ([.shift amount.toInt unit] ++ ·)
        else (moves? rest).map ([.shift amount.toInt unit] ++ ·)

/-- Makes moves one after the other. -/
def runMoves? (t : DateTime) (moves : List Move) : Option DateTime := moves.foldlM Move.run? t

variable {t : DateTime} {word : Text} {rest : List Text} {moves : List Move}

theorem runMoves?_cons (t : DateTime) (move : Move) (moves : List Move) :
    runMoves? t (move :: moves) = (move.run? t).bind fun u => runMoves? u moves := rfl

theorem runMoves?_singleton (t : DateTime) (move : Move) : runMoves? t [move] = move.run? t := by
  rw [runMoves?_cons]
  cases move.run? t <;> rfl

theorem runMoves?_append (t : DateTime) (moves moves' : List Move) :
    runMoves? t (moves ++ moves') = (runMoves? t moves).bind fun u => runMoves? u moves' :=
  List.foldlM_append

theorem moves?_named (h : namedMoves? (String.ofList word) = some moves) (rest : List Text) :
    moves? (word :: rest) = (moves? rest).map (moves ++ ·) := by
  rw [moves?.eq_2, h]

/-- A word that is no name has to start with an amount. -/
theorem moves?_amount (h : namedMoves? (String.ofList word) = none) {digits unit : Text}
    (hsplit : splitAmount word = (digits, unit)) (rest : List Text) : moves? (word :: rest) =
      match Decimal.readInt64? digits with
      | none => none
      | some amount =>
        if unit.isEmpty then
          match rest with
          | [] => none
          | unit :: rest => (moves? rest).map ([.shift amount.toInt unit] ++ ·)
        else (moves? rest).map ([.shift amount.toInt unit] ++ ·) := by
  rw [moves?.eq_2, h]
  dsimp only
  rw [hsplit]

/-- Moves in front are made first. -/
theorem bind_runMoves? (front : List Move) (moves : Option (List Move)) (t : DateTime) :
    (moves.map (front ++ ·)).bind (runMoves? t) =
      (runMoves? t front).bind fun u => moves.bind (runMoves? u) := by
  cases moves with
  | none => rw [Option.map_none, Option.bind_none]; cases runMoves? t front <;> rfl
  | some moves => exact runMoves?_append t front moves

/-- A shift in front of words is a move in front of theirs. -/
theorem toOption_shift_bind {f : DateTime → Except FilterError DateTime}
    {moves : Option (List Move)} (h : ∀ u, (f u).toOption = moves.bind (runMoves? u)) (t : DateTime)
    (amount : Int) (unit : Text) : (shift t amount unit >>= f).toOption =
      (moves.map ([.shift amount unit] ++ ·)).bind (runMoves? t) := by
  rw [bind_runMoves?, runMoves?_singleton, Move.run?]
  cases shift t amount unit with
  | error e => rfl
  | ok u => exact h u

/-- **A modifier makes the moves of its words.** -/
theorem toOption_shiftByWords (modifier : String) (t : DateTime) (ws : List Text) :
    (shiftByWords modifier t ws).toOption = (moves? ws).bind (runMoves? t) := by
  -- one case for each name, then those of a word that has to start with an amount
  fun_induction shiftByWords modifier t ws with
  | case1 t => rfl
  | case2 t word rest hword ih =>
    have hnamed : namedMoves? (String.ofList word) = some [] := by rw [hword]; rfl
    rw [moves?_named hnamed, bind_runMoves?, ih]
    rfl
  | case3 t word rest hword ih =>
    have hnamed : namedMoves? (String.ofList word) = some [.midnight] := by rw [hword]; rfl
    rw [moves?_named hnamed, bind_runMoves?, ih]
    rfl
  | case4 t word rest hword ih =>
    have hnamed : namedMoves? (String.ofList word) = some [.midnight] := by rw [hword]; rfl
    rw [moves?_named hnamed, bind_runMoves?, ih]
    rfl
  | case5 t word rest hword ih =>
    have hnamed : namedMoves? (String.ofList word) = some [.midnight, .shift 1 "day".toList] := by
      rw [hword]; rfl
    rw [moves?_named hnamed, toOption_shift_bind ih]
    cases moves? rest <;> rfl
  | case6 t word rest hword ih =>
    have hnamed : namedMoves? (String.ofList word) =
        some [.midnight, .shift (-1) "day".toList] := by
      rw [hword]; rfl
    rw [moves?_named hnamed, toOption_shift_bind ih]
    cases moves? rest <;> rfl
  | case7 t word rest digits unit hsplit hdigits =>
    have hnamed : namedMoves? (String.ofList word) = none := by simp [namedMoves?, *]
    rw [moves?_amount hnamed hsplit, hdigits]
    rfl
  | case8 t word digits unit hsplit amount hamount hunit =>
    have hnamed : namedMoves? (String.ofList word) = none := by simp [namedMoves?, *]
    rw [moves?_amount hnamed hsplit, hamount]
    dsimp only
    rw [if_pos hunit]
    rfl
  | case9 t word digits blank hsplit amount hamount hblank unit rest _ _ _ _ _ ih =>
    have hnamed : namedMoves? (String.ofList word) = none := by simp [namedMoves?, *]
    rw [moves?_amount hnamed hsplit, hamount]
    dsimp only
    rw [if_pos hblank, toOption_shift_bind ih]
  | case10 t word rest digits unit hsplit amount hamount hunit _ _ _ _ _ ih =>
    have hnamed : namedMoves? (String.ofList word) = none := by simp [namedMoves?, *]
    rw [moves?_amount hnamed hsplit, hamount]
    dsimp only
    rw [if_neg hunit, toOption_shift_bind ih]

/-- Words that can be read stand for the same moves whatever follows them. -/
theorem moves?_append {a : List Text} {moves : List Move} (h : moves? a = some moves)
    (b : List Text) : moves? (a ++ b) = (moves? b).map (moves ++ ·) := by
  -- an amount at the very end has no unit, so nothing that follows could complete it
  fun_induction moves? a generalizing moves with
  | case1 =>
    obtain rfl := Option.some.inj h
    exact Option.map_id'.symm
  | case2 word rest front hnamed ih =>
    obtain ⟨back, hback, rfl⟩ := Option.map_eq_some_iff.mp h
    rw [List.cons_append, moves?_named hnamed, ih hback, Option.map_map]
    simp only [Function.comp_def, List.append_assoc]
  | case3 => cases h
  | case4 => cases h
  | case5 word hnamed digits blank hsplit amount hamount hblank unit rest ih =>
    obtain ⟨back, hback, rfl⟩ := Option.map_eq_some_iff.mp h
    rw [List.cons_append, List.cons_append, moves?_amount hnamed hsplit, hamount]
    dsimp only
    rw [if_pos hblank, ih hback, Option.map_map]
    simp only [Function.comp_def, List.append_assoc]
  | case6 word rest hnamed digits unit hsplit amount hamount hunit ih =>
    obtain ⟨back, hback, rfl⟩ := Option.map_eq_some_iff.mp h
    rw [List.cons_append, moves?_amount hnamed hsplit, hamount]
    dsimp only
    rw [if_neg hunit, ih hback, Option.map_map]
    simp only [Function.comp_def, List.append_assoc]

/-! ## Modifiers -/

theorem toOption_modify (t : DateTime) (modifier : String) : (modify t modifier).toOption =
    (moves? (Text.words (Text.lower modifier.toList))).bind (runMoves? t) :=
  toOption_shiftByWords _ _ _

/-- **Two modifiers with a space between them are one after the other**, if the first succeeds. -/
theorem toOption_modify_append {m₁ : String} {u : DateTime} (h : modify t m₁ = .ok u)
    (m₂ : String) : (modify t (m₁ ++ " " ++ m₂)).toOption = (modify u m₂).toOption := by
  have hfirst := toOption_modify t m₁
  rw [h] at hfirst
  obtain ⟨moves, hmoves, hu⟩ := Option.bind_eq_some_iff.mp hfirst.symm
  rw [toOption_modify, toOption_modify, Text.words_lower_append, moves?_append hmoves,
    bind_runMoves?, hu, Option.bind_some]

/-! ## Amounts -/

/-- An amount by itself is all of its word, which is no name. -/
theorem splitAmount_of_readInt64? {amount : Text} {n : Int64}
    (h : Decimal.readInt64? amount = some n) :
    splitAmount amount = (amount, []) ∧ namedMoves? (String.ofList amount) = none := by
  obtain ⟨m, hm, -⟩ := Option.bind_eq_some_iff.mp h
  obtain ⟨digits, hne, hdigits, hamount⟩ := Decimal.spelled_of_readInt? hm
  have hsplit := Decimal.span_append (t := []) hdigits (by simp)
  rw [List.append_nil] at hsplit
  obtain ⟨c, digits, rfl⟩ := List.exists_cons_of_ne_nil hne
  have hc : isDigit c = true := List.all_eq_true.mp hdigits c (by simp)
  obtain ⟨hplus, hminus⟩ := Decimal.ne_sign_of_isDigit hc
  constructor
  · rcases hamount with rfl | rfl | rfl
    · unfold splitAmount
      simp [hplus, hminus, hsplit]
    · simp [splitAmount, hsplit]
    · simp [splitAmount, hsplit]
  · -- no name has a digit in it
    have hmem : c ∈ amount := by rcases hamount with rfl | rfl | rfl <;> simp
    have hname : ∀ name : String, (name.toList.all fun d => !isDigit d) = true →
        String.ofList amount ≠ name := by
      rintro name hall rfl
      rw [String.toList_ofList] at hall
      simpa [hc] using List.all_eq_true.mp hall c hmem
    unfold namedMoves?
    split
    case h_6 => rfl
    all_goals exact absurd ‹_› (hname _ (by decide))

/-- An amount and its unit are shifted by. -/
theorem shiftByWords_amount {amount : Text} {n : Int64} (h : Decimal.readInt64? amount = some n)
    (modifier : String) (t : DateTime) (name : Text) (rest : List Text) :
    shiftByWords modifier t (amount :: name :: rest) =
      shift t n.toInt name >>= fun u => shiftByWords modifier u rest := by
  obtain ⟨hsplit, hnamed⟩ := splitAmount_of_readInt64? h
  unfold namedMoves? at hnamed
  split at hnamed
  case h_6 =>
    rw [shiftByWords.eq_2]
    simp only [*, List.isEmpty_nil, if_true]
  all_goals cases hnamed

/-- Digits and signs are plain. -/
theorem isPlain_of_readInt64? {amount : Text} {n : Int64}
    (h : Decimal.readInt64? amount = some n) :
    amount ≠ [] ∧ amount.all Text.isPlain = true := by
  obtain ⟨m, hm, -⟩ := Option.bind_eq_some_iff.mp h
  obtain ⟨digits, hne, hdigits, hamount⟩ := Decimal.spelled_of_readInt? hm
  have hplain : digits.all Text.isPlain = true := List.all_eq_true.mpr fun c hc =>
    Text.isPlain_of_isDigit (List.all_eq_true.mp hdigits c hc)
  rcases hamount with rfl | rfl | rfl
  · exact ⟨hne, hplain⟩
  · exact ⟨List.cons_ne_nil _ _, by rw [List.all_cons, hplain]; decide⟩
  · exact ⟨List.cons_ne_nil _ _, by rw [List.all_cons, hplain]; decide⟩

/-! ## Shifts -/

/-- A product is shifted by if it is small enough. -/
theorem total?_eq_some {most : Nat} (hmost : most < 2 ^ 63) {amount n m : Int} :
    total? most amount n = some m ↔ m = amount * n ∧ m.natAbs ≤ most := by
  unfold total? Decimal.toInt64?
  rw [Int64.toInt_minValue, Int64.toInt_maxValue]
  by_cases hrange : -2 ^ 63 ≤ amount * n ∧ amount * n ≤ 2 ^ 63 - 1
  · rw [if_pos hrange, Option.map_some, Int64.toInt_ofInt_of_le (by omega) (by omega),
      Option.filter_eq_some_iff, decide_eq_true_eq, Option.some.injEq]
    exact and_congr_left' eq_comm
  · rw [if_neg hrange]
    constructor
    · intro h
      cases h
    · rintro ⟨rfl, hle⟩
      omega

theorem total?_congr {most : Nat} {amount amount' n n' : Int} (h : amount * n = amount' * n') :
    total? most amount n = total? most amount' n' := by
  unfold total?
  rw [h]

/-- Adds an amount of a unit. -/
def Unit.add? (t : DateTime) (amount : Int) : Unit → Option DateTime
  | .months n => (total? maxMonths amount n).bind t.addMonths?
  | .seconds n => (total? maxSeconds amount n).bind t.addSeconds?

/-- A shift adds an amount of the unit of a name. -/
theorem shift_eq_add? {name : Text} {unit : Unit}
    (h : Unit.ofName? (String.ofList (singular name)) = some unit) (t : DateTime) (amount : Int) :
    shift t amount name =
      match unit.add? t amount with
      | some u => .ok u
      | none => .error (.shiftOutOfRange amount (String.ofList name)) := by
  unfold shift
  dsimp only
  rw [h]
  cases unit <;> rfl

theorem toOption_shift (t : DateTime) (amount : Int) (name : Text) :
    (shift t amount name).toOption =
      (Unit.ofName? (String.ofList (singular name))).bind fun unit => unit.add? t amount := by
  cases hunit : Unit.ofName? (String.ofList (singular name)) with
  | none =>
    unfold shift
    dsimp only
    rw [hunit]
    rfl
  | some unit =>
    rw [shift_eq_add? hunit, Option.bind_some]
    cases unit.add? t amount <;> rfl

/-- A plain name of a unit. -/
structure Unit.Named (unit : Unit) (name : String) : Prop where
  /-- The name is a word. -/
  ne_nil : name.toList ≠ []
  /-- The name is in lower case and has no blank in it. -/
  plain : name.toList.all Text.isPlain = true
  /-- The unit has the name, in the singular or the plural. -/
  names : Unit.ofName? (String.ofList (singular name.toList)) = some unit

/-- A modifier of one amount and a name of a unit adds so much of the unit. -/
theorem modify_amount {amount name : String} {n : Int64} {unit : Unit}
    (hamount : Decimal.readInt64? amount.toList = some n) (hname : unit.Named name) (t : DateTime) :
    modify t (amount ++ " " ++ name) =
      match unit.add? t n.toInt with
      | some u => .ok u
      | none => .error (.shiftOutOfRange n.toInt name) := by
  obtain ⟨hne, hplain⟩ := isPlain_of_readInt64? hamount
  unfold modify
  rw [Text.words_lower_append, Text.words_lower_of_isPlain hne hplain,
    Text.words_lower_of_isPlain hname.ne_nil hname.plain, List.singleton_append,
    shiftByWords_amount hamount, shift_eq_add? hname.names, String.ofList_toList]
  cases unit.add? t n.toInt <;> rfl

theorem modify_amount_eq_ok {amount name : String} {n : Int64} {unit : Unit}
    (hamount : Decimal.readInt64? amount.toList = some n) (hname : unit.Named name)
    {t u : DateTime} :
    modify t (amount ++ " " ++ name) = .ok u ↔ unit.add? t n.toInt = some u := by
  rw [modify_amount hamount hname]
  cases unit.add? t n.toInt <;> simp

theorem toOption_modify_amount {amount name : String} {n : Int64} {unit : Unit}
    (hamount : Decimal.readInt64? amount.toList = some n) (hname : unit.Named name)
    (t : DateTime) : (modify t (amount ++ " " ++ name)).toOption = unit.add? t n.toInt := by
  rw [modify_amount hamount hname]
  cases unit.add? t n.toInt <;> rfl

end Stencil.Calendar
