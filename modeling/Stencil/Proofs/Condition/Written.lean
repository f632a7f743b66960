import Stencil.Proofs.Condition.Grammar
import Stencil.Proofs.Condition.Lexemes

/-!
# Conditions read back as they are written

A condition can be written in many ways. Every operand that is made of others stands in parentheses,
and any operand may. Strings stand in either quote, negation and the connectives are signs or words,
and there may be blanks between any two tokens; words stand between blanks. Whichever way is taken,
the text reads back as the condition that was written.
-/

namespace Stencil

/-- A condition of which every literal has a notation, and every path is one that is no keyword. -/
def Expr.Expressible : Expr → Prop
  | .literal v =>
    match v with
    | .null | .bool _ | .int _ | .str _ => True
    | .float _ | .list _ | .object _ => False
  | .path p => IsPath p ∧ p ∉ Condition.keywords
  | .not e => e.Expressible
  | .compare l _ r => l.Expressible ∧ r.Expressible
  | .and l r => l.Expressible ∧ r.Expressible
  | .or l r => l.Expressible ∧ r.Expressible

namespace Condition

/-! ## The written forms -/

/-- The sign of a comparison. -/
def comparisonSign : Comparison → Text
  | .eq => ['=', '=']
  | .ne => ['!', '=']
  | .lt => ['<']
  | .gt => ['>']
  | .le => ['<', '=']
  | .ge => ['>', '=']

/-- How a literal or a path is written. -/
inductive Atom : Expr → Text → Prop where
  /-- Null. -/
  | null : Atom (.literal .null) "null".toList
  /-- A truth value. -/
  | bool (b : Bool) : Atom (.literal (.bool b)) (if b then "true" else "false").toList
  /-- An integer in decimal. -/
  | int (n : Int64) : Atom (.literal (.int n)) (Decimal.intText n.toInt)
  /-- A string between quotes of either kind, with backslashes in front of that quote and of
  backslashes. -/
  | string (s : Text) {quote : Char} (hquote : quote ∈ quotes) :
    Atom (.literal (.str (String.ofList s))) (quote :: (escaped quote s ++ [quote]))
  /-- A path. -/
  | path {p : Text} (hp : IsPath p) (hword : p ∉ keywords) : Atom (.path p) p

/-- How negation is written in front of its operand. -/
inductive Negation : Text → Prop where
  /-- As a sign. -/
  | sign {g : Text} (hg : Blank g) : Negation ('!' :: g)
  /-- As a word with blanks behind it. -/
  | word {g : Text} (hg : Blank g) (hne : g ≠ []) : Negation ("not".toList ++ g)

/-- How a connective is written between its operands. -/
inductive Connective (sign word : Text) : Text → Prop where
  /-- As a sign. -/
  | sign {g g' : Text} (hg : Blank g) (hg' : Blank g') : Connective sign word (g ++ (sign ++ g'))
  /-- As a word between blanks. -/
  | word {g g' : Text} (hg : Blank g) (hne : g ≠ []) (hg' : Blank g') (hne' : g' ≠ []) :
    Connective sign word (g ++ (word ++ g'))

/-- Where a condition stands: by itself, or as an operand of another one. -/
inductive Place where
  /-- By itself. -/
  | whole
  /-- As an operand. -/
  | operand

/-- How a condition is written where it stands. -/
inductive Written : Place → Expr → Text → Prop where
  /-- A literal or a path. -/
  | atom {place : Place} {e : Expr} {s : Text} (h : Atom e s) : Written place e s
  /-- An operand in parentheses. -/
  | group {e : Expr} {g s g' : Text} (hg : Blank g) (inner : Written .whole e s) (hg' : Blank g') :
    Written .operand e ('(' :: (g ++ (s ++ (g' ++ [')']))))
  /-- A negated operand. -/
  | not {e : Expr} {w s : Text} (hw : Negation w) (inner : Written .operand e s) :
    Written .whole (.not e) (w ++ s)
  /-- A comparison. -/
  | compare {l r : Expr} {s g g' t : Text} (op : Comparison) (left : Written .operand l s)
    (hg : Blank g) (hg' : Blank g') (right : Written .operand r t) :
    Written .whole (.compare l op r) (s ++ (g ++ (comparisonSign op ++ (g' ++ t))))
  /-- A conjunction. -/
  | and {l r : Expr} {s w t : Text} (left : Written .operand l s)
    (hw : Connective ['&', '&'] "and".toList w) (right : Written .operand r t) :
    Written .whole (.and l r) (s ++ (w ++ t))
  /-- A disjunction. -/
  | or {l r : Expr} {s w t : Text} (left : Written .operand l s)
    (hw : Connective ['|', '|'] "or".toList w) (right : Written .operand r t) :
    Written .whole (.or l r) (s ++ (w ++ t))

/-- How a condition is written: as it stands by itself, with blanks around it. -/
def Writes (s : Text) (e : Expr) : Prop :=
  ∃ g t g', Blank g ∧ Blank g' ∧ Written .whole e t ∧ s = g ++ (t ++ g')

variable {place : Place} {e : Expr} {s t u g w sign word : Text} {token : Token}

/-! ## What follows an operand, and what it starts with -/

/-- A text that does not go on with an integer or a path. -/
def Follows (u : Text) : Prop := ∀ c ∈ u.head?, isNameChar c = false ∧ c ≠ '.' ∧ c ≠ '-'

theorem follows_nil : Follows [] := by simp [Follows]

theorem follows_cons {c : Char} (hc : isNameChar c = false ∧ c ≠ '.' ∧ c ≠ '-') (u : Text) :
    Follows (c :: u) := by
  simpa [Follows] using hc

theorem follows_of_blank (hg : Blank g) (hne : g ≠ []) (u : Text) : Follows (g ++ u) := by
  obtain ⟨c, g, rfl⟩ := List.exists_cons_of_ne_nil hne
  have hc : isBlank c = true := hg c (by simp)
  refine follows_cons ⟨?_, ?_, ?_⟩ (g ++ u)
  · by_contra hname
    have := Delimiters.isBlank_eq_false_of_isNameChar (Bool.eq_true_of_not_eq_false hname)
    simp [this] at hc
  · rintro rfl
    simp [isBlank] at hc
  · rintro rfl
    simp [isBlank] at hc

theorem Follows.blanks (hg : Blank g) (hu : Follows u) : Follows (g ++ u) := by
  by_cases hne : g = []
  · rwa [hne, List.nil_append]
  · exact follows_of_blank hg hne u

theorem Follows.pathStep (hu : Follows u) : Recognizer.pathStep u = none := by
  cases u with
  | nil => rfl
  | cons c u =>
    obtain ⟨hname, hdot, hdash⟩ := hu c rfl
    rw [Recognizer.pathStep_cons hdot hdash, if_neg (by simp [hname])]

theorem Follows.not_digit (hu : Follows u) : ∀ c ∈ u.head?, (isDigit c || c = '.') = false := by
  intro c hc
  obtain ⟨hname, hdot, -⟩ := hu c hc
  simp only [isNameChar, Bool.or_eq_false_iff] at hname
  simp [hname.1.2, hdot]

theorem follows_comparisonSign (op : Comparison) (u : Text) : Follows (comparisonSign op ++ u) := by
  cases op <;> exact follows_cons (by decide) _

theorem Connective.follows (h : Connective sign word w) (hsign : ∀ v, Follows (sign ++ v))
    (u : Text) : Follows (w ++ u) := by
  cases h with
  | sign hg _ =>
    rw [List.append_assoc, List.append_assoc]
    exact (hsign _).blanks hg
  | word hg hne _ _ =>
    rw [List.append_assoc]
    exact follows_of_blank hg hne _

theorem head_ne_of_blank (hg : Blank g) (hu : u.head? ≠ some '=') : (g ++ u).head? ≠ some '=' := by
  cases g with
  | nil => exact hu
  | cons c g =>
    have hc : isBlank c = true := hg c (by simp)
    rintro heq
    obtain rfl : c = '=' := by simpa using heq
    simp [isBlank] at hc

theorem Atom.head_ne (h : Atom e s) : ∃ c t, s = c :: t ∧ c ≠ '=' := by
  cases h with
  | null => exact ⟨'n', _, rfl, by decide⟩
  | bool b =>
    cases b with
    | true => exact ⟨'t', _, rfl, by decide⟩
    | false => exact ⟨'f', _, rfl, by decide⟩
  | int n =>
    obtain ⟨c, t, hs, -, hc⟩ := Decimal.intText_eq_cons n.toInt
    refine ⟨c, t, hs, ?_⟩
    rintro rfl
    simp [isDigit] at hc
  | string s hquote =>
    refine ⟨_, _, rfl, ?_⟩
    rintro rfl
    simp [quotes] at hquote
  | path hp _ =>
    obtain ⟨c, t, rfl, hc, -⟩ := hp
    refine ⟨c, t, rfl, ?_⟩
    rintro rfl
    simp [isNameStart, isLetter] at hc

/-- No operand starts with an equals sign, so none goes on with a sign in front of it. -/
theorem Written.head_ne (h : Written place e s) : ∃ c t, s = c :: t ∧ c ≠ '=' := by
  induction h with
  | atom h => exact h.head_ne
  | group _ _ _ _ => exact ⟨'(', _, rfl, by decide⟩
  | not hw _ _ =>
    cases hw with
    | sign _ => exact ⟨'!', _, rfl, by decide⟩
    | word _ _ => exact ⟨'n', _, rfl, by decide⟩
  | compare _ _ _ _ _ ih _ =>
    obtain ⟨c, t, rfl, hc⟩ := ih
    exact ⟨c, _, rfl, hc⟩
  | and _ _ _ ih _ =>
    obtain ⟨c, t, rfl, hc⟩ := ih
    exact ⟨c, _, rfl, hc⟩
  | or _ _ _ ih _ =>
    obtain ⟨c, t, rfl, hc⟩ := ih
    exact ⟨c, _, rfl, hc⟩

/-! ## Reading the tokens back -/

/-- A keyword that no path goes on from is read as its token. -/
theorem Lexed.keyword (hw : IsPath word) (ht : wordToken word = token) (hu : Follows u) :
    Lexed word [token] u := by
  rw [← ht]
  exact Lexed.word hw hu.pathStep

theorem isPath_keyword (h : word ∈ keywords) : IsPath word := by
  have hpath : ∀ (c : Char) (t : Text), isNameStart c = true → (∀ x ∈ t, isNameChar x = true) →
      IsPath (c :: t) := by
    intro c t hc ht
    refine ⟨c, t, rfl, hc, ?_⟩
    clear hc
    induction t with
    | nil => exact .nil
    | cons x t ih =>
      exact .step (w := [x]) ⟨x, ht x (by simp), .inl rfl⟩ (ih fun y hy => ht y (by simp [hy]))
  simp only [keywords, List.mem_cons, List.not_mem_nil, or_false] at h
  rcases h with rfl | rfl | rfl | rfl | rfl | rfl <;> exact hpath _ _ (by decide) (by decide)

theorem Lexed.comparisonSign (op : Comparison) (hu : u.head? ≠ some '=') :
    Lexed (comparisonSign op) [.cmp op] u := by
  cases op <;> refine Lexed.one ?_ <;> simp [readToken, isBlank, hu]

theorem Negation.lexed (h : Negation w) (hu : u.head? ≠ some '=') : Lexed w [.not] u := by
  cases h with
  | @sign g hg =>
    have hnot : Lexed ['!'] [.not] (g ++ u) := by
      refine Lexed.one (w := []) ?_
      simp [readToken, isBlank, -List.head?_append, head_ne_of_blank hg hu]
    exact hnot.append (Lexed.blanks hg u)
  | @word g hg hne =>
    have hnot : Lexed "not".toList [.not] (g ++ u) :=
      .keyword (isPath_keyword (by simp [keywords])) rfl (follows_of_blank hg hne u)
    exact hnot.append (Lexed.blanks hg u)

theorem Connective.lexed (h : Connective sign word w) (hsign : ∀ v, Lexed sign [token] v)
    (hword : word ∈ keywords) (ht : wordToken word = token) (u : Text) :
    Lexed w [token] u := by
  cases h with
  | sign hg hg' =>
    exact (Lexed.blanks hg _).append ((hsign _).append (Lexed.blanks hg' u))
  | word hg _ hg' hne' =>
    have hkeyword := Lexed.keyword (isPath_keyword hword) ht (follows_of_blank hg' hne' u)
    exact (Lexed.blanks hg _).append (hkeyword.append (Lexed.blanks hg' u))

/-- An atom is one token, and that token is a primary operand. -/
theorem Atom.lexed (h : Atom e s) :
    ∃ t, Derives .primary [t] e ∧ ∀ u, Follows u → Lexed s [t] u := by
  cases h with
  | null =>
    exact ⟨_, .literal .null, fun u hu => .keyword (isPath_keyword (by simp [keywords])) rfl hu⟩
  | bool b =>
    refine ⟨_, .literal (.bool b), fun u hu => ?_⟩
    cases b with
    | true => exact .keyword (isPath_keyword (by simp [keywords])) rfl hu
    | false => exact .keyword (isPath_keyword (by simp [keywords])) rfl hu
  | int n => exact ⟨_, .literal (.int n), fun u hu => .int n hu.not_digit⟩
  | string s hquote =>
    exact ⟨_, .literal (.str (String.ofList s)), fun u _ => .string hquote s u⟩
  | path hp hword =>
    refine ⟨_, .path s, fun u hu => ?_⟩
    rw [← wordToken_of_notMem hword]
    exact .word hp hu.pathStep

/-- The level of the grammar at which a condition stands. -/
def Place.level : Place → Level
  | .whole => .disjunction
  | .operand => .operand

section Levels

variable {ts : List Token}

theorem Derives.ofComparison (h : Derives .comparison ts e) : Derives .conjunction ts e := by
  have hrow : Derives .conjunction (ts ++ row .and []) (grouped .and e []) :=
    .conjunction h (by simp)
  rwa [row_nil, List.append_nil] at hrow

theorem Derives.ofConjunction (h : Derives .conjunction ts e) : Derives .disjunction ts e := by
  have hrow : Derives .disjunction (ts ++ row .or []) (grouped .or e []) :=
    .disjunction h (by simp)
  rwa [row_nil, List.append_nil] at hrow

theorem Derives.whole (h : Derives .comparison ts e) : Derives .disjunction ts e :=
  h.ofComparison.ofConjunction

end Levels

/-- Two operands with a connective between them are read to the tokens of the first, the connective
and the tokens of the second. -/
theorem lexed_connective {ts us : List Token} (hw : Connective sign word w)
    (hfollows : ∀ v, Follows (sign ++ v)) (hsign : ∀ v, Lexed sign [token] v)
    (hword : word ∈ keywords) (ht : wordToken word = token) (hl : ∀ v, Follows v → Lexed s ts v)
    (hr : Lexed t us u) : Lexed (s ++ (w ++ t)) (ts ++ token :: us) u := by
  have hleft : Lexed s ts ((w ++ t) ++ u) := by
    refine hl _ ?_
    rw [List.append_assoc]
    exact hw.follows hfollows _
  exact hleft.append ((hw.lexed hsign hword ht _).append hr)

/-- Two operands with a comparison between them are read to the tokens of the first, the comparison
and the tokens of the second. -/
theorem lexed_comparison {ts us : List Token} {g' : Text} (op : Comparison) (hg : Blank g)
    (hg' : Blank g') (ht : ∃ c t', t = c :: t' ∧ c ≠ '=') (hl : ∀ v, Follows v → Lexed s ts v)
    (hr : Lexed t us u) :
    Lexed (s ++ (g ++ (comparisonSign op ++ (g' ++ t)))) (ts ++ .cmp op :: us) u := by
  have hsign : Lexed (comparisonSign op) [.cmp op] ((g' ++ t) ++ u) := by
    obtain ⟨c, t', rfl, hc⟩ := ht
    refine .comparisonSign op ?_
    rw [List.append_assoc]
    exact head_ne_of_blank hg' (by simp [hc])
  have hback : Lexed (g' ++ t) us u := (Lexed.blanks hg' _).append hr
  have hleft : Lexed s ts ((g ++ (comparisonSign op ++ (g' ++ t))) ++ u) := by
    refine hl _ ?_
    rw [List.append_assoc, List.append_assoc]
    exact (follows_comparisonSign op _).blanks hg
  exact hleft.append ((Lexed.blanks hg _).append (hsign.append hback))

/-- **What is written is read as tokens that derive it**, in front of anything that does not go on
with its last token. -/
theorem Written.lexed (h : Written place e s) :
    ∃ ts, Derives place.level ts e ∧ ∀ u, Follows u → Lexed s ts u := by
  induction h with
  | @atom place e s h =>
    obtain ⟨t, ht, hlex⟩ := h.lexed
    refine ⟨[t], ?_, hlex⟩
    cases place with
    | whole => exact .whole (.operand (.primary ht))
    | operand => exact .primary ht
  | @group e g s g' hg _ hg' ih =>
    obtain ⟨ts, hts, hlex⟩ := ih
    refine ⟨.opening :: (ts ++ [.closing]), .primary (.group hts), fun u _ => ?_⟩
    have hopening : ∀ v, Lexed ['('] [.opening] v := fun v =>
      Lexed.one (w := []) rfl
    have hclosing : Lexed [')'] [.closing] u := Lexed.one (w := []) rfl
    have hinner : Lexed s ts ((g' ++ [')']) ++ u) := by
      refine hlex _ ?_
      rw [List.append_assoc]
      exact (follows_cons (by decide) u).blanks hg'
    have hback : Lexed (g' ++ [')']) [.closing] u := (Lexed.blanks hg' _).append hclosing
    exact (hopening _).append ((Lexed.blanks hg _).append (hinner.append hback))
  | @not e w s hw inner ih =>
    obtain ⟨ts, hts, hlex⟩ := ih
    refine ⟨.not :: ts, .whole (.operand (.not hts)), fun u hu => ?_⟩
    obtain ⟨c, t, hs, hc⟩ := inner.head_ne
    exact (hw.lexed (by simp [hs, hc])).append (hlex u hu)
  | @compare l r s g g' t op _ hg hg' right ihl ihr =>
    obtain ⟨ts, hts, hlexl⟩ := ihl
    obtain ⟨us, hus, hlexr⟩ := ihr
    refine ⟨ts ++ .cmp op :: us, .whole (.compare op hts hus), fun u hu => ?_⟩
    exact lexed_comparison op hg hg' right.head_ne hlexl (hlexr u hu)
  | @and l r s w t _ hw _ ihl ihr =>
    obtain ⟨ts, hts, hlexl⟩ := ihl
    obtain ⟨us, hus, hlexr⟩ := ihr
    have hrow : Derives .conjunction (ts ++ row .and [(us, r)]) (grouped .and l [(us, r)]) :=
      .conjunction (.operand hts) (by simpa using .operand hus)
    refine ⟨ts ++ .and :: us, .ofConjunction (by simpa using hrow), fun u hu => ?_⟩
    exact lexed_connective hw (fun v => follows_cons (by decide) _)
      (fun v => Lexed.one (w := ['&']) rfl) (by simp [keywords]) rfl hlexl
      (hlexr u hu)
  | @or l r s w t _ hw _ ihl ihr =>
    obtain ⟨ts, hts, hlexl⟩ := ihl
    obtain ⟨us, hus, hlexr⟩ := ihr
    have hrow : Derives .disjunction (ts ++ row .or [(us, r)]) (grouped .or l [(us, r)]) :=
      .disjunction (.ofComparison (.operand hts)) (by simpa using .ofComparison (.operand hus))
    refine ⟨ts ++ .or :: us, by simpa [Place.level] using hrow, fun u hu => ?_⟩
    exact lexed_connective hw (fun v => follows_cons (by decide) _)
      (fun v => Lexed.one (w := ['|']) rfl) (by simp [keywords]) rfl hlexl
      (hlexr u hu)

/-! ## Whole conditions -/

/-- A text is read as the condition that its tokens derive, whatever blanks are around it. -/
theorem parse_of_lexed {ts : List Token} {g' : Text} (hg : Blank g) (hg' : Blank g')
    (hts : Derives .disjunction ts e) (hlex : ∀ u, Follows u → Lexed t ts u) :
    Condition.parse (g ++ (t ++ g')) = .ok e := by
  have hinner : Lexed t ts (g' ++ []) := hlex _ (follows_nil.blanks hg')
  have hall : Lexed (g ++ (t ++ g')) ts [] := by
    have := (Lexed.blanks hg _).append (hinner.append (Lexed.blanks hg' []))
    rwa [List.nil_append, List.append_nil] at this
  have htokens : tokenize (g ++ (t ++ g')) = .ok ts := by
    unfold Lexed at hall
    rw [List.append_nil] at hall
    have hnil : tokenizeFrom 0 [] = .ok [] := rfl
    rw [tokenize, hall, hnil]
    simp [Except.map]
  have hread : read (g ++ (t ++ g')) = .ok e := by
    rw [read, htokens]
    exact ofTokens_eq_ok_iff.mpr hts
  rw [Condition.parse, hread]
  rfl

theorem Writes.parse (h : Writes s e) : Condition.parse s = .ok e := by
  obtain ⟨g, t, g', hg, hg', ht, rfl⟩ := h
  obtain ⟨ts, hts, hlex⟩ := ht.lexed
  exact parse_of_lexed hg hg' hts hlex

theorem expressible_of_written (h : Written place e s) : e.Expressible := by
  induction h with
  | atom h =>
    cases h with
    | null => trivial
    | bool _ => trivial
    | int _ => trivial
    | string _ _ => trivial
    | path hp hword => exact ⟨hp, hword⟩
  | group _ _ _ ih => exact ih
  | not _ _ ih => exact ih
  | compare _ _ _ _ _ ihl ihr => exact ⟨ihl, ihr⟩
  | and _ _ _ ihl ihr => exact ⟨ihl, ihr⟩
  | or _ _ _ ihl ihr => exact ⟨ihl, ihr⟩

/-- What is written by itself can be written as an operand. -/
theorem Written.operand (h : Written .whole e s) : ∃ t, Written .operand e t :=
  ⟨_, .group blank_nil h blank_nil⟩

/-- What can be expressed can be written. -/
theorem exists_written (h : e.Expressible) : ∃ s, Written .whole e s := by
  induction e with
  | literal v =>
    cases v with
    | null => exact ⟨_, .atom .null⟩
    | bool b => exact ⟨_, .atom (.bool b)⟩
    | int n => exact ⟨_, .atom (.int n)⟩
    | str s =>
      have hatom := Atom.string s.toList (show '"' ∈ quotes by simp [quotes])
      rw [String.ofList_toList] at hatom
      exact ⟨_, .atom hatom⟩
    | float _ => exact h.elim
    | list _ => exact h.elim
    | object _ => exact h.elim
  | path p => exact ⟨p, .atom (.path h.1 h.2)⟩
  | not e ih =>
    obtain ⟨s, hs⟩ := ih h
    obtain ⟨t, ht⟩ := hs.operand
    exact ⟨_, .not (.sign blank_nil) ht⟩
  | compare l op r ihl ihr =>
    obtain ⟨s, hs⟩ := ihl h.1
    obtain ⟨t, ht⟩ := ihr h.2
    obtain ⟨s, hs⟩ := hs.operand
    obtain ⟨t, ht⟩ := ht.operand
    exact ⟨_, .compare op hs blank_nil blank_nil ht⟩
  | and l r ihl ihr =>
    obtain ⟨s, hs⟩ := ihl h.1
    obtain ⟨t, ht⟩ := ihr h.2
    obtain ⟨s, hs⟩ := hs.operand
    obtain ⟨t, ht⟩ := ht.operand
    exact ⟨_, .and hs (.sign blank_nil blank_nil) ht⟩
  | or l r ihl ihr =>
    obtain ⟨s, hs⟩ := ihl h.1
    obtain ⟨t, ht⟩ := ihr h.2
    obtain ⟨s, hs⟩ := hs.operand
    obtain ⟨t, ht⟩ := ht.operand
    exact ⟨_, .or hs (.sign blank_nil blank_nil) ht⟩

/-- **Conditions read back as they are written.** What can be written is just what is made of null,
truth values, integers, strings and paths that are no keywords; and however it is written, the text
reads back as the condition it writes. -/
theorem parse_written (e : Expr) :
    ((∃ s, Writes s e) ↔ e.Expressible) ∧ ∀ s, Writes s e → Condition.parse s = .ok e := by
  refine ⟨⟨?_, ?_⟩, fun s hs => hs.parse⟩
  · rintro ⟨s, g, t, g', -, -, ht, -⟩
    exact expressible_of_written ht
  · intro he
    obtain ⟨t, ht⟩ := exists_written he
    exact ⟨t, [], t, [], blank_nil, blank_nil, ht, by simp⟩

/-- An arrow in a path, the least integer and a quote within a string. -/
theorem parse_written_quote :
    Condition.parse "(!( x->y.1<=-9223372036854775808))\tand 'it\\'s'".toList =
      .ok (.and (.not (.compare (.path "x->y.1".toList) .le (.literal (.int Int64.minValue))))
        (.literal (.str "it's"))) := by
  have hpath : IsPath "x->y.1".toList :=
    ⟨'x', _, rfl, by decide, .step (w := ['-', '>', 'y']) ⟨'y', by decide, by simp⟩
      (.step (w := ['.', '1']) ⟨'1', by decide, by simp⟩ .nil)⟩
  have hspace : Blank [' '] := by simp [Blank, isBlank]
  have hcompare : Written .whole
      (.compare (.path "x->y.1".toList) .le (.literal (.int Int64.minValue)))
      "x->y.1<=-9223372036854775808".toList :=
    .compare .le (.atom (.path hpath (by decide))) blank_nil blank_nil (.atom (.int Int64.minValue))
  have hnot : Written .whole
      (.not (.compare (.path "x->y.1".toList) .le (.literal (.int Int64.minValue))))
      "!( x->y.1<=-9223372036854775808)".toList :=
    .not (.sign blank_nil) (.group hspace hcompare blank_nil)
  have hstring : Written .operand (.literal (.str "it's")) "'it\\'s'".toList :=
    .atom (.string "it's".toList (show '\'' ∈ quotes by simp [quotes]))
  have htab : Blank ['\t'] := by simp [Blank, isBlank]
  have hand := Written.and (.group blank_nil hnot blank_nil)
    (.word htab (by simp) hspace (by simp)) hstring
  exact (parse_written _).2 _ ⟨[], _, [], blank_nil, blank_nil, hand, rfl⟩

end Condition

end Stencil
