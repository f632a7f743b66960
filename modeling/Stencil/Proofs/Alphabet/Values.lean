import Stencil.Proofs.Alphabet.Basic
import Stencil.Proofs.Dict
import Stencil.Template.Loops
import Stencil.Value.Html

/-!
# How values are spelled

The strings of a value and the keys of its objects are all that its text takes from outside; words,
numbers and the marks of the data notation are neutral. Nothing is escaped in a way that could break
a placeholder. Loops make contexts out of the values they are given and of neutral keys.
-/

namespace Stencil

/-! ## Values -/

namespace Value

/-- What holds of the strings of a value, and of the keys of its objects. -/
inductive Holds (key text : String → Prop) : Value → Prop where
  /-- Null has neither. -/
  | null : Holds key text .null
  /-- A truth value has neither. -/
  | bool (b : Bool) : Holds key text (.bool b)
  /-- An integer has neither. -/
  | int (n : Int64) : Holds key text (.int n)
  /-- A double has neither. -/
  | float (f : Float) : Holds key text (.float f)
  /-- A string. -/
  | str {s : String} : text s → Holds key text (.str s)
  /-- A list has the strings and keys of its items. -/
  | list {items : List Value} : (∀ v ∈ items, Holds key text v) → Holds key text (.list items)
  /-- An object has its keys too. -/
  | object {fields : List (String × Value)} : (∀ x ∈ fields, key x.1) →
      (∀ x ∈ fields, Holds key text x.2) → Holds key text (.object fields)

variable {key key' text text' : String → Prop} {v : Value}

theorem Holds.mono (h : Holds key text v) (hkey : ∀ k, key k → key' k)
    (htext : ∀ s, text s → text' s) :
    Holds key' text' v := by
  induction h with
  | null => exact .null
  | bool b => exact .bool b
  | int n => exact .int n
  | float f => exact .float f
  | str hs => exact .str (htext _ hs)
  | list _ ih => exact .list ih
  | object hkeys _ ih => exact .object (fun x hx => hkey _ (hkeys x hx)) ih

theorem escapedItems_eq (items : List Value) : escapedItems items = items.map escaped := by
  induction items with
  | nil => rfl
  | cons v items ih => rw [escapedItems, ih, List.map_cons]

theorem escapedFields_eq (fields : List (String × Value)) :
    escapedFields fields = fields.map fun x => (x.1, x.2.escaped) := by
  induction fields with
  | nil => rfl
  | cons x fields ih =>
    obtain ⟨k, v⟩ := x
    rw [escapedFields, ih, List.map_cons]

/-- Escaping leaves the keys of a value alone. -/
theorem Holds.escaped (h : Holds key text v)
    (htext : ∀ s, text s → text' (String.ofList (escapeHtml s.toList))) :
    Holds key text' v.escaped := by
  induction h with
  | null => exact .null
  | bool b => exact .bool b
  | int n => exact .int n
  | float f => exact .float f
  | str hs => exact .str (htext _ hs)
  | @list items _ ih =>
    rw [Value.escaped, escapedItems_eq]
    exact .list (by simpa using ih)
  | @object fields hkeys _ ih =>
    rw [Value.escaped, escapedFields_eq]
    refine .object ?_ ?_
    · intro x hx
      obtain ⟨y, hy, rfl⟩ := List.mem_map.mp hx
      exact hkeys y hy
    · intro x hx
      obtain ⟨y, hy, rfl⟩ := List.mem_map.mp hx
      exact ih y hy

theorem itemsToJson_eq (items : List Value) : itemsToJson items = items.map toJson := by
  induction items with
  | nil => rfl
  | cons v items ih => rw [itemsToJson, ih, List.map_cons]

theorem fieldsToJson_eq (fields : List (String × Value)) :
    fieldsToJson fields = fields.map fun x => (x.1, x.2.toJson) := by
  induction fields with
  | nil => rfl
  | cons x fields ih =>
    obtain ⟨k, v⟩ := x
    rw [fieldsToJson, ih, List.map_cons]

end Value

/-- Replacing one character rewrites every character on its own. -/
theorem Text.replace_char (s : Text) (c : Char) (new : Text) :
    s.replace [c] new = s.flatMap fun x => if x = c then new else [x] := by
  unfold Text.replace
  induction s with
  | nil => rfl
  | cons x s ih =>
    rw [Text.replaceFrom, List.flatMap_cons]
    by_cases hx : x = c
    · subst hx
      rw [if_pos (by simp), if_pos rfl, ← ih]
      rfl
    · rw [if_neg (by simpa using Ne.symm hx), if_neg hx, ih]
      rfl

theorem escapeHtml_eq (s : Text) : escapeHtml s = s.flatMap htmlEntity := by
  simp only [escapeHtml, Text.replace_char, List.flatMap_assoc]
  congr 1
  funext c
  unfold htmlEntity
  by_cases h1 : c = '&'
  · subst h1
    decide
  by_cases h2 : c = '<'
  · subst h2
    decide
  by_cases h3 : c = '>'
  · subst h3
    decide
  by_cases h4 : c = '"'
  · subst h4
    decide
  by_cases h5 : c = '\''
  · subst h5
    decide
  simp only [if_neg h1, if_neg h2, if_neg h3, if_neg h4, if_neg h5, List.flatMap_singleton]

namespace Alphabet

variable {A : Alphabet} {s : Text} {v : Value}

theorem spelled_of_neutral (h : Neutral s) : A.Spelled s := (bare_of_neutral h).spelled

/-- The strings and keys of a value are spelled. -/
def SpellsValue (A : Alphabet) (v : Value) : Prop :=
  v.Holds (fun k => A.Spelled k.toList) (fun s => A.Spelled s.toList)

theorem SpellsValue.mono {B : Alphabet} (h : A.SpellsValue v) (hglyph : ∀ c, A.glyph c → B.glyph c)
    (hshelf : ∀ n, A.shelf n → B.shelf n) : B.SpellsValue v :=
  Value.Holds.mono h (fun _ hk => Spelled.mono hk hglyph hshelf) fun _ hs =>
    Spelled.mono hs hglyph hshelf

/-- The values of a context are spelled; its own keys are never shown. -/
def SpellsContext (A : Alphabet) (ctx : Context) : Prop := ∀ x ∈ ctx, A.SpellsValue x.2

theorem spelled_escapeChar {c : Char} (hc : A.glyph c) : A.Spelled (Json.escapeChar c) := by
  unfold Json.escapeChar Json.controlEscape
  split
  · exact spelled_of_neutral (by decide)
  split
  · exact spelled_of_neutral (by decide)
  split
  · split
    · exact spelled_of_neutral (by decide)
    split
    · exact spelled_of_neutral (by decide)
    split
    · exact spelled_of_neutral (by decide)
    split
    · exact spelled_of_neutral (by decide)
    split
    · exact spelled_of_neutral (by decide)
    · refine spelled_of_neutral ?_
      have hmarks : ∀ x ∈ ['\\', 'u', '0', '0'], isNeutral x = true := by decide
      intro x hx
      simp only [List.mem_cons, List.not_mem_nil, or_false] at hx
      rcases hx with h | h | h | h | rfl | rfl
      · exact hmarks x (by simp [h])
      · exact hmarks x (by simp [h])
      · exact hmarks x (by simp [h])
      · exact hmarks x (by simp [h])
      · exact neutral_digitChar _
      · exact neutral_digitChar _
  · exact .glyph hc .nil

theorem spelled_stringText {k : String} (h : A.Spelled k.toList) :
    A.Spelled (Json.stringText k) := by
  have hfix : ∀ c ∈ placeholderChars, Json.escapeChar c = [c] := by decide
  have hchars := h.flatMap_char (fun c hc => spelled_escapeChar hc) hfix
  exact .glyph (A.neutral _ (by decide)) (hchars.append (spelled_of_neutral (by decide)))

theorem spelled_itemsText {items : List Json} (h : ∀ j ∈ items, A.Spelled j.text) :
    A.Spelled (Json.itemsText items) := by
  induction items with
  | nil => exact .nil
  | cons j rest ih =>
    have hrest := ih fun x hx => h x (List.mem_cons_of_mem _ hx)
    cases rest with
    | nil => exact h j (by simp)
    | cons k rest =>
      exact (h j (by simp)).append (.glyph (A.neutral _ (by decide)) hrest)

theorem spelled_membersText {members : List (String × Json)}
    (hkeys : ∀ x ∈ members, A.Spelled x.1.toList)
    (h : ∀ x ∈ members, A.Spelled x.2.text) : A.Spelled (Json.membersText members) := by
  induction members with
  | nil => exact .nil
  | cons m rest ih =>
    have hrest := ih (fun x hx => hkeys x (List.mem_cons_of_mem _ hx)) fun x hx =>
      h x (List.mem_cons_of_mem _ hx)
    have hmember : A.Spelled (Json.stringText m.1 ++ ':' :: m.2.text) :=
      (spelled_stringText (hkeys m (by simp))).append
        (.glyph (A.neutral _ (by decide)) (h m (by simp)))
    cases rest with
    | nil => exact hmember
    | cons next rest => exact hmember.append (.glyph (A.neutral _ (by decide)) hrest)

theorem spelled_floatText (f : Float) : A.Spelled (Json.floatText f) := by
  unfold Json.floatText
  split
  · exact spelled_of_neutral (neutral_floatText Decimal.Layout.marks_interchange f)
  · exact spelled_of_neutral (by decide)

/-- The data notation of a spelled value is spelled. -/
theorem SpellsValue.json (h : A.SpellsValue v) : A.Spelled v.toJson.text := by
  induction h with
  | null => exact spelled_of_neutral (by decide)
  | bool b => cases b <;> exact spelled_of_neutral (by decide)
  | int n => exact spelled_of_neutral (neutral_intText _)
  | float f => exact spelled_floatText f
  | str hs => exact spelled_stringText hs
  | @list items _ ih =>
    rw [Value.toJson, Value.itemsToJson_eq, Json.text]
    exact .glyph (A.neutral _ (by decide))
      ((spelled_itemsText (by simpa using ih)).append (spelled_of_neutral (by decide)))
  | @object fields hkeys _ ih =>
    rw [Value.toJson, Value.fieldsToJson_eq, Json.text]
    refine .glyph (A.neutral _ (by decide)) ((spelled_membersText ?_ ?_).append
      (spelled_of_neutral (by decide)))
    · intro x hx
      obtain ⟨y, hy, rfl⟩ := List.mem_map.mp hx
      exact hkeys y hy
    · intro x hx
      obtain ⟨y, hy, rfl⟩ := List.mem_map.mp hx
      exact ih y hy

/-- The text of a spelled value is spelled. -/
theorem SpellsValue.text (h : A.SpellsValue v) : A.Spelled v.text := by
  cases v with
  | null => exact .nil
  | bool b => cases b <;> exact spelled_of_neutral (by decide)
  | int n => exact spelled_of_neutral (neutral_intText _)
  | float f => exact spelled_of_neutral (neutral_floatText Decimal.Layout.marks_plain f)
  | str s =>
    cases h with
    | str hs => exact hs
  | list items => exact h.json
  | object fields => exact h.json

theorem spellsValue_str (h : A.Spelled s) : A.SpellsValue (.str (String.ofList s)) :=
  .str (by rwa [String.toList_ofList])

/-! ## Contexts -/

variable {ctx : Context}

theorem SpellsValue.child {w : Value} {segment : String} (h : A.SpellsValue v)
    (hw : v.child? segment = some w) : A.SpellsValue w := by
  cases h with
  | list hitems =>
    obtain ⟨i, -, hi⟩ := Option.bind_eq_some_iff.mp hw
    exact hitems w (List.mem_of_getElem? hi)
  | object _ hfields => exact hfields (segment, w) (Dict.mem_of_get? hw)
  | _ => exact absurd hw (by simp [Value.child?])

theorem SpellsContext.resolve (h : A.SpellsContext ctx) {path : Text}
    (hv : ctx.resolve? path = some v) :
    A.SpellsValue v := by
  have hwalk : ∀ (segments : List String) {u : Value}, A.SpellsValue u →
      segments.foldlM Value.child? u = some v → A.SpellsValue v := by
    intro segments
    induction segments with
    | nil =>
      intro u hu heq
      obtain rfl : u = v := by simpa using heq
      exact hu
    | cons segment segments ih =>
      intro u hu heq
      rw [List.foldlM_cons] at heq
      obtain ⟨w, hw, heq⟩ := Option.bind_eq_some_iff.mp heq
      exact ih (hu.child hw) heq
  unfold Context.resolve? at hv
  split at hv
  · exact absurd hv (by simp)
  · rename_i key rest _
    obtain ⟨u, hu, hv⟩ := Option.bind_eq_some_iff.mp hv
    exact hwalk rest (h (key, u) (Dict.mem_of_get? hu)) hv

theorem SpellsContext.set (h : A.SpellsContext ctx) (key : String) (hv : A.SpellsValue v) :
    A.SpellsContext (ctx.set key v) := by
  intro x hx
  rcases Dict.mem_set hx with rfl | hx
  · exact hv
  · exact h x hx

theorem SpellsContext.merge {upper : Context} (h : A.SpellsContext ctx)
    (hupper : A.SpellsContext upper) :
    A.SpellsContext (ctx.merge upper) := by
  intro x hx
  rcases Dict.mem_merge hx with hx | hx
  · exact h x hx
  · exact hupper x hx

/-- What a row gives to the body of a loop is spelled, and so are its names. -/
theorem spellsValue_bindings (index : Nat) {row : Value} (h : A.SpellsValue row) :
    A.SpellsValue (.object (Loop.bindings index row)) := by
  have hneutral : ∀ k ∈ ["index", "i", "value"], A.Spelled k.toList := by
    have : ∀ k ∈ ["index", "i", "value"], Neutral k.toList := by decide
    exact fun k hk => spelled_of_neutral (this k hk)
  have hcounters : ∀ x ∈ ([("index", .int (Int64.ofNat index)),
      ("i", .int (Int64.ofNat (index + 1)))] : Context), A.Spelled x.1.toList ∧
      A.SpellsValue x.2 := by
    intro x hx
    simp only [List.mem_cons, List.not_mem_nil, or_false] at hx
    rcases hx with rfl | rfl
    · exact ⟨hneutral _ (by simp), .int _⟩
    · exact ⟨hneutral _ (by simp), .int _⟩
  have hentries : ∀ x ∈ Loop.bindings index row, A.Spelled x.1.toList ∧ A.SpellsValue x.2 := by
    intro x hx
    unfold Loop.bindings at hx
    split at hx
    · rename_i fields
      cases h with
      | object hkeys hfields =>
        rcases Dict.mem_merge hx with hx | hx
        · exact hcounters x hx
        · exact ⟨hkeys x hx, hfields x hx⟩
    · rcases Dict.mem_set hx with rfl | hx
      · exact ⟨hneutral _ (by simp), h⟩
      · exact hcounters x hx
  exact .object (fun x hx => (hentries x hx).1) fun x hx => (hentries x hx).2

theorem SpellsContext.row (h : A.SpellsContext ctx) {head : LoopHead} {x : Value × Nat}
    (hx : x ∈ (Loop.rows ctx head).zipIdx) :
    A.SpellsContext (Loop.rowContext head.form ctx x.2 x.1) := by
  have hrow : A.SpellsValue x.1 := by
    have hmem : x.1 ∈ Loop.rows ctx head := (List.mem_zipIdx' hx).2 ▸ List.getElem_mem _
    unfold Loop.rows at hmem
    split at hmem
    · rename_i items hitems
      cases h.resolve hitems with
      | list h => exact h _ hmem
    · exact absurd hmem (by simp)
  have hbindings := spellsValue_bindings x.2 hrow
  unfold Loop.rowContext
  split
  · exact h.set _ hbindings
  · cases hbindings with
    | object _ hfields => exact h.merge hfields

theorem spelled_htmlEntity {c : Char} (hc : A.glyph c) : A.Spelled (htmlEntity c) := by
  unfold htmlEntity
  repeat' split
  all_goals first
    | exact .glyph hc .nil
    | exact spelled_of_neutral (by decide)

/-- Escaping keeps a text spelled. -/
theorem Spelled.escapeHtml (h : A.Spelled s) : A.Spelled (Stencil.escapeHtml s) := by
  have hfix : ∀ c ∈ placeholderChars, htmlEntity c = [c] := by decide
  rw [escapeHtml_eq]
  exact h.flatMap_char (fun c hc => spelled_htmlEntity hc) hfix

end Alphabet

end Stencil
