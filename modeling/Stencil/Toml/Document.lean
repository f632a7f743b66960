import Stencil.Toml.Scalar

/-!
# TOML documents

A document is a row of statements. A header opens a table, or one more table of an array of
tables; an assignment stores a value in the open table, under a key whose parts lead through
tables of their own.

A table is defined once. One that exists only because a longer key leads through it may still be
opened by a header; one that keys of assignments lead through may be filled by further
assignments, but is never opened.
-/

namespace Stencil.Toml

/-- What stands under a key while a document is read. -/
inductive Item where
  /-- A value. -/
  | value (v : Json)
  /-- A table, whether it exists only on the way to another, and whether the keys of assignments
  lead through it. -/
  | table (implicit dotted : Bool) (entries : List (String × Item))
  /-- An array of tables. -/
  | tables (tables : List (List (String × Item)))

/-- The entries of a table. -/
abbrev Entries := Dict Item

mutual

/-- An item as data. -/
def Item.toJson : Item → Json
  | .value v => v
  | .table _ _ entries => .obj (entriesToJson entries)
  | .tables tables => .arr (tablesToJson tables)

/-- The entries of a table as data. -/
def entriesToJson : List (String × Item) → List (String × Json)
  | [] => []
  | (k, item) :: rest => (k, item.toJson) :: entriesToJson rest

/-- The tables of an array as data. -/
def tablesToJson : List (List (String × Item)) → List Json
  | [] => []
  | entries :: rest => .obj (entriesToJson entries) :: tablesToJson rest

end

namespace Entries

/-- Changes the table that a key leads to, making the tables on the way. A key of an assignment
does not lead through a table that has been opened. The change is told whether keys of
assignments lead through the table. -/
def update (forAssignment : Bool) (change : Bool → Entries → Option Entries) :
    List String → Bool → Entries → Option Entries
  | [], dotted, entries => change dotted entries
  | key :: path, _, entries =>
    match entries.get? key with
    | none =>
      (update forAssignment change path forAssignment []).map fun inner =>
        entries.set key (.table true forAssignment inner)
    | some (.value _) => none
    | some (.table implicit dotted inner) =>
      if forAssignment && !implicit then none
      else
        (update forAssignment change path dotted inner).map fun inner =>
          entries.set key (.table implicit dotted inner)
    | some (.tables tables) =>
      match tables.getLast? with
      | none => none
      | some last =>
        (update forAssignment change path false last).map fun inner =>
          entries.set key (.tables (tables.dropLast ++ [inner]))

/-- Stores a value under the key of an assignment. -/
def assign (path : List String) (key : String) (v : Json) (entries : Entries) : Option Entries :=
  update true
    (fun dotted entries =>
      if dotted = path.isEmpty || entries.has key then none
      else some (entries.set key (.value v)))
    path false entries

/-- Opens a table. -/
def openTable (path : List String) (key : String) (entries : Entries) : Option Entries :=
  update false
    (fun _ entries =>
      match entries.get? key with
      | none => some (entries.set key (.table false false []))
      | some (.table true false inner) => some (entries.set key (.table false false inner))
      | some _ => none)
    path false entries

/-- Opens one more table of an array of tables. -/
def openNext (path : List String) (key : String) (entries : Entries) : Option Entries :=
  update false
    (fun _ entries =>
      match entries.get? key with
      | none => some (entries.set key (.tables [[]]))
      | some (.tables tables) => some (entries.set key (.tables (tables ++ [[]])))
      | some _ => none)
    path false entries

/-- Stores a value in the open table. -/
def assignIn (place : List String) (path : List String) (key : String) (v : Json)
    (entries : Entries) : Option Entries :=
  update false (fun _ entries => entries.assign path key v) place false entries

end Entries

/-- Splits the last part off a key. -/
def splitKey (parts : List String) : List String × String :=
  (parts.dropLast, parts.getLast?.getD "")

/-- Reads the rest of an array, given how its items are read. -/
def readItems (item : Text → Option (Json × Text)) :
    (fuel : Nat) → Text → Option (List Json × Text)
  | 0, _ => none
  | fuel + 1, s =>
    match skipLines false s with
    | ']' :: rest => some ([], rest)
    | s =>
      match item s with
      | none => none
      | some (v, rest) =>
        match skipLines false rest with
        | ',' :: rest => (readItems item fuel rest).map fun (items, rest) => (v :: items, rest)
        | ']' :: rest => some ([v], rest)
        | _ => none

/-- Reads the rest of an inline table, given how its values are read. -/
def readInline (item : Text → Option (Json × Text)) :
    (fuel : Nat) → Entries → Text → Option (Entries × Text)
  | 0, _, _ => none
  | fuel + 1, entries, s => do
    let (parts, rest) ← readKey s
    let rest ← rest.dropPrefix? ['=']
    let (v, rest) ← item (skipSpaces rest)
    let (path, key) := splitKey parts
    let entries ← entries.assign path key v
    match skipSpaces rest with
    | ',' :: rest => readInline item fuel entries rest
    | '\x7d' :: rest => some (entries, rest)
    | _ => none

/-- Reads a value. Arrays and inline tables are nested no deeper than a limit. -/
def readValue : (depth : Nat) → Text → Option (Json × Text)
  | depth, '[' :: s =>
    match depth with
    | 0 => none
    | depth + 1 =>
      (readItems (readValue depth) (s.length + 1) s).map fun (v, rest) => (.arr v, rest)
  | depth, '\x7b' :: s =>
    match depth with
    | 0 => none
    | depth + 1 =>
      match skipSpaces s with
      | '\x7d' :: rest => some (.obj [], rest)
      | _ =>
        (readInline (readValue depth) (s.length + 1) [] s).map fun (entries, rest) =>
          (.obj (entriesToJson entries), rest)
  | _, s => readScalar s

/-- How deeply arrays and inline tables may be nested. -/
def maxDepth : Nat := 79

/-- A document that is partly read: its entries, and the key of the open table. -/
structure Draft where
  /-- The entries of the document. -/
  entries : Entries
  /-- The key of the open table. -/
  place : List String

/-- Reads one statement, which is neither blank nor a comment. -/
def readStatement (draft : Draft) (s : Text) : Option (Draft × Text) :=
  match s with
  | '[' :: '[' :: s => do
    let (parts, rest) ← readKey s
    let rest ← rest.dropPrefix? [']', ']']
    let (path, key) := splitKey parts
    return (⟨← draft.entries.openNext path key, parts⟩, ← lineEnd? rest)
  | '[' :: s => do
    let (parts, rest) ← readKey s
    let rest ← rest.dropPrefix? [']']
    let (path, key) := splitKey parts
    return (⟨← draft.entries.openTable path key, parts⟩, ← lineEnd? rest)
  | s => do
    let (parts, rest) ← readKey s
    let rest ← rest.dropPrefix? ['=']
    let (v, rest) ← readValue maxDepth (skipSpaces rest)
    let (path, key) := splitKey parts
    return (⟨← draft.entries.assignIn draft.place path key v, draft.place⟩, ← lineEnd? rest)

/-- Reads statements to the end of a text. -/
def readStatements : (fuel : Nat) → Draft → Text → Option Entries
  | 0, _, _ => none
  | fuel + 1, draft, s =>
    match skipSpaces s with
    | [] => some draft.entries
    | '#' :: s => (lineEnd? ('#' :: s)).bind (readStatements fuel draft)
    | s =>
      match newline? s with
      | some rest => readStatements fuel draft rest
      | none => (readStatement draft s).bind fun (draft, rest) => readStatements fuel draft rest

/-- The data of a document. A byte order mark in front of it does not count. -/
def parse? (s : Text) : Option Json :=
  let s := (s.dropPrefix? [Char.ofNat 0xFEFF]).getD s
  (readStatements (s.length + 1) ⟨[], []⟩ s).map fun entries => .obj (entriesToJson entries)

end Stencil.Toml
