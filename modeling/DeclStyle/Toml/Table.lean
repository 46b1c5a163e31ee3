import DeclStyle.Toml.Value

/-!
# Tables under construction

A configuration file is read as a list of statements: headers of tables, headers of elements of
arrays of tables, and keys with values.  This module puts the statements together into one table,
and refuses what would define a key or a table twice.

How a table came about decides what may be added to it.  A header defines a table for good; a table
that only lies on the path of a header may still be defined; one that dotted keys made may be
extended by dotted keys alone.
-/

namespace DeclStyle.Toml

/-- How a table came about. -/
inductive TableOrigin where
  /-- It lies on the path to a table with a header. -/
  | implied
  /-- It was made by a dotted key. -/
  | dotted
  /-- It has a header of its own. -/
  | defined
  deriving DecidableEq, Repr

/-- What a key stands for while a file is read. -/
inductive Item where
  | value (v : Toml)
  | table (origin : TableOrigin) (entries : List (String × Item))
  | tables (elements : List (List (String × Item)))
  deriving Inhabited

/-- The keys of a table with what they stand for, in the order of their first mention. -/
abbrev Entries := List (String × Item)

namespace Entries

/-- What a key stands for. -/
def get? (key : String) (t : Entries) : Option Item := (t.find? (·.1 == key)).map (·.2)

/-- The table with a key standing for something else. -/
def set (key : String) (item : Item) : Entries → Entries
  | [] => [(key, item)]
  | (k, old) :: rest => if k == key then (k, item) :: rest else (k, old) :: set key item rest

/-- Changes the table at the end of a path of headers.  Tables on the way are made where there are
none, and of an array of tables the last element is meant. -/
def updateAt (change : Entries → Option Entries) : List String → Entries → Option Entries
  | [], t => change t
  | key :: path, t =>
    match get? key t with
    | none => (updateAt change path []).map fun sub => set key (.table .implied sub) t
    | some (.table origin sub) =>
      (updateAt change path sub).map fun sub' => set key (.table origin sub') t
    | some (.tables elements) =>
      match elements.getLast? with
      | none => none
      | some last =>
        (updateAt change path last).map fun last' =>
          set key (.tables (elements.dropLast ++ [last'])) t
    | some (.value _) => none

/-- Defines a table by a header. -/
def defineTable (key : String) (t : Entries) : Option Entries :=
  match get? key t with
  | none => some (set key (.table .defined []) t)
  | some (.table .implied sub) => some (set key (.table .defined sub) t)
  | some _ => none

/-- Adds an element to an array of tables by a header. -/
def addElement (key : String) (t : Entries) : Option Entries :=
  match get? key t with
  | none => some (set key (.tables [[]]) t)
  | some (.tables elements) => some (set key (.tables (elements ++ [[]])) t)
  | some _ => none

/-- Gives a value to a key that has none. -/
def addValue (key : String) (v : Toml) (t : Entries) : Option Entries :=
  match get? key t with
  | none => some (set key (.value v) t)
  | some _ => none

/-- Gives a value to a dotted key.  Its last table has to be one that dotted keys made, and the
tables on the way must not have headers of their own. -/
def addDotted (v : Toml) : List String → Entries → Option Entries
  | [], _ => none
  | [key], t => addValue key v t
  | key :: key' :: path, t =>
    let isLast := path.isEmpty
    match get? key t with
    | none => (addDotted v (key' :: path) []).map fun sub => set key (.table .dotted sub) t
    | some (.table .dotted sub) =>
      (addDotted v (key' :: path) sub).map fun sub' => set key (.table .dotted sub') t
    | some (.table .implied sub) =>
      if isLast then none
      else (addDotted v (key' :: path) sub).map fun sub' => set key (.table .implied sub') t
    | some (.tables elements) =>
      match isLast, elements.getLast? with
      | false, some last =>
        (addDotted v (key' :: path) last).map fun last' =>
          set key (.tables (elements.dropLast ++ [last'])) t
      | _, _ => none
    | some (.table .defined _) => none
    | some (.value _) => none

mutual

/-- The finished value of an item. -/
def finishItem : Item → Toml
  | .value v => v
  | .table _ entries => .table (finish entries)
  | .tables elements => .arr (finishAll elements)

/-- The finished entries of a table. -/
def finish : List (String × Item) → List (String × Toml)
  | [] => []
  | (key, item) :: rest => (key, finishItem item) :: finish rest

/-- The finished elements of an array of tables. -/
def finishAll : List (List (String × Item)) → List Toml
  | [] => []
  | element :: rest => .table (finish element) :: finishAll rest

end

/-- The table of an inline table's keys and values. -/
def ofPairs? (pairs : List (List String × Toml)) : Option (List (String × Toml)) :=
  (pairs.foldlM (fun t (path, v) => addDotted v path t) []).map finish

end Entries

/-- A statement of a configuration file. -/
inductive Statement where
  /-- A header: the path of its table and the key of the table. -/
  | header (path : List String) (key : String)
  /-- A header of an element of an array of tables. -/
  | elementHeader (path : List String) (key : String)
  /-- A dotted key with its value, in the table of the last header. -/
  | assign (path : List String) (v : Toml)

/-- A file read so far: its table, and the path of the last header. -/
structure Document where
  current : List String
  root : Entries

namespace Document

/-- Takes a statement into account. -/
def add (doc : Document) : Statement → Option Document
  | .header path key =>
    (Entries.updateAt (Entries.defineTable key) path doc.root).map (⟨path ++ [key], ·⟩)
  | .elementHeader path key =>
    (Entries.updateAt (Entries.addElement key) path doc.root).map (⟨path ++ [key], ·⟩)
  | .assign path v =>
    (Entries.updateAt (Entries.addDotted v path) doc.current doc.root).map (⟨doc.current, ·⟩)

/-- The table that statements describe. -/
def ofStatements? (statements : List Statement) : Option (List (String × Toml)) :=
  (statements.foldlM add ⟨[], []⟩).map fun doc => Entries.finish doc.root

end Document

end DeclStyle.Toml
