import WireCodec.Document.Basic

/-!
# Tables that grow

The lines of a TOML file build one tree of tables.  A table remembers how it came to be, because
that decides what may still be added to it: each table has at most one header, and dotted keys do
not reach into a table that has one.
-/

namespace WireCodec.Toml

/-- How a table came to be. -/
inductive Origin where
  /-- It has a header of its own, or is an element of an array of tables. -/
  | header
  /-- A header of a table inside it asked for it. -/
  | implied
  /-- A dotted key asked for it. -/
  | dotted
  deriving DecidableEq, Repr

inductive Node where
  | value (d : Document)
  | table (origin : Origin) (entries : List (String × Node))
  | tables (elements : List (List (String × Node)))

abbrev Entries := List (String × Node)

def put (key : String) (node : Node) : Entries → Entries
  | [] => [(key, node)]
  | (k, n) :: rest => if k = key then (k, node) :: rest else (k, n) :: put key node rest

/-- Changes the table at the end of a path.  Tables that are missing on the way are made; of an
array of tables the last one is meant. -/
def changeAt (change : Entries → Option Entries) : List String → Entries → Option Entries
  | [], entries => change entries
  | key :: path, entries =>
    match entries.lookup key with
    | none => do return put key (.table .implied (← changeAt change path [])) entries
    | some (.table origin inner) => do
      return put key (.table origin (← changeAt change path inner)) entries
    | some (.tables elements) => do
      let last ← elements.getLast?
      return put key (.tables (elements.dropLast ++ [← changeAt change path last])) entries
    | some (.value _) => none

def openTable (key : String) (entries : Entries) : Option Entries :=
  match entries.lookup key with
  | none => some (put key (.table .header []) entries)
  -- The header of a table inside may have come first.
  | some (.table .implied inner) => some (put key (.table .header inner) entries)
  | some _ => none

def openElement (key : String) (entries : Entries) : Option Entries :=
  match entries.lookup key with
  | none => some (put key (.tables [[]]) entries)
  | some (.tables elements) => some (put key (.tables (elements ++ [[]])) entries)
  | some _ => none

/-- Gives a key in a table a value.  The table is one that dotted keys made, unless the key has no
dots itself. -/
def addValue (dotted : Bool) (key : String) (d : Document) (origin : Origin) (entries : Entries) :
    Option Entries :=
  if dotted = decide (origin = .dotted) ∧ (entries.lookup key).isNone then
    some (put key (.value d) entries)
  else none

/-- Gives a dotted key a value, in a table that came to be in some way. -/
def addDotted (dotted : Bool) (key : String) (d : Document) :
    List String → Origin → Entries → Option Entries
  | [], origin, entries => addValue dotted key d origin entries
  | first :: path, _, entries =>
    match entries.lookup first with
    | none => do
      return put first (.table .dotted (← addDotted dotted key d path .dotted [])) entries
    -- A table with a header is closed to dotted keys.
    | some (.table .header _) => none
    | some (.table origin inner) => do
      return put first (.table origin (← addDotted dotted key d path origin inner)) entries
    | some (.tables elements) => do
      let last ← elements.getLast?
      let changed ← addDotted dotted key d path .header last
      return put first (.tables (elements.dropLast ++ [changed])) entries
    | some (.value _) => none

def addEntry (path : List String) (d : Document) (entries : Entries) : Option Entries :=
  match path.getLast? with
  | none => none
  | some key => addDotted (1 < path.length) key d path.dropLast .header entries

mutual

def Node.document : Node → Document
  | .value d => d
  | .table _ entries => .table (documents entries)
  | .tables elements => .list (tableDocuments elements)

def documents : List (String × Node) → List (String × Document)
  | [] => []
  | (key, node) :: rest => (key, node.document) :: documents rest

def tableDocuments : List (List (String × Node)) → List Document
  | [] => []
  | entries :: rest => .table (documents entries) :: tableDocuments rest

end

end WireCodec.Toml
