/-!
# Documents

What the files read here are made of, whatever format they are written in: text, lists and tables of
named entries.  Everything else is only told apart as far as the files have a use for it.
-/

namespace WireCodec

inductive Document where
  | text (value : String)
  /-- A word without quotes, in a format that lets it stand for text. -/
  | bare (word : String)
  | truth (value : Bool)
  | null
  | other
  | list (items : List Document)
  /-- Entries in order; a name may come again. -/
  | table (entries : List (String × Document))

/-- How a list may stand for a table: its items are then the values of the keys, in order, and those
at the end may be left out. -/
inductive PositionalForm where
  /-- It may not. -/
  | refused
  /-- There may be no more items than keys. -/
  | exact
  /-- Items that are too many are not looked at. -/
  | loose
  deriving DecidableEq, Repr

namespace Document

def text? : Document → Option String
  | text value => some value
  | bare word => some word
  | _ => none

def truth? : Document → Option Bool
  | truth value => some value
  | _ => none

def isAbsent : Document → Bool
  | null => true
  | bare word => ["", "~", "null", "Null", "NULL"].contains word
  | _ => false

/-- The items of a list; an empty word may stand for the empty list. -/
def items? : Document → Option (List Document)
  | list items => some items
  | bare "" => some []
  | _ => none

/-- The entries of a table; an empty word may stand for the empty table. -/
def entries? : Document → Option (List (String × Document))
  | table entries => some entries
  | bare "" => some []
  | _ => none

def texts? (d : Document) : Option (List String) := do
  (← d.items?).mapM text?

/-- The value of each key in turn, in a table that has no other keys and none of them twice. -/
def members? (form : PositionalForm) (keys : List String) :
    Document → Option (List (Option Document))
  | list items =>
    if form = .refused ∨ (form = .exact ∧ keys.length < items.length) then none
    else some ((List.range keys.length).map (items[·]?))
  | d => do
    let entries ← d.entries?
    let names := entries.map Prod.fst
    guard (names.all keys.contains && names.eraseDups.length == names.length)
    return keys.map (List.lookup · entries)

end Document

end WireCodec
