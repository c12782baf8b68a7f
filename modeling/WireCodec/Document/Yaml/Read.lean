import WireCodec.Document.Yaml.Scalar

/-!
# YAML

Reads a YAML text as a document: maps and lists by indentation or in brackets, plain and quoted
text, and comments.  Anchors, tags, directives, explicit keys and text blocks are not read.

The floor of a value is the least column at which it may go on: one more than that of the map or
list around it.  A map starts where a line, or a mark of a list, is followed by a key; it has one
key in each line of its column.
-/

namespace WireCodec.Yaml

open Text Text.Reader

def depthLimit : Nat := 128

def keyLimit : Nat := 1024

def nothing : Document := .bare ""

/-! ## Between values -/

/-- Leaves out blanks, comments and line ends.  A tab may not indent. -/
def skipGap (inFlow : Bool) : Reader Unit := do
  let _ ← many (α := Unit) do
    let here ← get
    skip fun c => c == ' ' || (c == '\t' && (inFlow || !here.fresh))
    if (← peek) == some '#' then skip (!isLineEnd ·)
    if ← atLineEnd then
      let _ ← lineEnd
      return some ()
    return none

def column? : Reader (Option Nat) := do
  if (← atEnd) || (← atDocumentMark) then return none
  return some (← get).column

/-- True when what started at a place may be the key of what follows. -/
def mayBeKey (start : Cursor) : Reader Bool := do
  let here ← get
  return start.line == here.line && here.column ≤ start.column + keyLimit

def keyText (key : Document) : Reader String :=
  match key.text? with
  | some text => return text
  | none => failure

/-! ## Collections in brackets -/

/-- Items between commas, behind the opening bracket; the last comma may have nothing behind it. -/
def flowTail {α : Type} (close : Char) (item : Reader α) : Reader (List α) := do
  let items ← many do
    skipGap true
    if (← peek) == some close then return none
    let a ← item
    skipGap true
    unless ← take? ',' do
      unless (← peek) == some close do failure
    return some a
  expect close
  return items

def flowValue (close : Char) (node : Reader Document) : Reader Document := do
  skipGap true
  if (← peek) == some ',' || (← peek) == some close then return nothing
  node

def flowPair (close : Char) (node : Reader Document) : Reader (Document × Option Document) := do
  let start ← get
  let key ← node
  skipGap true
  let isKey ← mayBeKey start
  unless ← take? ':' do return (key, none)
  unless isKey do failure
  return (key, some (← flowValue close node))

/-- An item of a list in brackets; a key and its value make a map of their own. -/
def flowItem (node : Reader Document) : Reader Document := do
  match ← flowPair ']' node with
  | (item, none) => return item
  | (key, some value) => return .table [(← keyText key, value)]

def flowEntry (node : Reader Document) : Reader (String × Document) := do
  let (key, value) ← flowPair '\x7d' node
  return (← keyText key, value.getD nothing)

def flowNode (floor : Nat) : Nat → Reader Document
  | 0 => failure
  | depth + 1 => do
    if ← atDocumentMark then failure
    match ← peek with
    | some '[' => next *> (.list <$> flowTail ']' (flowItem (flowNode floor depth)))
    | some '\x7b' => next *> (.table <$> flowTail '\x7d' (flowEntry (flowNode floor depth)))
    | _ => scalar true floor

/-! ## Collections by indentation -/

def inlineNode (floor depth : Nat) : Reader Document := do
  match ← peek with
  | some '[' | some '\x7b' => flowNode floor depth
  | _ => scalar false floor

def takeColon (start : Cursor) : Reader Bool := do
  skip isSpaceOrTab
  unless ← atMark ':' do return false
  unless start.fresh && (← mayBeKey start) do failure
  let _ ← next
  return true

/-- The items of a list whose marks stand in a column, which the first mark has reached.  A list
that is the value of a key may stand in the column of the key, and then ends at the next key. -/
def listFrom (column : Nat) (sharesColumn : Bool) (node : Nat → Reader Document) :
    Reader Document := do
  let items ← many do
    match ← column? with
    | none => return none
    | some c =>
      if c < column then return none
      if column < c then failure
      if ← atMark '-' then
        let _ ← next
        -- Behind the mark, a list or a map may start on the same line.
        modify ({ · with fresh := true })
        skipGap false
        let item ← match ← column? with
          | none => pure nothing
          | some c => if column < c then node (column + 1) else pure nothing
        skipGap false
        return some item
      if sharesColumn then return none else failure
  return .list items

def mapValue (column : Nat) (node : Nat → Reader Document) : Reader Document := do
  skipGap false
  match ← column? with
  | none => return nothing
  | some c =>
    if column < c then node (column + 1)
    else if c == column && (← atMark '-') then listFrom column true node
    else return nothing

def mapFrom (column : Nat) (first : String) (node : Nat → Reader Document) : Reader Document := do
  let value ← mapValue column node
  let others ← many do
    skipGap false
    match ← column? with
    | none => return none
    | some c =>
      if c < column then return none
      -- A line further right would have to belong to the value, which has ended.
      if column < c then failure
      let start ← get
      let key ← scalar false (column + 1)
      unless ← takeColon start do failure
      return some (← keyText key, ← mapValue column node)
  return .table ((first, value) :: others)

/-- A value that starts here and goes on from a floor, with so many levels at most. -/
def node : Nat → Nat → Reader Document
  | 0, _ => failure
  | depth + 1, floor => do
    let start ← get
    if ← atMark '-' then
      unless start.fresh do failure
      listFrom start.column false (node depth)
    else
      -- What is read may turn out to be the first key of a map.
      let d ← inlineNode floor depth
      if ← takeColon start then mapFrom start.column (← keyText d) (node depth) else return d

/-! ## Files -/

def isAllowed (c : Char) : Bool :=
  let n := c.toNat
  c == '\t' || c == '\n' || c == '\r' || (0x20 ≤ n && n ≤ 0x7E) || n == 0x85 ||
    (0xA0 ≤ n && n ≠ 0xFFFE && n ≠ 0xFFFF)

def skipEndMarks : Reader Unit := do
  let _ ← many (α := Unit) do
    skipGap false
    if (← atDocumentMark) && (← startsWith "...") then
      expectAll ['.', '.', '.']
      return some ()
    return none

def file : Reader Document := do
  skipGap false
  if ← atDocumentMark then
    expectAll ['-', '-', '-']
    skipGap false
  let d ← match ← column? with
    | none => pure nothing
    | some _ => node depthLimit 0
  skipEndMarks
  return d

/-- The document that a text spells; a byte order mark in front is left out. -/
def read (s : String) : Option Document :=
  let chars := if s.startsWith "\uFEFF" then s.toList.drop 1 else s.toList
  if chars.all isAllowed then readAll file (.ofList chars) else none

end WireCodec.Yaml
