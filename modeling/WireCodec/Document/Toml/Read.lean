import WireCodec.Document.Toml.Tree
import WireCodec.Text.Reader

/-!
# TOML

Reads a TOML text as a document.  The text is a list of statements, one to a line; carrying them out
from the first to the last gives the tree.  Numbers and dates are only taken note of.
-/

namespace WireCodec.Toml

open Text Text.Reader

inductive Statement where
  | entry (path : List String) (value : Document)
  | table (path : List String)
  | element (path : List String)

/-! ## Blanks and comments -/

/-- The characters that may stand in comments and literal text: no control character but the tab. -/
def isPlain (c : Char) : Bool := c == '\t' || (0x20 ≤ c.toNat && c.toNat ≠ 0x7F)

def lineEnd : Reader Unit := do
  let _ ← take? '\r'
  expect '\n'

def atLineEnd : Reader Bool := return (← startsWith "\n") || (← startsWith "\x0d\n")

def skipToLineEnd : Reader Unit := do
  skip isSpaceOrTab
  if (← peek) == some '#' then skip isPlain

def skipLines : Reader Unit := do
  let _ ← many (α := Unit) do
    skipToLineEnd
    if ← atLineEnd then some <$> lineEnd else return none

/-! ## Text -/

def escaped : Reader Char := do
  match ← next with
  | 'b' => return '\x08'
  | 't' => return '\t'
  | 'n' => return '\n'
  | 'f' => return '\x0c'
  | 'r' => return '\r'
  | '"' => return '"'
  | '\\' => return '\\'
  | 'u' => do charOf (← hexDigits 4)
  | 'U' => do charOf (← hexDigits 8)
  | _ => failure

/-- The quotes behind text on several lines: three, and one or two that belong to the text. -/
def closingQuotes (quote : Char) : Reader (Option (List Char)) := do
  let quotes ← takeWhile (· == quote)
  match quotes.length with
  | 3 => return none
  | 4 => return some [quote]
  | 5 => return some [quote, quote]
  | _ => failure

def lineText (quote : Char) : Reader String := do
  let chars ← many do
    let c ← next
    if c == quote then return none
    else if c == '\\' && quote == '"' then some <$> escaped
    else if isPlain c then return some c
    else failure
  return .ofList chars

/-- The next piece of text on several lines; nothing in front of three quotes. -/
def blockPiece (quote : Char) (triple : String) : Reader (Option (List Char)) := do
  if ← startsWith triple then return none
  if ← atLineEnd then
    lineEnd
    return some ['\n']
  let c ← next
  if c == '\\' && quote == '"' then
    let here ← get
    skip isSpaceOrTab
    -- At the end of a line, the backslash joins the line with the next word.
    if ← atLineEnd then
      skip fun c => isSpaceOrTab c || c == '\r' || c == '\n'
      return some []
    set here
    return some [← escaped]
  else if isPlain c then return some [c]
  else failure

def blockText (quote : Char) (triple : String) : Reader String := do
  if ← atLineEnd then lineEnd
  let pieces ← many (blockPiece quote triple)
  let last ← closingQuotes quote
  return .ofList (pieces.flatten ++ last.getD [])

def quotedText : Reader String := do
  if ← startsWith "\"\"\"" then
    expectAll ['"', '"', '"']
    blockText '"' "\"\"\""
  else if ← startsWith "'''" then
    expectAll ['\'', '\'', '\'']
    blockText '\'' "'''"
  else
    let quote ← next
    if quote == '"' || quote == '\'' then lineText quote else failure

/-! ## Keys -/

def isKeyChar (c : Char) : Bool := c.isAlphanum || c == '_' || c == '-'

def simpleKey : Reader String := do
  match ← peek with
  | some '"' => next *> lineText '"'
  | some '\'' => next *> lineText '\''
  | _ => .ofList <$> takeSome isKeyChar

def key : Reader (List String) := do
  skip isSpaceOrTab
  let first ← simpleKey
  let others ← many do
    skip isSpaceOrTab
    unless ← take? '.' do return none
    skip isSpaceOrTab
    some <$> simpleKey
  return first :: others

/-! ## Values -/

def depthLimit : Nat := 80

def isBareChar (c : Char) : Bool := c.isAlphanum || ['_', '-', '+', '.', ':'].contains c

def bareValue : Reader Document := do
  match String.ofList (← takeSome isBareChar) with
  | "true" => return .truth true
  | "false" => return .truth false
  | word =>
    if word.toList.any Char.isDigit || ["inf", "+inf", "-inf", "nan", "+nan", "-nan"].contains word
    then return .other
    else failure

def pair (value : Reader Document) : Reader (List String × Document) := do
  let path ← key
  expect '='
  skip isSpaceOrTab
  return (path, ← value)

def arrayTail (value : Reader Document) : Reader Document := do
  let items ← many do
    skipLines
    if (← peek) == some ']' then return none
    let item ← value
    skipLines
    -- A comma may stand behind the last item.
    unless ← take? ',' do
      unless (← peek) == some ']' do failure
    return some item
  expect ']'
  return .list items

def inlineTail (value : Reader Document) : Reader Document := do
  skip isSpaceOrTab
  if ← take? '\x7d' then return .table []
  let first ← pair value
  let others ← many do
    skip isSpaceOrTab
    if ← take? '\x7d' then return none
    -- No line end may stand here, and behind a comma there must be an entry.
    expect ','
    some <$> pair value
  match (first :: others).foldlM (fun es (path, d) => addEntry path d es) [] with
  | some entries => return (Node.table .header entries).document
  | none => failure

def value : Nat → Reader Document
  | 0 => failure
  | depth + 1 => do
    match ← peek with
    | some '[' => next *> arrayTail (value depth)
    | some '\x7b' => next *> inlineTail (value depth)
    | some '"' | some '\'' => .text <$> quotedText
    | _ => bareValue

/-! ## Files -/

def statement : Reader Statement := do
  if ← startsWith "[[" then
    expectAll ['[', '[']
    let path ← key
    expectAll [']', ']']
    return .element path
  else if ← take? '[' then
    let path ← key
    expect ']'
    return .table path
  else
    let (path, d) ← pair (value depthLimit)
    return .entry path d

def statements : Reader (List Statement) :=
  many do
    skipLines
    if ← atEnd then return none
    let s ← statement
    skipToLineEnd
    unless ← atEnd do lineEnd
    return some s

/-- Carries out a statement in a tree whose last header named the table at a path. -/
def carryOut : List String × Entries → Statement → Option (List String × Entries)
  | (here, root), .entry path d => do
    return (here, ← changeAt (addEntry path d) here root)
  | (_, root), .table path => do
    return (path, ← changeAt (openTable (← path.getLast?)) path.dropLast root)
  | (_, root), .element path => do
    return (path, ← changeAt (openElement (← path.getLast?)) path.dropLast root)

/-- The document that a text spells; a byte order mark in front is left out. -/
def read (s : String) : Option Document := do
  let list ← readAll (take? '\uFEFF' *> statements) s
  let (_, root) ← list.foldlM carryOut ([], [])
  return .table (documents root)

end WireCodec.Toml
