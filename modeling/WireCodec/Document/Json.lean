import WireCodec.Document.Basic
import WireCodec.Text.Reader

/-!
# JSON

Reads a JSON text as a document.  Values may lie 127 levels deep.
-/

namespace WireCodec.Json

open Text Text.Reader

def isBlank (c : Char) : Bool := c == ' ' || c == '\t' || c == '\n' || c == '\r'

def depthLimit : Nat := 128

/-! ## Text -/

/-- The character of a code in an escape; two surrogates make one. -/
def escapedUnit : Reader Char := do
  let unit ← hexDigits 4
  -- A high surrogate needs a low one, and neither may stand alone.
  if 0xD800 ≤ unit ∧ unit < 0xDC00 then
    expectAll ['\\', 'u']
    let low ← hexDigits 4
    unless 0xDC00 ≤ low ∧ low < 0xE000 do failure
    charOf (0x10000 + (unit - 0xD800) * 0x400 + (low - 0xDC00))
  else charOf unit

def escaped : Reader Char := do
  match ← next with
  | '"' => return '"'
  | '\\' => return '\\'
  | '/' => return '/'
  | 'b' => return '\x08'
  | 'f' => return '\x0c'
  | 'n' => return '\n'
  | 'r' => return '\r'
  | 't' => return '\t'
  | 'u' => escapedUnit
  | _ => failure

def stringTail : Reader String := do
  let chars ← many do
    match ← next with
    | '"' => return none
    | '\\' => some <$> escaped
    | c => if c.toNat < 0x20 then failure else return some c
  return .ofList chars

/-! ## Numbers -/

/-- A number: digits without a leading zero, then perhaps a fraction and an exponent. -/
def number : Reader Unit := do
  let _ ← take? '-'
  let whole ← takeSome Char.isDigit
  if whole.head? == some '0' && whole.length ≠ 1 then failure
  if ← take? '.' then
    let _ ← takeSome Char.isDigit
  if [some 'e', some 'E'].contains (← peek) then
    let _ ← next
    unless ← take? '+' do
      let _ ← take? '-'
    let _ ← takeSome Char.isDigit

/-! ## Values -/

def itemsTail {α : Type} (close : Char) (item : Reader α) : Reader (List α) := do
  skip isBlank
  if ← take? close then return []
  let first ← item
  let others ← many do
    skip isBlank
    if ← take? close then return none
    expect ','
    some <$> item
  return first :: others

def entry (value : Reader Document) : Reader (String × Document) := do
  skip isBlank
  expect '"'
  let name ← stringTail
  skip isBlank
  expect ':'
  return (name, ← value)

def value : Nat → Reader Document
  | 0 => failure
  | depth + 1 => do
    skip isBlank
    -- What else could start a value is a number, or nothing.
    match ← peek with
    | some '"' => next *> (.text <$> stringTail)
    | some '[' => next *> (.list <$> itemsTail ']' (value depth))
    | some '\x7b' => next *> (.table <$> itemsTail '\x7d' (entry (value depth)))
    | some 'n' => expectAll "null".toList *> pure .null
    | some 't' => expectAll "true".toList *> pure (.truth true)
    | some 'f' => expectAll "false".toList *> pure (.truth false)
    | _ => number *> pure .other

def read (s : String) : Option Document :=
  readAll (value depthLimit <* skip isBlank) s

end WireCodec.Json
