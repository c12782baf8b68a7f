import WireCodec.Text.Digits

/-!
# Reading text from the front

A `Reader` takes something from the front of a text or finds that it is not there.  The cursor knows
its line and column, and whether only indentation stands in front of it on its line, for the formats
in which that matters.
-/

namespace WireCodec.Text

structure Cursor where
  rest : List Char
  line : Nat
  column : Nat
  /-- True when only indentation stands in front on the line. -/
  fresh : Bool

/-- The characters that end a line; a carriage return and a line feed end one together. -/
def isLineEnd (c : Char) : Bool :=
  c == '\n' || c == '\r' || c == '\u0085' || c == '\u2028' || c == '\u2029'

def isSpaceOrTab (c : Char) : Bool := c == ' ' || c == '\t'

namespace Cursor

def start (s : String) : Cursor := ⟨s.toList, 0, 0, true⟩

def advance (at_ : Cursor) (c : Char) (rest : List Char) : Cursor :=
  if isLineEnd c && !(c == '\r' && rest.head? == some '\n') then ⟨rest, at_.line + 1, 0, true⟩
  else ⟨rest, at_.line, at_.column + 1, at_.fresh && (isSpaceOrTab c || isLineEnd c)⟩

end Cursor

abbrev Reader := StateT Cursor Option

def repeatUpTo {σ α : Type} (step : StateT σ Option (Option α)) : Nat → StateT σ Option (List α)
  | 0 => failure
  | n + 1 => do
    match ← step with
    | none => return []
    | some a => return a :: (← repeatUpTo step n)

namespace Reader

variable {α : Type}

def readAll (r : Reader α) (s : String) : Option α :=
  match r.run (.start s) with
  | some (a, ⟨[], _, _, _⟩) => some a
  | _ => none

def rest : Reader (List Char) := return (← get).rest

def peek : Reader (Option Char) := return (← rest).head?

def next : Reader Char := do
  let here ← get
  match here.rest with
  | [] => failure
  | c :: rest =>
    set (here.advance c rest)
    return c

def atEnd : Reader Bool := return (← rest).isEmpty

def take? (c : Char) : Reader Bool := do
  if (← peek) == some c then
    let _ ← next
    return true
  return false

def expect (c : Char) : Reader Unit := do
  unless ← take? c do failure

def expectAll (text : List Char) : Reader Unit := text.forM expect

def startsWith (text : String) : Reader Bool := return text.toList.isPrefixOf (← rest)

def many (step : Reader (Option α)) : Reader (List α) := do
  repeatUpTo step ((← rest).length + 1)

def takeWhile (p : Char → Bool) : Reader (List Char) := do
  (← rest).takeWhile p |>.mapM fun _ => next

def takeSome (p : Char → Bool) : Reader (List Char) := do
  let taken ← takeWhile p
  if taken.isEmpty then failure
  return taken

def skip (p : Char → Bool) : Reader Unit := do
  let _ ← takeWhile p

def hexDigits (count : Nat) : Reader Nat := do
  let digits ← (List.replicate count ()).mapM fun () => next
  match readDigits 16 digits with
  | some n => return n
  | none => failure

/-- The character of a code point; surrogates have none. -/
def charOf (codePoint : Nat) : Reader Char :=
  if codePoint.isValidChar then return .ofNat codePoint else failure

end Reader

end WireCodec.Text
