import WireCodec.Length.Expr
import WireCodec.Text.Blank
import WireCodec.Text.Word

/-!
# Tokens of length expressions

Text is first searched for comment marks and then cut into tokens, each with the position of its
first character.  A run of letters, digits and underscores is one token, as long as it can be: a
numeral when it starts with a digit and a name otherwise.  Blanks only separate.
-/

namespace WireCodec.Length

inductive Token where
  | integer (value : UInt64)
  | name (text : String)
  | operator (op : Operator)
  | leftParen
  | rightParen
  deriving DecidableEq, Repr

/-- A token and the number of characters in front of it. -/
structure Placed where
  position : Nat
  token : Token
  deriving DecidableEq, Repr

def Token.describe : Token → String
  | integer value => s!"integer {value.toNat}"
  | name text => s!"identifier '{text}'"
  | operator op => s!"'{op.symbol}'"
  | leftParen => "'('"
  | rightParen => "')'"

inductive SourceError where
  | empty
  /-- A comment mark starts after so many bytes. -/
  | comment (offset : Nat)
  | strayCharacter (c : Char) (position : Nat)
  /-- A run that starts with a digit is no 64-bit numeral. -/
  | badInteger (text : String) (position : Nat)
  /-- An operand was wanted. -/
  | unexpected (token : Token) (position : Nat)
  /-- The expression was complete. -/
  | trailing (token : Token) (position : Nat) (source : String)
  | unclosed (position : Nat)
  | endsEarly
  deriving DecidableEq, Repr

namespace SourceError

def message : SourceError → String
  | empty => "empty length expression"
  | comment offset => s!"comments are not allowed within length expressions (at char {offset})"
  | strayCharacter c position =>
    s!"unexpected character '{c}' at char {position} in length expression"
  | badInteger text position => s!"invalid integer literal '{text}' at char {position}"
  | unexpected token position =>
    s!"unexpected {token.describe} at char {position} in length expression"
  | trailing token position source =>
    s!"unexpected {token.describe} at char {position} in length expression '{source}'"
  | unclosed position => s!"unclosed '(' at char {position} in length expression"
  | endsEarly => "length expression ends unexpectedly"

end SourceError

/-! ## Comments -/

def isCommentMark (c d : Char) : Bool :=
  (c == '/' && (d == '/' || d == '*')) || (c == '*' && d == '/')

/-- The number of bytes in front of the first comment mark, when `offset` bytes came before. -/
def findComment (offset : Nat) : List Char → Option Nat
  | c :: d :: rest =>
    if isCommentMark c d then some offset else findComment (offset + c.utf8Size) (d :: rest)
  | _ => none

/-! ## Runs -/

/-- The word that a run of letters, digits and underscores spells as a numeral.  Underscores do not
count; `0x` in front means base sixteen. -/
def readInteger (digits : List Char) : Option UInt64 :=
  match digits with
  | '0' :: 'x' :: hex | '0' :: 'X' :: hex => (Text.readWord 16 hex).map UInt64.ofNat
  | _ => (Text.readWord 10 digits).map UInt64.ofNat

def readRun (position : Nat) (run : List Char) : Except SourceError Placed :=
  if run.head?.any Char.isDigit then
    let digits := run.filter (· != '_')
    match readInteger digits with
    | some value => .ok ⟨position, .integer value⟩
    | none => .error (.badInteger (String.ofList digits) position)
  else .ok ⟨position, .name (String.ofList run)⟩

def symbolToken? (c : Char) : Option Token :=
  match Operator.ofChar? c with
  | some op => some (.operator op)
  | none => if c = '(' then some .leftParen else if c = ')' then some .rightParen else none

/-! ## Tokens -/

/-- A run that may still go on: where it started and its characters so far, the last one first. -/
structure OpenRun where
  position : Nat
  reversed : List Char

def closeRun (run : Option OpenRun) (rest : Unit → Except SourceError (List Placed)) :
    Except SourceError (List Placed) :=
  match run with
  | none => rest ()
  | some r => do
    let token ← readRun r.position r.reversed.reverse
    return token :: (← rest ())

/-- The tokens of text whose first character stands at a position, behind a run that may go on. -/
def scan (position : Nat) (run : Option OpenRun) : List Char → Except SourceError (List Placed)
  | [] => closeRun run fun _ => .ok []
  | c :: rest =>
    if Text.isWordChar c then
      match run with
      | some r => scan (position + 1) (some ⟨r.position, c :: r.reversed⟩) rest
      | none => scan (position + 1) (some ⟨position, [c]⟩) rest
    else
      closeRun run fun _ =>
        if Text.isBlank c then scan (position + 1) none rest
        else
          match symbolToken? c with
          | some token => do return ⟨position, token⟩ :: (← scan (position + 1) none rest)
          | none => .error (.strayCharacter c position)

def tokens (source : List Char) : Except SourceError (List Placed) :=
  scan 0 none source

end WireCodec.Length
