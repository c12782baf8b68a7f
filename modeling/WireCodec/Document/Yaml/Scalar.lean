import WireCodec.Document.Basic
import WireCodec.Text.Reader

/-!
# Text in YAML

Text stands in quotes of two kinds or plain.  All three may go over several lines; the blanks around
a line end are then folded into one space, and empty lines into line ends.
-/

namespace WireCodec.Yaml

open Text Text.Reader

/-! ## Marks -/

def endsWord (s : List Char) : Bool := s.head?.all fun c => isSpaceOrTab c || isLineEnd c

def atMark (mark : Char) : Reader Bool := do
  match ← rest with
  | c :: r => return c == mark && endsWord r
  | [] => return false

def atDocumentMark : Reader Bool := do
  let here ← get
  return here.column == 0 &&
    (["---", "..."].any fun mark =>
      mark.toList.isPrefixOf here.rest && endsWord (here.rest.drop 3))

/-! ## Line folding -/

/-- Takes a line end.  Separators of lines and paragraphs stay what they are; all others become a
line feed. -/
def lineEnd : Reader Char := do
  match ← next with
  | '\r' =>
    let _ ← take? '\n'
    return '\n'
  | '\n' => return '\n'
  | '\u0085' => return '\n'
  | '\u2028' => return '\u2028'
  | '\u2029' => return '\u2029'
  | _ => failure

def atLineEnd : Reader Bool := return (← peek).any isLineEnd

/-- Takes the blanks at the start of a line.  A tab in front of the floor is out of place. -/
def lineStart (floor : Nat) : Reader Unit := do
  let _ ← many (α := Char) do
    let here ← get
    match here.rest.head? with
    | some '\t' => if here.column < floor then failure else some <$> next
    | some ' ' => some <$> next
    | _ => return none

def moreLineEnds (floor : Nat) : Reader (List Char) :=
  many do
    lineStart floor
    if ← atLineEnd then some <$> lineEnd else return none

/-- Takes the blanks and line ends between two words of a text; the answer is what they are folded
into, and whether there was a line end. -/
def folded (floor : Nat) : Reader (List Char × Bool) := do
  let blanks ← takeWhile isSpaceOrTab
  unless ← atLineEnd do return (blanks, false)
  let first ← lineEnd
  let more ← moreLineEnds floor
  -- A separator of lines or paragraphs is never folded away.
  if first ≠ '\n' then return (first :: more, true)
  return (if more.isEmpty then [' '] else more, true)

/-! ## Text in quotes -/

def escaped : Reader Char := do
  match ← next with
  | '0' => return '\x00'
  | 'a' => return '\x07'
  | 'b' => return '\x08'
  | 't' => return '\t'
  | '\t' => return '\t'
  | 'n' => return '\n'
  | 'v' => return '\x0b'
  | 'f' => return '\x0c'
  | 'r' => return '\r'
  | 'e' => return '\x1b'
  | ' ' => return ' '
  | '"' => return '"'
  | '/' => return '/'
  | '\\' => return '\\'
  | 'N' => return '\u0085'
  | '_' => return '\u00A0'
  | 'L' => return '\u2028'
  | 'P' => return '\u2029'
  | 'x' => do charOf (← hexDigits 2)
  | 'u' => do charOf (← hexDigits 4)
  | 'U' => do charOf (← hexDigits 8)
  | _ => failure

/-- The next piece of text in quotes; nothing behind the closing one. -/
def quotedPiece (quote : Char) : Reader (Option (List Char)) := do
  if ← atDocumentMark then failure
  match ← peek with
  | none => failure
  | some c =>
    if isSpaceOrTab c || isLineEnd c then return some (← folded 0).1
    let _ ← next
    if c == quote then
      if quote == '\'' && (← take? quote) then return some [quote] else return none
    else if c == '\\' && quote == '"' then
      if ← atLineEnd then
        let _ ← lineEnd
        some <$> moreLineEnds 0
      else return some [← escaped]
    else return some [c]

def quotedTail (quote : Char) : Reader String := do
  return .ofList (← many (quotedPiece quote)).flatten

/-! ## Plain text -/

def isFlowMark (c : Char) : Bool := [',', '[', ']', '\x7b', '\x7d'].contains c

def isIndicator (c : Char) : Bool :=
  isFlowMark c ||
    ['-', '?', ':', '#', '&', '*', '!', '|', '>', '\'', '"', '%', '@', '\x60'].contains c

def startsPlain (inFlow : Bool) : List Char → Bool
  | [] => false
  | c :: r =>
    !isSpaceOrTab c && !isLineEnd c &&
      (!isIndicator c ||
        (c == '-' && !endsWord r) ||
        (!inFlow && (c == '?' || c == ':') && !endsWord r))

def wordChar (inFlow : Bool) : Reader (Option Char) := do
  match ← rest with
  | [] => return none
  | c :: r =>
    if isSpaceOrTab c || isLineEnd c then return none
    if inFlow && c == ':' && r.head?.any (fun d => isFlowMark d || d == '?') then failure
    if (c == ':' && endsWord r) || (inFlow && isFlowMark c) then return none
    some <$> next

/-- What plain text goes on with: what stands between the words, and a word.  The blanks behind the
text are taken with it. -/
def nextWord (inFlow : Bool) (floor : Nat) : Reader (Option (List Char)) := do
  let (between, crossed) ← folded floor
  if between.isEmpty then return none
  let here ← get
  -- A line that starts too far left belongs to something outside.
  if crossed && !inFlow && here.column < floor then return none
  if here.rest.head? == some '#' || (← atDocumentMark) then return none
  let word ← many (wordChar inFlow)
  return if word.isEmpty then none else some (between ++ word)

/-- Plain text whose further lines start no further left than the floor. -/
def plain (inFlow : Bool) (floor : Nat) : Reader String := do
  unless startsPlain inFlow (← rest) do failure
  let first ← many (wordChar inFlow)
  let others ← many (nextWord inFlow floor)
  return .ofList (first ++ others.flatten)

def scalar (inFlow : Bool) (floor : Nat) : Reader Document := do
  match ← peek with
  | some '"' => next *> (.text <$> quotedTail '"')
  | some '\'' => next *> (.text <$> quotedTail '\'')
  | _ => .bare <$> plain inFlow floor

end WireCodec.Yaml
