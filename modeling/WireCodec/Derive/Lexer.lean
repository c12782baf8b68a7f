import WireCodec.Derive.Token
import WireCodec.Text.Blank
import WireCodec.Text.Letter
import WireCodec.Text.Reader

/-!
# From text to tokens

Blanks and comments separate tokens; a comment that documents something stands for an attribute.
-/

namespace WireCodec.Derive

open Text Text.Reader

/-- A token, or one side of a pair of brackets. -/
inductive Lexeme where
  | leaf (t : Token)
  | opening (d : Delimiter)
  | closing (d : Delimiter)

/-! ## Blanks and comments -/

def isGap (c : Char) : Bool := isBlank c || c == '\u200E' || c == '\u200F'

/-- What follows a comment that may hold others, so many of which are still open. -/
def behindBlock : Nat → List Char → Option (List Char)
  | _, [] => none
  | 0, '*' :: '/' :: rest => some rest
  | n + 1, '*' :: '/' :: rest => behindBlock n rest
  | n, '/' :: '*' :: rest => behindBlock (n + 1) rest
  | n, _ :: rest => behindBlock n rest

def lineComment : Reader (List Char) := takeWhile (· ≠ '\n')

def blockComment : Reader (List Char) := do
  let here ← rest
  match behindBlock 0 (here.drop 2) with
  | some behind =>
    modify ({ · with rest := behind })
    return here.take (here.length - behind.length)
  | none => failure

/-- True in front of text that starts with some characters and does not go on with others. -/
def startsOnly (text : String) (longer : List String) : Reader Bool := do
  return (← startsWith text) && !(← longer.anyM startsWith)

def skipGap : Reader Unit := do
  let _ ← many (α := Unit) do
    if (← peek).any isGap then some <$> skip isGap
    -- Four slashes, three stars, or stars that close at once document nothing.
    else if (← startsWith "////") || (← startsOnly "//" ["///", "//!"]) then
      let _ ← lineComment
      return some ()
    else if (← startsWith "/**/") || (← startsWith "/***") ||
        (← startsOnly "/*" ["/**", "/*!"]) then
      let _ ← blockComment
      return some ()
    else return none

/-- True of text in which every carriage return has a line feed behind it. -/
def endsLinesWhole : List Char → Bool
  | [] => true
  | '\r' :: '\n' :: rest => endsLinesWhole rest
  | '\r' :: _ => false
  | _ :: rest => endsLinesWhole rest

def documentation (inner : Bool) : List Lexeme :=
  [.leaf (.mark '#' false)] ++ (if inner then [.leaf (.mark '!' false)] else []) ++
    [.opening .brackets, .leaf (.word "doc" false), .leaf (.mark '=' false),
      .leaf (.literal (.text "")), .closing .brackets]

def documentation? : Reader (Option (List Lexeme)) := do
  let inLine (inner : Bool) : Reader (Option (List Lexeme)) := do
    let comment ← lineComment
    -- The line feed is no part of the comment, and saves a carriage return in front of it.
    unless endsLinesWhole (comment ++ (← peek).toList) do failure
    return some (documentation inner)
  let inBlock (inner : Bool) : Reader (Option (List Lexeme)) := do
    unless endsLinesWhole (← blockComment) do failure
    return some (documentation inner)
  if ← startsWith "///" then inLine false
  else if ← startsWith "//!" then inLine true
  else if ← startsWith "/**" then inBlock false
  else if ← startsWith "/*!" then inBlock true
  else return none

/-! ## Text in quotes -/

inductive QuotedKind where
  | text
  | bytes
  /-- Characters other than the one that ends such text in memory. -/
  | terminated
  deriving DecidableEq

def QuotedKind.holds (kind : QuotedKind) (c : Char) : Bool :=
  match kind with
  | .text => true
  | .bytes => c.toNat < 0x80
  | .terminated => c ≠ '\x00'

/-- The character of a code point in braces: up to six digits, with underscores behind the first. -/
def bracedCodePoint : Reader Char := do
  expect '\x7b'
  if (← peek) == some '_' then failure
  let digits ← takeWhile fun c => c == '_' || (digitValue c).isSome
  expect '\x7d'
  let digits := digits.filter (· ≠ '_')
  if 6 < digits.length then failure
  match readDigits 16 digits with
  | some n => charOf n
  | none => failure

def escaped (kind : QuotedKind) : Reader Char := do
  let c ← match ← next with
    | 'n' => pure '\n'
    | 'r' => pure '\r'
    | 't' => pure '\t'
    | '\\' => pure '\\'
    | '0' => pure '\x00'
    | '\'' => pure '\''
    | '"' => pure '"'
    | 'x' => do
      let n ← hexDigits 2
      -- Text takes code points from ASCII only.
      if kind = .text ∧ 0x80 ≤ n then failure
      pure (.ofNat n)
    | 'u' => if kind = .bytes then failure else bracedCodePoint
    | _ => failure
  if kind = .terminated ∧ c = '\x00' then failure
  return c

def skipContinuation : Reader Unit := do
  let blanks ← takeWhile fun c => isSpaceOrTab c || c == '\n' || c == '\r'
  unless endsLinesWhole blanks do failure

def quotedTail (kind : QuotedKind) : Reader String := do
  let pieces ← many do
    match ← next with
    | '"' => return none
    | '\\' =>
      if (← peek) == some '\n' || (← peek) == some '\r' then
        skipContinuation
        return some []
      return some [← escaped kind]
    | '\r' => expect '\n' *> pure (some ['\n'])
    | c => if kind.holds c then return some [c] else failure
  return .ofList pieces.flatten

/-- Text up to a quote with so many hashes behind it. -/
def rawContent (hashes : Nat) : List Char → Option (List Char × List Char)
  | [] => none
  | c :: rest =>
    if c = '"' ∧ (List.replicate hashes '#').isPrefixOf rest then some ([], rest.drop hashes)
    else (rawContent hashes rest).map fun (content, rest) => (c :: content, rest)

def rawTail (kind : QuotedKind) : Reader String := do
  let hashes ← takeWhile (· == '#')
  if 255 < hashes.length then failure
  expect '"'
  match rawContent hashes.length (← rest) with
  | some (content, rest) =>
    unless endsLinesWhole content && content.all kind.holds do failure
    modify ({ · with rest })
    return .ofList content
  | none => failure

def atRaw (s : List Char) : Bool := (s.dropWhile (· == '#')).head? == some '"'

def characterTail (kind : QuotedKind) : Reader Unit := do
  let c ← next
  if c == '\\' then
    let _ ← escaped kind
  else unless kind.holds c do failure
  expect '\''

/-! ## Numbers -/

def isDecimal (c : Char) : Bool := c.isDigit || c == '_'

/-- What follows an exponent, if there is one: a letter, perhaps a sign, and a digit at least. -/
def behindExponent? : List Char → Option (List Char)
  | e :: rest =>
    let rest := rest.dropWhile (· == '_')
    let behindSign := match rest with
      | '+' :: r | '-' :: r => r
      | r => r
    let digits := behindSign.dropWhile (· == '_')
    if (e == 'e' || e == 'E') && digits.head?.any Char.isDigit then
      some (digits.dropWhile isDecimal)
    else none
  | [] => none

/-- What follows a number with a fraction or an exponent, if one starts here. -/
def behindFloat? (s : List Char) : Option (List Char) :=
  match s.dropWhile isDecimal with
  | '.' :: rest =>
    -- Two dots are a mark, and a name behind a dot belongs to a field.
    if rest.head?.any fun c => c == '.' || startsIdentifier c then none
    else
      let rest := rest.dropWhile isDecimal
      some ((behindExponent? rest).getD rest)
  | rest => behindExponent? rest

/-- A whole number and what follows it, behind the mark of its base. -/
def wholeNumber? (base : Nat) (s : List Char) : Option (Nat × List Char) := do
  let isDigit (c : Char) : Bool := c == '_' || (digitIn base c).isSome
  let rest := s.dropWhile isDigit
  if rest.head?.any Char.isDigit then failure
  return (← readDigits base ((s.takeWhile isDigit).filter (· ≠ '_')), rest)

def integer? : List Char → Option (Nat × List Char)
  | '0' :: 'x' :: rest => wholeNumber? 16 rest
  | '0' :: 'o' :: rest => wholeNumber? 8 rest
  | '0' :: 'b' :: rest => wholeNumber? 2 rest
  | s => wholeNumber? 10 s

def suffix : Reader Bool := do
  if (← peek).any startsIdentifier then
    skip continuesIdentifier
    return true
  return false

def numberEnd (behind : List Char) : Reader Bool := do
  modify ({ · with rest := behind })
  let suffixed ← suffix
  if (← peek).any continuesIdentifier then failure
  return suffixed

def number : Reader Literal := do
  let here ← rest
  let float : Reader Literal := do
    let some behind := behindFloat? here | failure
    let _ ← numberEnd behind
    return .float (.ofList (here.take (here.length - (← rest).length)))
  let integer : Reader Literal := do
    let some (value, behind) := integer? here | failure
    return .integer value (← numberEnd behind)
  float <|> integer

/-! ## Literals -/

/-- The letters and quotes that can only start a literal. -/
def literalStarts : List String :=
  ["r\"", "r#\"", "r##", "b\"", "b'", "br\"", "br#", "c\"", "cr\"", "cr#"]

def literal? : Reader (Option Literal) := do
  let other (width : Nat) (tail : Reader Unit) : Reader (Option Literal) := do
    for _ in List.range width do
      let _ ← next
    tail
    return some .other
  let value : Option Literal ← match ← rest with
    | '"' :: _ => next *> some <$> .text <$> quotedTail .text
    | 'r' :: r => if atRaw r then next *> some <$> .text <$> rawTail .text else pure none
    | 'b' :: '"' :: _ => other 2 (discard (quotedTail .bytes))
    | 'c' :: '"' :: _ => other 2 (discard (quotedTail .terminated))
    | 'b' :: 'r' :: '"' :: _ | 'b' :: 'r' :: '#' :: _ => other 2 (discard (rawTail .bytes))
    | 'c' :: 'r' :: '"' :: _ | 'c' :: 'r' :: '#' :: _ => other 2 (discard (rawTail .terminated))
    | 'b' :: '\'' :: _ => other 2 (characterTail .bytes)
    -- A quote that does not stand around a character starts a lifetime.
    | '\'' :: _ => other 1 (characterTail .text) <|> pure none
    | c :: _ => if c.isDigit then return some (← number) else pure none
    | [] => pure none
  if value.isSome then
    let _ ← suffix
  return value

/-! ## Words and marks -/

def word : Reader Token := do
  let raw ← startsWith "r#"
  if raw then expectAll ['r', '#']
  unless (← peek).any startsIdentifier do failure
  let name := String.ofList (← takeWhile continuesIdentifier)
  if raw && neverRaw.contains name then failure
  return .word name raw

def marks : List Char := "~!@#$%^&*-=+|;:,<.>/?".toList

def atPunctuation : Reader Bool := do
  return (← peek).any (fun c => c == '\'' || marks.contains c) &&
    !(← startsWith "//") && !(← startsWith "/*")

def lifetimeTail : Reader Token := do
  let here ← get
  let raw ← startsWith "r#"
  let _ ← word
  -- Several characters between quotes are no token at all, and a hash is kept for later use.
  if (← peek) == some '\'' || ((← peek) == some '#' && !raw) then failure
  -- The letters may belong to a literal, and then the quote stands alone.
  if literalStarts.any fun start => start.toList.isPrefixOf here.rest then
    set here
    return .mark '\'' true
  return .lifetime

def mark : Reader Token := do
  unless ← atPunctuation do failure
  let c ← next
  if c == '\'' then lifetimeTail else return .mark c (← atPunctuation)

def bracketOf? : Char → Option Lexeme
  | '(' => some (.opening .parens)
  | ')' => some (.closing .parens)
  | '[' => some (.opening .brackets)
  | ']' => some (.closing .brackets)
  | '\x7b' => some (.opening .braces)
  | '\x7d' => some (.closing .braces)
  | _ => none

def missingExpression : String := "(/*ERROR*/)"

def lexemes? : Reader (Option (List Lexeme)) := do
  skipGap
  if let some comment ← documentation? then return some comment
  match ← peek with
  | none => return none
  | some c =>
    if ← startsWith missingExpression then
      expectAll missingExpression.toList
      return some [.leaf (.literal .other)]
    match bracketOf? c with
    | some bracket => next *> pure (some [bracket])
    | none =>
      match ← literal? with
      | some value => return some [.leaf (.literal value)]
      | none =>
        let t ← if ← atPunctuation then mark else word
        return some [.leaf t]

/-! ## Brackets -/

/-- Puts what stands between brackets into one token.  The tokens of the group at hand come last
first, and so do those of the groups around it. -/
def nest : List Lexeme → List Token → List (Delimiter × List Token) → Option (List Token)
  | [], done, [] => some done.reverse
  | [], _, _ :: _ => none
  | .leaf t :: rest, done, around => nest rest (t :: done) around
  | .opening d :: rest, done, around => nest rest [] ((d, done) :: around)
  | .closing _ :: _, _, [] => none
  | .closing d :: rest, done, (e, outer) :: around =>
    if d = e then nest rest (.group d done.reverse :: outer) around else none

def withoutByteOrderMark (s : String) : String :=
  match s.toList with
  | '\uFEFF' :: rest => .ofList rest
  | _ => s

def tokens? (s : String) : Option (List Token) := do
  nest (← readAll (many lexemes?) (withoutByteOrderMark s)).flatten [] []

end WireCodec.Derive
