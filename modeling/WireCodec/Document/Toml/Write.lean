/-!
# Writing TOML

How text, truth values and lists are written.  Text stands in the plainest quotes that hold it: with
escapes only where no quotes hold it as it is.
-/

namespace WireCodec.Toml

/-! ## Quotes -/

def needsEscape (c : Char) : Bool :=
  (c.toNat < 0x20 && c ≠ '\t' && c ≠ '\n') || c.toNat = 0x7F

def longestRun (c : Char) (s : List Char) : Nat :=
  (s.foldl (fun (run, longest) d =>
    let run := if d = c then run + 1 else 0
    (run, max run longest)) (0, 0)).2

inductive QuoteStyle where
  | basic
  | literal
  | basicBlock
  | literalBlock
  deriving DecidableEq, Repr

def QuoteStyle.of (s : List Char) : QuoteStyle :=
  let escapes := s.any needsEscape
  let oneLine := !s.contains '\n'
  let slash := s.contains '\\'
  if oneLine && !escapes && !slash && !s.contains '"' then .basic
  else if oneLine && !escapes && !s.contains '\'' then .literal
  else if !escapes && !slash && longestRun '"' s ≤ 2 then .basicBlock
  else if !escapes && longestRun '\'' s ≤ 2 then .literalBlock
  else if oneLine then .basic
  else .basicBlock

def fourDigits (n : Nat) : String :=
  let digits := (Nat.toDigits 16 n).map Char.toUpper
  String.ofList (List.replicate (4 - digits.length) '0' ++ digits)

/-- A character between double quotes that is none itself; line ends stay in quotes that hold
several lines. -/
def escapeChar (block : Bool) (c : Char) : String :=
  match c with
  | '\x08' => "\\b"
  | '\t' => "\\t"
  | '\n' => if block then "\n" else "\\n"
  | '\x0c' => "\\f"
  | '\x0d' => "\\r"
  | '\\' => "\\\\"
  | c => if needsEscape c then "\\u" ++ fourDigits c.toNat else c.toString

/-- Text between double quotes, behind a run of double quotes that were written as they are.  In
quotes that hold several lines, up to two in a row may be. -/
def escapeFrom (block : Bool) : Nat → List Char → String
  | _, [] => ""
  | run, '"' :: rest =>
    if block && run < 2 then "\"" ++ escapeFrom block (run + 1) rest
    else "\\\"" ++ escapeFrom block 0 rest
  | _, c :: rest => escapeChar block c ++ escapeFrom block 0 rest

/-- A text in its quotes.  A line end in front of a text of several lines would be lost, so another
is written. -/
def textLiteral (text : String) : String :=
  let s := text.toList
  let opening := if s.contains '\n' then "\n" else ""
  match QuoteStyle.of s with
  | .basic => "\"" ++ escapeFrom false 0 s ++ "\""
  | .literal => "'" ++ text ++ "'"
  | .basicBlock => "\"\"\"" ++ opening ++ escapeFrom true 0 s ++ "\"\"\""
  | .literalBlock => "'''" ++ opening ++ text ++ "'''"

/-! ## Values -/

def truthLiteral (b : Bool) : String := if b then "true" else "false"

/-- A list of texts: up to one on the same line, and more than one on lines of their own. -/
def listLiteral (texts : List String) : String :=
  match texts with
  | [] => "[]"
  | [text] => "[" ++ textLiteral text ++ "]"
  | _ => "[\n" ++ String.join (texts.map fun t => "    " ++ textLiteral t ++ ",\n") ++ "]"

end WireCodec.Toml
