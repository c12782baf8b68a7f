/-!
# Tokens

An item is a list of tokens.  What stands in brackets is one token, so that brackets always match.
-/

namespace WireCodec.Derive

inductive Delimiter where
  | parens
  | brackets
  | braces
  deriving DecidableEq, Repr

/-- What a literal stands for, as far as an item's meaning depends on it. -/
inductive Literal where
  | text (value : String)
  /-- A whole number, and whether letters follow its digits. -/
  | integer (value : Nat) (suffixed : Bool)
  | float (digits : String)
  | other
  deriving DecidableEq, Repr

inductive Token where
  /-- An identifier or keyword; in raw form it is never a keyword. -/
  | word (name : String) (raw : Bool)
  | lifetime
  | literal (value : Literal)
  /-- A punctuation mark, and whether another one follows at once. -/
  | mark (c : Char) (joined : Bool)
  | group (delimiter : Delimiter) (content : List Token)

def Token.count : List Token → Nat
  | [] => 0
  | .group _ content :: rest => 1 + count content + count rest
  | _ :: rest => 1 + count rest

/-- The words that are identifiers only in raw form. -/
def reservedWords : List String :=
  ["abstract", "as", "async", "await", "become", "box", "break", "const", "continue", "crate", "do",
    "dyn", "else", "enum", "extern", "false", "final", "fn", "for", "if", "impl", "in", "let",
    "loop", "macro", "match", "mod", "move", "mut", "override", "priv", "pub", "ref", "return",
    "Self", "self", "static", "struct", "super", "trait", "true", "try", "type", "typeof", "unsafe",
    "unsized", "use", "virtual", "where", "while", "yield", "_"]

def isFree (name : String) (raw : Bool) : Bool := raw || !reservedWords.contains name

def neverRaw : List String := ["_", "super", "self", "Self", "crate"]

end WireCodec.Derive
