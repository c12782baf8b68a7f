import WireCodec.Derive.Grammar.Definition
import WireCodec.Derive.Grammar.Statement

/-!
# From tokens to items

Reads the definition of a type.  The parts of it on which a codec does not depend, such as bounds
and expressions, are followed to their ends, and have to be well formed all the same.
-/

namespace WireCodec.Derive

open TokenReader

/-- The readers of all parts, which may lie so many levels inside each other. -/
def partsUpTo : Nat → Parts
  | 0 => .none
  | depth + 1 =>
    let inner := partsUpTo depth
    { type := type inner
      argument := argument inner
      fields := namedFields inner
      expression := expression inner
      operand := operand inner
      operators := operations inner
      standing := standing inner
      pattern := pattern inner
      statements := statements inner
      definition := definition inner }

/-- The readers of all parts of some tokens.  A part that lies inside another one has fewer tokens,
or is the first part of it; the latter happens a few times in a row at most. -/
def partsOf (tokens : List Token) : Parts := partsUpTo (8 * (Token.count tokens + 1))

def item (parts : Parts) : TokenReader Item := do
  let attributes ← attributes parts
  let _ ← visibility
  let (kind, raw) ← anyWord
  if raw then failure
  let (name, _) ← freeWord
  let isGeneric ← parameters parts
  let body ← match kind with
    | "struct" => structBody parts
    | "enum" => giving .noStruct (enumBody parts)
    | "union" => giving .noStruct (unionBody parts)
    | _ => failure
  return ⟨attributes, name, isGeneric, body⟩

def Item.ofTokens? (tokens : List Token) : Option Item :=
  (item (partsOf tokens)).readAll tokens

end WireCodec.Derive
