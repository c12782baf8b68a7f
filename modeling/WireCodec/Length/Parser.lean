import WireCodec.Length.Token

/-!
# Reading length expressions

The grammar is that of sums of products of constants, names and expressions in parentheses, and
operators of one level group to the left.  The reader goes through the tokens once.  What waits for
the next operand is kept as data: `Pending` holds the sum and the product that stand open, and one
`Level` is set aside for each open parenthesis.
-/

namespace WireCodec.Length

/-- Left operands that wait for a right one. -/
structure Pending where
  /-- The left side of an open sum and its operator. -/
  sum : Option (LengthExpr × Operator)
  /-- The left side of an open product and its operator. -/
  product : Option (LengthExpr × Operator)
  deriving DecidableEq, Repr

/-- What an open parenthesis interrupted. -/
structure Level where
  position : Nat
  /-- What waits for the expression in it. -/
  pending : Pending
  deriving DecidableEq, Repr

def complete (left : Option (LengthExpr × Operator)) (operand : LengthExpr) : LengthExpr :=
  match left with
  | none => operand
  | some (l, op) => .binary op l operand

namespace Pending

def none : Pending := ⟨.none, .none⟩

def whole (p : Pending) (operand : LengthExpr) : LengthExpr :=
  complete p.sum (complete p.product operand)

def push (p : Pending) (operand : LengthExpr) (op : Operator) : Pending :=
  if op.isSum then ⟨some (p.whole operand, op), .none⟩
  else ⟨p.sum, some (complete p.product operand, op)⟩

end Pending

/-- Reads tokens inside the open levels.  Without an operand one is wanted next; with one, an
operator, a closing parenthesis or the end. -/
def readTokens (source : String) (levels : List Level) (pending : Pending)
    (operand : Option LengthExpr) : List Placed → Except SourceError LengthExpr
  | [] =>
    match operand, levels with
    | none, _ => .error .endsEarly
    | some x, [] => .ok (pending.whole x)
    | some _, level :: _ => .error (.unclosed level.position)
  | ⟨position, token⟩ :: rest =>
    match operand with
    | none =>
      -- An operand is wanted.
      match token with
      | .integer value => readTokens source levels pending (some (.const value)) rest
      | .name text => readTokens source levels pending (some (.field text)) rest
      | .leftParen => readTokens source (⟨position, pending⟩ :: levels) .none none rest
      | token => .error (.unexpected token position)
    | some x =>
      -- An operand is complete.
      match token, levels with
      | .operator op, _ => readTokens source levels (pending.push x op) none rest
      | .rightParen, level :: outer =>
        readTokens source outer level.pending (some (pending.whole x)) rest
      | token, [] => .error (.trailing token position source)
      | _, level :: _ => .error (.unclosed level.position)

def parseChars (text : List Char) : Except SourceError LengthExpr :=
  let source := Text.trim text
  if source.isEmpty then .error .empty
  else
    match findComment 0 source with
    | some offset => .error (.comment offset)
    | none => do
      readTokens (String.ofList source) [] .none none (← tokens source)

end WireCodec.Length

namespace WireCodec.LengthExpr

def parse (text : String) : Except Length.SourceError LengthExpr :=
  Length.parseChars text.toList

end WireCodec.LengthExpr
