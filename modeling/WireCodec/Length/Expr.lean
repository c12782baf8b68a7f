import WireCodec.Text.Digits

/-!
# Length expressions

The number of elements of a sequence is not on the wire: an expression over earlier fields gives it.
Evaluation is unsigned 64-bit arithmetic that refuses to wrap.  `evalM` asks for the fields through
an arbitrary effect, so that `eval`, with a pure lookup, and `evalTraced`, which also lists the
names it asked for, are the same evaluation.
-/

namespace WireCodec

inductive Operator where
  | add
  | sub
  | mul
  | div
  | rem
  deriving DecidableEq, Repr

inductive EvalError where
  /-- No field of this name has a value to count with. -/
  | unknownField (name : String)
  | overflow (op : Operator) (left right : UInt64)
  | divisionByZero
  deriving DecidableEq, Repr

namespace Operator

def symbol : Operator → Char
  | add => '+'
  | sub => '-'
  | mul => '*'
  | div => '/'
  | rem => '%'

def ofChar? : Char → Option Operator
  | '+' => some add
  | '-' => some sub
  | '*' => some mul
  | '/' => some div
  | '%' => some rem
  | _ => none

@[simp] theorem ofChar?_symbol (op : Operator) : ofChar? op.symbol = some op := by
  cases op <;> rfl

/-- Sums bind less tightly than products. -/
def isSum : Operator → Bool
  | add | sub => true
  | _ => false

def precedence (op : Operator) : Nat := if op.isSum then 1 else 2

/-- The result on two words, if it is a word. -/
def apply (op : Operator) (left right : UInt64) : Except EvalError UInt64 :=
  match op with
  | add =>
    if left.toNat + right.toNat < wordLimit then .ok (left + right)
    else .error (.overflow op left right)
  | sub => if right ≤ left then .ok (left - right) else .error (.overflow op left right)
  | mul =>
    if left.toNat * right.toNat < wordLimit then .ok (left * right)
    else .error (.overflow op left right)
  | div => if right = 0 then .error .divisionByZero else .ok (left / right)
  | rem => if right = 0 then .error .divisionByZero else .ok (left % right)

end Operator

namespace EvalError

def message : EvalError → String
  | unknownField name => s!"unknown field '{name}'"
  | overflow op left right => s!"{left.toNat} {op.symbol} {right.toNat} overflows u64"
  | divisionByZero => "division by zero"

end EvalError

inductive LengthExpr where
  | const (value : UInt64)
  | field (name : String)
  | binary (op : Operator) (left right : LengthExpr)
  deriving DecidableEq, Repr

namespace LengthExpr

def fields : LengthExpr → List String
  | const _ => []
  | field name => [name]
  | binary _ left right => left.fields ++ right.fields

/-! ## Evaluation -/

/-- The value of the expression, the operands from left to right, where asking for a field may have
an effect. -/
def evalM {m : Type → Type} [Monad m] (ask : String → m (Option UInt64)) :
    LengthExpr → m (Except EvalError UInt64)
  | const value => pure (.ok value)
  | field name => do
    match ← ask name with
    | some value => pure (.ok value)
    | none => pure (.error (.unknownField name))
  | binary op left right => do
    match ← left.evalM ask with
    | .error e => pure (.error e)
    | .ok l =>
      match ← right.evalM ask with
      | .error e => pure (.error e)
      | .ok r => pure (op.apply l r)

def eval (value? : String → Option UInt64) (e : LengthExpr) : Except EvalError UInt64 :=
  (e.evalM (m := Id) value?).run

def evalTraced (value? : String → Option UInt64) (e : LengthExpr) :
    Except EvalError UInt64 × List String :=
  (e.evalM (m := StateM (List String)) fun name =>
    modifyGet fun asked => (value? name, asked ++ [name])).run []

@[simp] theorem eval_const (value? : String → Option UInt64) (v : UInt64) :
    (const v).eval value? = .ok v := rfl

@[simp] theorem eval_field (value? : String → Option UInt64) (name : String) :
    (field name).eval value? =
      match value? name with
      | some v => .ok v
      | none => .error (.unknownField name) := by
  cases h : value? name <;> simp [eval, evalM, h] <;> rfl

@[simp] theorem eval_binary (value? : String → Option UInt64) (op : Operator)
    (left right : LengthExpr) :
    (binary op left right).eval value? =
      (left.eval value?).bind fun l => (right.eval value?).bind fun r => op.apply l r := by
  simp only [eval, evalM]
  cases hl : (left.evalM (m := Id) value?).run <;> cases hr : (right.evalM (m := Id) value?).run <;>
    simp [hl, hr, Except.bind]

def const? : LengthExpr → Option UInt64
  | const value => some value
  | field _ => none
  | binary op left right => do
    let l ← left.const?
    let r ← right.const?
    (op.apply l r).toOption

/-! ## Text -/

/-- How tightly the expression holds together when it stands as an operand. -/
def precedence : LengthExpr → Nat
  | binary op _ _ => op.precedence
  | _ => 3

def parenthesize (needed : Bool) (text : String) : String :=
  if needed then "(" ++ text ++ ")" else text

/-- The expression as text, with parentheses only where it would otherwise be read differently. -/
def text : LengthExpr → String
  | const value => toString value.toNat
  | field name => name
  | binary op left right =>
    parenthesize (left.precedence < op.precedence) left.text ++ " " ++ op.symbol.toString ++ " " ++
      parenthesize (right.precedence ≤ op.precedence) right.text

end LengthExpr

end WireCodec
