import WireCodec.Proofs.Target.Expression
import WireCodec.Scalar.Basic

/-!
# Values of expressions

What the expressions of generated code stand for, by the rules of the target language.  An
expression has no value here (`Stop.stuck`) if its types do not fit, if it asks for what is not
there, if its execution would end in a panic, or if it is none that generated code uses.
-/

namespace WireCodec.Target

inductive Value where
  | scalar (s : Scalar)
  /-- A count of the machine, or a number that may become one. -/
  | number (n : Nat)
  | option (value : Option Scalar)
  | bytes (bytes : List UInt8)
  | reference (s : Scalar)
  | record (fields : String → Option Scalar)

/-- Why an expression has no value. -/
inductive Stop where
  /-- A `?` on nothing leaves the closure around it. -/
  | leave
  | stuck
  deriving DecidableEq, Repr

/-- What the names in an expression stand for. -/
structure Env where
  /-- The kinds behind the names of aliases. -/
  types : String → Option ScalarKind
  locals : String → Option Value

def Env.kind? (env : Env) (type : String) : Option ScalarKind :=
  match ScalarKind.lookup type with
  | .ok (some kind) => some kind
  | .ok none => env.types type
  | .error _ => none

/-- A result, where there is one. -/
def orStuck {α : Type} (result : Option α) : Except Stop α := result.elim (.error .stuck) .ok

/-! ## Operations -/

/-- The value of a number with a suffix. -/
def literalValue (n : Nat) (suffix : String) : Option Value :=
  if suffix = "" then if n < wordLimit then some (.number n) else none
  else
    match ScalarKind.lookup suffix with
    | .ok (some kind) =>
      if kind.isUnsigned ∧ n < byteRange kind.size then some (.scalar (.ofBits kind n)) else none
    | _ => none

def fieldOf (name : String) : Value → Option Value
  | .record fields => (fields name).map .scalar
  | _ => none

def byteAt : Value → Value → Option Value
  | .bytes bytes, .number place => bytes[place]?.map fun b => .scalar (.ofBits .u8 b.toNat)
  | _, _ => none

/-- The value of an option; without one, the closure is left. -/
def attempted : Value → Except Stop Value
  | .option (some s) => .ok (.scalar s)
  | .option none => .error .leave
  | _ => .error .stuck

def dereferenced : Value → Option Value
  | .reference s => some (.scalar s)
  | _ => none

/-- A reference to a value; bytes are only handed on by reference. -/
def borrowed : Value → Option Value
  | .scalar s => some (.reference s)
  | .bytes bytes => some (.bytes bytes)
  | _ => none

/-- What a value becomes behind `as`: integers keep their value as far as the kind has room for it,
and a float may only be given the name of its own kind. -/
def castTo (kind : ScalarKind) : Value → Option Value
  | .scalar s =>
    if s.kind.isInteger ∧ kind.isInteger then some (.scalar (.ofInt kind s.toInt))
    else if s.kind = kind then some (.scalar s)
    else none
  | _ => none

/-- The result of an operator.  Sums and products of counts may not overflow, and shifts not drop
the whole word. -/
def applyInfix : Infix → Value → Value → Option Value
  | .mul, .number a, .number b => if a * b < wordLimit then some (.number (a * b)) else none
  | .add, .number a, .number b => if a + b < wordLimit then some (.number (a + b)) else none
  | .shiftLeft, .scalar s, .number n =>
    if s.kind.isUnsigned ∧ n < s.kind.bitWidth then some (.scalar (.ofBits s.kind (s.bits <<< n)))
    else none
  | .shiftRight, .scalar s, .number n =>
    if s.kind.isUnsigned ∧ n < s.kind.bitWidth then some (.scalar (.ofBits s.kind (s.bits >>> n)))
    else none
  | .or, .scalar s, .scalar t =>
    if s.kind.isUnsigned ∧ s.kind = t.kind then some (.scalar (.ofBits s.kind (s.bits ||| t.bits)))
    else none
  | _, _, _ => none

/-- The conversion of a lossless widening between unsigned kinds. -/
def widened (kind : ScalarKind) (s : Scalar) : Option Value :=
  if s.kind.isUnsigned ∧ kind.isUnsigned ∧ s.kind.size ≤ kind.size then
    some (.scalar (.ofBits kind s.bits))
  else none

/-- The float with the bits of an unsigned word. -/
def ofFloatBits (kind : ScalarKind) (s : Scalar) : Option Value :=
  if kind.isInteger = false ∧ s.kind = kind.unsigned then some (.scalar (.ofBits kind s.bits))
  else none

def applyFunction (function : String) : List Value → Option Value
  | [.scalar s] =>
    if function = "::std::option::Option::Some" then some (.option (some s))
    else
      match ScalarKind.all.find? fun k => k.name ++ "::from" = function with
      | some kind => widened kind s
      | none =>
        match ScalarKind.all.find? fun k => k.name ++ "::from_bits" = function with
        | some kind => ofFloatBits kind s
        | none => none
  | _ => none

/-- The function that is named after a kind widens to that kind. -/
theorem applyFunction_widening (kind : ScalarKind) (s : Scalar) :
    applyFunction (kind.name ++ "::from") [.scalar s] = widened kind s := by
  have hsome : kind.name ++ "::from" ≠ "::std::option::Option::Some" := by
    cases kind <;> decide
  have hkind : (ScalarKind.all.find? fun k => k.name ++ "::from" = kind.name ++ "::from") =
      some kind := by
    cases kind <;> decide
  rw [applyFunction, if_neg hsome, hkind]

/-- A float is made from the bits of its unsigned kind. -/
theorem applyFunction_fromBits (kind : ScalarKind) (s : Scalar) :
    applyFunction (kind.name ++ "::from_bits") [.scalar s] = ofFloatBits kind s := by
  have hsome : kind.name ++ "::from_bits" ≠ "::std::option::Option::Some" := by
    cases kind <;> decide
  have hwidening : (ScalarKind.all.find? fun k =>
      k.name ++ "::from" = kind.name ++ "::from_bits") = none := by
    cases kind <;> decide
  have hkind : (ScalarKind.all.find? fun k =>
      k.name ++ "::from_bits" = kind.name ++ "::from_bits") = some kind := by
    cases kind <;> decide
  rw [applyFunction, if_neg hsome, hwidening, hkind]

/-- The arithmetic of the methods that refuse to wrap, before the refusal. -/
def arithmetic? : String → Option (Nat → Nat → Option Nat)
  | "checked_add" => some fun a b => some (a + b)
  | "checked_sub" => some fun a b => if b ≤ a then some (a - b) else none
  | "checked_mul" => some fun a b => some (a * b)
  | "checked_div" => some fun a b => if b = 0 then none else some (a / b)
  | "checked_rem" => some fun a b => if b = 0 then none else some (a % b)
  | _ => none

def floatBits (s : Scalar) : Option Value :=
  if s.kind.isInteger then none else some (.scalar (.ofBits s.kind.unsigned s.bits))

def applyMethod (method : String) : Value → List Value → Option Value
  | .scalar s, [] | .reference s, [] => if method = "to_bits" then floatBits s else none
  | .scalar s, [.scalar t] =>
    if s.kind = .u64 ∧ t.kind = .u64 then
      (arithmetic? method).map fun f =>
        .option (((f s.bits t.bits).filter (· < wordLimit)).map (Scalar.ofBits .u64))
    else none
  | _, _ => none

def byte? : Value → Option UInt8
  | .scalar s => if s.kind = .u8 then some (.ofNat s.bits) else none
  | _ => none

/-- What the call of a closure gives. -/
def called : Except Stop Value → Except Stop Value
  | .ok (.option value) => .ok (.option value)
  | .error .leave => .ok (.option none)
  | _ => .error .stuck

/-! ## Evaluation -/

mutual

/-- The value of an expression, the operands from left to right. -/
def Expr.eval (env : Env) : Expr → Except Stop Value
  | .literal n suffix => orStuck (literalValue n suffix)
  | .name name => orStuck (env.locals name)
  | .member value name => do orStuck (fieldOf name (← value.eval env))
  | .index buffer place => do
    let bytes ← buffer.eval env
    let n ← place.eval env
    orStuck (byteAt bytes n)
  | .call (.name function) arguments => do
    orStuck (applyFunction function (← evalAll env arguments))
  | .call (.member value method) arguments => do
    let receiver ← value.eval env
    let values ← evalAll env arguments
    orStuck (applyMethod method receiver values)
  | .call (.closure result body) [] =>
    if result = optionalWord then called (body.eval env) else .error .stuck
  | .call _ _ => .error .stuck
  | .attempt option => do attempted (← option.eval env)
  | .deref reference => do orStuck (dereferenced (← reference.eval env))
  | .borrow value => do orStuck (borrowed (← value.eval env))
  | .cast value type => do
    let v ← value.eval env
    orStuck ((env.kind? type).bind fun kind => castTo kind v)
  | .binary op left right => do
    let l ← left.eval env
    let r ← right.eval env
    orStuck (applyInfix op l r)
  | .array items => do
    let values ← evalAll env items
    orStuck ((values.mapM byte?).map .bytes)
  | .closure _ _ => .error .stuck

/-- The values of expressions, from left to right. -/
def evalAll (env : Env) : List Expr → Except Stop (List Value)
  | [] => .ok []
  | e :: rest => do
    let v ← e.eval env
    let values ← evalAll env rest
    return v :: values

end

section

variable {env : Env} {e left right : Expr} {v l r result : Value}

theorem eval_literal {n : Nat} {suffix : String} (h : literalValue n suffix = some v) :
    (Expr.literal n suffix).eval env = .ok v := by
  rw [Expr.eval, h]
  rfl

theorem eval_name {name : String} (h : env.locals name = some v) :
    (Expr.name name).eval env = .ok v := by
  rw [Expr.eval, h]
  rfl

theorem eval_member {name : String} (he : e.eval env = .ok v) (h : fieldOf name v = some result) :
    (Expr.member e name).eval env = .ok result := by
  rw [Expr.eval, he]
  exact congrArg orStuck h

theorem eval_index (hl : left.eval env = .ok l) (hr : right.eval env = .ok r)
    (h : byteAt l r = some result) : (Expr.index left right).eval env = .ok result := by
  rw [Expr.eval, hl, hr]
  exact congrArg orStuck h

theorem eval_function {function : String} (he : e.eval env = .ok v)
    (h : applyFunction function [v] = some result) :
    (Expr.call (.name function) [e]).eval env = .ok result := by
  rw [Expr.eval, evalAll, he]
  exact congrArg orStuck h

theorem eval_method {method : String} (he : e.eval env = .ok v)
    (h : applyMethod method v [] = some result) :
    (Expr.call (.member e method) []).eval env = .ok result := by
  rw [Expr.eval, he]
  exact congrArg orStuck h

theorem eval_deref (he : e.eval env = .ok v) (h : dereferenced v = some result) :
    (Expr.deref e).eval env = .ok result := by
  rw [Expr.eval, he]
  exact congrArg orStuck h

/-- A cast looks up its type, also behind an alias. -/
theorem eval_cast {type : String} {kind : ScalarKind} (hkind : env.kind? type = some kind)
    (he : e.eval env = .ok v) (h : castTo kind v = some result) :
    (Expr.cast e type).eval env = .ok result := by
  rw [Expr.eval, he, hkind]
  exact congrArg orStuck h

theorem eval_binary {op : Infix} (hl : left.eval env = .ok l) (hr : right.eval env = .ok r)
    (h : applyInfix op l r = some result) : (Expr.binary op left right).eval env = .ok result := by
  rw [Expr.eval, hl, hr]
  exact congrArg orStuck h

end

end WireCodec.Target
