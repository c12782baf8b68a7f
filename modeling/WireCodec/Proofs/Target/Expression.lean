import WireCodec.Proofs.Source.Identifier
import WireCodec.Proofs.Target.Token
import WireCodec.Text.Digits

/-!
# Expressions of generated code

The part of the target language's expressions that generated code uses, and how its text is read.
What stands behind an operand binds first: fields, places in a buffer, calls and `?`.  Then come the
marks in front of it, `as`, `*`, `+`, the shifts and `|`, in this order; operators of one level go
from left to right.  The reader keeps what still waits for an operand on a stack.
-/

namespace WireCodec.Target

inductive Infix where
  | mul
  | add
  | shiftLeft
  | shiftRight
  | or
  deriving DecidableEq, Repr

/-- How tightly an operator binds. -/
def Infix.level : Infix → Nat
  | mul => 4
  | add => 3
  | shiftLeft | shiftRight => 2
  | or => 1

/-- How tightly `as` binds: more so than any operator between operands. -/
def castLevel : Nat := 5

inductive Expr where
  /-- A number with what follows its digits. -/
  | literal (value : Nat) (suffix : String)
  | name (text : String)
  /-- A field or method of a value; the name is not in raw form. -/
  | member (value : Expr) (name : String)
  | index (buffer place : Expr)
  | call (function : Expr) (arguments : List Expr)
  /-- The value of an option; nothing leaves the closure around it. -/
  | attempt (option : Expr)
  | deref (reference : Expr)
  | borrow (value : Expr)
  | cast (value : Expr) (type : String)
  | binary (op : Infix) (left right : Expr)
  | array (items : List Expr)
  /-- A closure without parameters, with the tokens of the type of its result. -/
  | closure (result : List Token) (body : Expr)
  deriving Repr

/-- The tokens of the type of an optional word, as the header of a closure has them. -/
def optionalWord : List Token :=
  [.arrow, .word "::std::option::Option", .mark '<', .word "u64", .mark '>']

/-! ## Reading -/

/-- What waits for the expression to its right, or around it. -/
inductive Frame where
  | binary (op : Infix) (left : Expr)
  | deref
  | borrow
  | parens
  | index (buffer : Expr)
  | call (function : Expr) (before : List Expr)
  | array (before : List Expr)
  | closure (result : List Token)
  deriving Repr

/-- What has been read since the last frame. -/
inductive Hand where
  /-- An operand has to come. -/
  | want
  /-- An operand, which may be called or have a field. -/
  | operand (e : Expr)
  /-- An expression that nothing may be attached to. -/
  | whole (e : Expr)
  /-- A value whose field has to come. -/
  | dot (value : Expr)
  /-- A value whose new type has to come. -/
  | target (value : Expr)
  /-- The tokens between the parameters of a closure and its body. -/
  | header (result : List Token)
  /-- A statement. -/
  | statement (e : Expr)
  deriving Repr

/-- How far the reading has come; the innermost frame is the first. -/
structure State where
  stack : List Frame
  hand : Hand
  deriving Repr

/-- Completes the frames that bind at least as tightly as a level with the expression behind
them. -/
def reduce (level : Nat) : List Frame → Expr → List Frame × Expr
  | .binary op left :: stack, e =>
    if level ≤ op.level then reduce level stack (.binary op left e)
    else (.binary op left :: stack, e)
  | .deref :: stack, e => reduce level stack (.deref e)
  | .borrow :: stack, e => reduce level stack (.borrow e)
  | stack, e => (stack, e)

/-- The expression in front of something that binds as tightly as a level, and the frames it
leaves. -/
def State.settle (level : Nat) (st : State) : Option (List Frame × Expr) :=
  match st.hand with
  | .operand e | .whole e => some (reduce level st.stack e)
  | _ => none

def memberName? (word : String) : Option String :=
  match word.toList with
  | 'r' :: '#' :: name =>
    if String.ofList name ∈ Text.reservedPaths then none else some (.ofList name)
  | _ => if word ∈ Source.keywords ∨ word ∈ Text.reservedPaths then none else some word

/-- The expression that a word is: a number if it starts with a digit, else a name that is no
keyword. -/
def operand? (word : String) : Option Expr :=
  match Text.readDigits 10 (word.toList.takeWhile Char.isDigit) with
  | some value => some (.literal value (.ofList (word.toList.dropWhile Char.isDigit)))
  | none => if word ∈ Source.keywords then none else some (.name word)

def infix? : Token → Option Infix
  | .mark '*' => some .mul
  | .mark '+' => some .add
  | .mark '|' => some .or
  | .double '<' => some .shiftLeft
  | .double '>' => some .shiftRight
  | _ => none

/-- A token where an operand has to come. -/
def stepWant (stack : List Frame) : Token → Option State
  | .word word => (operand? word).map fun e => ⟨stack, .operand e⟩
  | .mark '(' => some ⟨.parens :: stack, .want⟩
  | .mark '[' => some ⟨.array [] :: stack, .want⟩
  | .mark '*' => some ⟨.deref :: stack, .want⟩
  | .mark '&' => some ⟨.borrow :: stack, .want⟩
  | .double '|' => some ⟨stack, .header []⟩
  | .mark ')' =>
    match stack with
    | .call function [] :: stack => some ⟨stack, .operand (.call function [])⟩
    | _ => none
  | _ => none

/-- A token behind an expression that binds weakest, which it goes on from or closes. -/
def stepClose (settled : List Frame × Expr) : Token → Option State
  | .mark ')' =>
    match settled with
    | (.parens :: stack, e) => some ⟨stack, .operand e⟩
    | (.call function before :: stack, e) => some ⟨stack, .operand (.call function (before ++ [e]))⟩
    | _ => none
  | .mark ']' =>
    match settled with
    | (.index buffer :: stack, e) => some ⟨stack, .operand (.index buffer e)⟩
    | (.array before :: stack, e) => some ⟨stack, .operand (.array (before ++ [e]))⟩
    | _ => none
  | .mark '}' =>
    match settled with
    | (.closure result :: stack, e) => some ⟨stack, .whole (.closure result e)⟩
    | _ => none
  | .mark ',' =>
    match settled with
    | (.call function before :: stack, e) => some ⟨.call function (before ++ [e]) :: stack, .want⟩
    | (.array before :: stack, e) => some ⟨.array (before ++ [e]) :: stack, .want⟩
    | _ => none
  | .mark ';' =>
    match settled with
    | ([], e) => some ⟨[], .statement e⟩
    | _ => none
  | _ => none

def stepBehind (st : State) (token : Token) : Option State :=
  match infix? token with
  | some op => (st.settle op.level).map fun (stack, e) => ⟨.binary op e :: stack, .want⟩
  | none =>
    if token = .word "as" then
      (st.settle castLevel).map fun (stack, e) => ⟨stack, .target e⟩
    else do stepClose (← st.settle 0) token

def step (st : State) (token : Token) : Option State :=
  match st.hand with
  | .want => stepWant st.stack token
  | .operand e =>
    match token with
    | .mark '.' => some ⟨st.stack, .dot e⟩
    | .mark '?' => some ⟨st.stack, .operand (.attempt e)⟩
    | .mark '(' => some ⟨.call e [] :: st.stack, .want⟩
    | .mark '[' => some ⟨.index e :: st.stack, .want⟩
    | token => stepBehind st token
  | .whole _ => stepBehind st token
  | .dot e =>
    match token with
    | .word word => (memberName? word).map fun name => ⟨st.stack, .operand (.member e name)⟩
    | _ => none
  | .target e =>
    match token with
    | .word type => some ⟨st.stack, .whole (.cast e type)⟩
    | _ => none
  | .header result =>
    match token with
    | .mark '{' => some ⟨.closure result :: st.stack, .want⟩
    | token => some ⟨st.stack, .header (result ++ [token])⟩
  | .statement _ => none

def State.read (st : State) (s : List Char) : Option State := (tokens s).foldlM step st

def expression? (s : String) : Option Expr := do
  let st ← State.read ⟨[], .want⟩ s.toList
  match ← st.settle 0 with
  | ([], e) => some e
  | _ => none

example : expression? "(u16::from(buf[0]) | u16::from(buf[1]) << 8) as i16" =
    let byte (place : Nat) :=
      Expr.call (.name "u16::from") [.index (.name "buf") (.literal place "")]
    some (.cast (.binary .or (byte 0) (.binary .shiftLeft (byte 1) (.literal 8 ""))) "i16") := rfl

end WireCodec.Target
