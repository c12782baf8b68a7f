import WireCodec.Derive.Grammar.Reader
import WireCodec.Derive.Item

/-!
# The parts of the grammar

Types hold expressions, expressions hold blocks, and blocks hold types again.  Each reader of the
grammar is therefore given the readers of all parts, as they are one level further inside.
-/

namespace WireCodec.Derive

open TokenReader

/-- How firmly an operator holds its operands, the loosest first. -/
inductive Binding where
  | jump
  | assign
  | range
  | or
  | and
  | compare
  | bitOr
  | bitXor
  | bitAnd
  | shift
  | sum
  | product
  | cast
  deriving DecidableEq

def Binding.rank : Binding → Nat
  | jump => 0
  | assign => 1
  | range => 2
  | or => 3
  | and => 4
  | compare => 5
  | bitOr => 6
  | bitXor => 7
  | bitAnd => 8
  | shift => 9
  | sum => 10
  | product => 11
  | cast => 12

/-- What an expression is, as far as anything depends on it. -/
inductive Shape where
  | integer (value : Nat)
  /-- A range, which is no operand of an operator. -/
  | range
  /-- A comparison, which is not compared again. -/
  | comparison
  /-- An expression with a block of its own, behind which a statement may start at once. -/
  | block
  | invocation (delimiter : Delimiter)
  | other
  deriving DecidableEq

/-- The readers of the parts that hold each other. -/
structure Parts where
  type (joined : Bool) : TokenReader WrittenType
  /-- An argument in angle brackets; the answer is the type, if it is one. -/
  argument : TokenReader (Option WrittenType)
  fields : TokenReader (List ItemField)
  /-- An expression, in which braces may stand behind the name of a struct. -/
  expression (structs : Bool) : TokenReader Shape
  /-- An operand, with the operators in front of it and all that stands behind it. -/
  operand (structs : Bool) : TokenReader Shape
  /-- The rest of an expression that starts with an operand, as far as its operators hold at least
  as firmly as a binding. -/
  operators (structs : Bool) (base : Binding) (first : Shape) : TokenReader Shape
  /-- An expression in the place of a statement, which ends with its block if it starts with one. -/
  standing : TokenReader Shape
  /-- A pattern without alternatives; the answer says whether it is a range that lacks an end. -/
  pattern : TokenReader Bool
  statements : TokenReader Unit
  definition : TokenReader Unit

def Parts.none : Parts where
  type _ := failure
  argument := failure
  fields := failure
  expression _ := failure
  operand _ := failure
  operators _ _ _ := failure
  standing := failure
  pattern := failure
  statements := failure
  definition := failure

/-! ## Plain paths -/

/-- Takes a path without arguments; the answer is whether it starts at the root, and its words. -/
def plainPath : TokenReader (Bool × List (String × Bool)) := do
  let fromRoot ← takeMarks? "::"
  let step : TokenReader (String × Bool) := do
    unless ← look pathWordAt do failure
    anyWord
  let first ← step
  let others ← many do
    unless ← takeMarks? "::" do return none
    some <$> step
  return (fromRoot, first :: others)

/-- Takes a call of a macro; the answer is the kind of its brackets. -/
def invocation : TokenReader Delimiter := do
  let _ ← plainPath
  expectMarks "!"
  anyGroup

/-- Takes a call of a macro and the semicolon that all but braces need. -/
def invocationItem : TokenReader Unit := do
  unless (← invocation) = .braces do expectMarks ";"

def visibility : TokenReader Bool := do
  unless ← takeKeyword? "pub" do return false
  match ← get with
  | .group .parens [.word name false] :: rest =>
    if ["crate", "self", "super"].contains name then set rest
  | .group .parens (.word "in" false :: path) :: rest =>
    if (plainPath.readAll path).isNone then failure
    set rest
  -- Other parentheses are the type of a field without a name.
  | _ => pure ()
  return true

/-! ## Attributes and blocks -/

variable (parts : Parts)

def attributeContent : TokenReader Attribute := do
  let name : Option String ← if ← takeKeyword? "unsafe" then pure (some "unsafe")
    else match ← plainPath with
      | (false, [(name, false)]) => pure (some name)
      | _ => pure none
  match ← get with
  | [] => return ⟨name, .nothing⟩
  | .group _ content :: rest =>
    set rest
    return ⟨name, .arguments content⟩
  | _ =>
    expectMarks "="
    let here ← get
    if marksAt "#" here && groupAt .brackets (here.drop 1) then failure
    let _ ← parts.expression true
    return ⟨name, .value⟩

def attributes : TokenReader (List Attribute) :=
  many do
    unless ← takeMarks? "#" do return none
    some <$> within .brackets (attributeContent parts)

def innerAttributes : TokenReader Unit := do
  let _ ← many (α := Unit) do
    let here ← get
    unless marksAt "#" here && marksAt "!" (here.drop 1) do return none
    set (here.drop 2)
    some <$> giving () (within .brackets (attributeContent parts))

def block : TokenReader Unit := within .braces parts.statements

def attributedBlock : TokenReader Unit :=
  within .braces do
    innerAttributes parts
    parts.statements

end WireCodec.Derive
