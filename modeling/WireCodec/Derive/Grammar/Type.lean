import WireCodec.Derive.Grammar.Parts

/-!
# Paths, bounds and types

Of a type only its outline is kept: names, arrays, and the first argument in angle brackets.  All
else is followed to its end, since what stands behind it has to be found.
-/

namespace WireCodec.Derive

open TokenReader

variable (parts : Parts)

/-! ## Paths -/

inductive StepArguments where
  | nothing
  | empty
  /-- Some arguments, the first of which may be a type. -/
  | some (first : Option WrittenType)
  | parens

structure WrittenPath where
  /-- True when the path starts with a type in angle brackets. -/
  qualified : Bool
  fromRoot : Bool
  steps : Nat
  plain : Bool
  word : String
  raw : Bool
  arguments : StepArguments

namespace WrittenPath

/-- True when the last step may still be given arguments in parentheses. -/
def isOpen (p : WrittenPath) : Bool :=
  match p.arguments with
  | .nothing | .empty => true
  | _ => false

def isSingle (p : WrittenPath) : Bool :=
  match p.arguments with
  | .parens => false
  | _ => !p.qualified && !p.fromRoot && p.steps == 1

def type (p : WrittenPath) : WrittenType :=
  if p.qualified then .other
  else
    match p.arguments with
    | .nothing | .empty => .name p.steps p.word p.raw
    | .some first => .applied p.word p.raw first
    | .parens => .applied p.word p.raw none

end WrittenPath

def pathAt (s : List Token) : Bool := pathWordAt s || marksAt "::" s || marksAt "<" s

/-- True in front of parameters in angle brackets, and not of a path that starts with a type. -/
def parametersAt (s : List Token) : Bool :=
  let behind := s.drop 1
  let second := s.drop 2
  marksAt "<" s &&
    (marksAt ">" behind || marksAt "#" behind || keywordAt ["const"] behind ||
      (lifetimeAt behind || nameAt behind) &&
        (marksAt ">" second || marksAt "," second || colonAt second || marksAt "=" second))

def angleArguments : TokenReader StepArguments := do
  expectMarks "<"
  return match ← listedInAngles parts.argument with
    | [] => .empty
    | first :: _ => .some first

/-- Takes a step of a path.  Angle brackets follow the word at once in a type only, and behind two
colons everywhere. -/
def step (inExpression : Bool) : TokenReader (String × Bool × StepArguments) := do
  let (name, raw) ← anyWord
  if !raw && ["super", "self", "crate", "try"].contains name then return (name, raw, .nothing)
  unless isFree name raw || name == "Self" do failure
  let here ← get
  if marksAt "::" here && marksAt "<" (here.drop 2) then
    expectMarks "::"
    return (name, raw, ← angleArguments parts)
  if !inExpression && marksAt "<" here && !marksAt "<=" here && !marksAt "<<=" here then
    return (name, raw, ← angleArguments parts)
  return (name, raw, .nothing)

def isPlainStep : String × Bool × StepArguments → Bool
  | (_, _, .nothing) => true
  | _ => false

def pathOf (qualified fromRoot : Bool) (first : String × Bool × StepArguments)
    (others : List (String × Bool × StepArguments)) : WrittenPath :=
  let (word, raw, arguments) := (first :: others).getLastD first
  let plain := !qualified && (first :: others).all isPlainStep
  ⟨qualified, fromRoot, others.length + 1, plain, word, raw, arguments⟩

def path (inExpression : Bool) : TokenReader WrittenPath := do
  let fromRoot ← takeMarks? "::"
  let first ← step parts inExpression
  let others ← many do
    let here ← get
    -- Colons in front of parentheses belong to the arguments in them.
    unless marksAt "::" here && !groupAt .parens (here.drop 2) do return none
    set (here.drop 2)
    some <$> step parts inExpression
  return pathOf false fromRoot first others

def qualifiedPath (inExpression : Bool) : TokenReader WrittenPath := do
  unless ← takeMarks? "<" do return ← path parts inExpression
  let _ ← parts.type true
  if ← takeKeyword? "as" then
    let _ ← path parts false
  expectMarks ">"
  expectMarks "::"
  let first ← step parts inExpression
  let others ← many do
    unless ← takeMarks? "::" do return none
    some <$> step parts inExpression
  return pathOf true false first others

def callArguments : TokenReader Unit := do
  let _ ← within .parens (listed (parts.type true))
  if ← takeMarks? "->" then
    let _ ← parts.type false

def withCallArguments (p : WrittenPath) : TokenReader WrittenPath := do
  let here ← get
  let behindColons := if marksAt "::" here then here.drop 2 else here
  unless p.isOpen && groupAt .parens behindColons do return p
  set behindColons
  callArguments parts
  return { p with plain := false, arguments := .parens }

/-! ## Bounds -/

def boundLifetimes : TokenReader Bool := do
  unless ← takeKeyword? "for" do return false
  expectMarks "<"
  let _ ← listedInAngles do
    let _ ← attributes parts
    lifetime
  return true

inductive BoundKind where
  | lifetime
  | captures
  | trait
  deriving DecidableEq

def capturedParameters : TokenReader Unit := do
  expectMarks "<"
  let _ ← listedInAngles do
    unless ← takeLifetime? do
      unless ← takeKeyword? "Self" do discard freeWord

/-- Takes a trait in the place of a bound, which may be asked to be constant in some places. -/
def traitBound (constants : Bool) : TokenReader Unit := do
  let hasLifetimes ← boundLifetimes parts
  if ← look (groupAt .brackets) then
    unless constants do failure
    within .brackets (expectKeyword "const")
  else if ← takeKeyword? "const" then
    unless constants do failure
  let isOptional ← takeMarks? "?"
  if hasLifetimes && isOptional then failure
  let p ← path parts false
  let _ ← withCallArguments parts p

def bound (constants : Bool) : TokenReader BoundKind := do
  if ← takeLifetime? then return .lifetime
  if ← takeKeyword? "use" then return ← giving .captures capturedParameters
  if ← look (groupAt .parens) then within .parens (traitBound parts constants)
  else traitBound parts constants
  return .trait

def plainBound (constants : Bool) : TokenReader Unit := do
  if (← bound parts constants) = .captures then failure

def boundsEnd (s : List Token) : Bool :=
  s.isEmpty || groupAt .braces s || colonAt s || keywordAt ["where"] s ||
    anyMarksAt [",", ">", ";", "="] s

def bounds (constants : Bool) : TokenReader Unit := do
  let _ ← many (α := Unit) do
    if ← look boundsEnd then return none
    plainBound parts constants
    unless ← takeMarks? "+" do
      unless ← look boundsEnd do failure
    return some ()

def boundAt (constants : Bool) (s : List Token) : Bool :=
  wordAt s || marksAt "::" s || marksAt "?" s || lifetimeAt s || groupAt .parens s ||
    constants && groupAt .brackets s

/-- Takes the bounds of a type, one of which has to be a trait. -/
def typeBounds (joined captures constants : Bool) : TokenReader Unit := do
  let checked : TokenReader BoundKind := do
    let kind ← bound parts constants
    if kind = .captures ∧ !captures then failure
    return kind
  let first ← checked
  let others ← many do
    let here ← get
    unless joined && marksAt "+" here && boundAt constants (here.drop 1) do return none
    set (here.drop 1)
    some <$> checked
  -- Nothing needs to follow the last plus sign.
  if joined then discard (takeMarks? "+")
  unless (first :: others).contains .trait do failure

def moreBounds : TokenReader Unit := do
  let _ ← many (α := Unit) do
    unless ← takeMarks? "+" do return none
    some <$> plainBound parts false

/-! ## Types -/

def pathType (joined : Bool) (p : WrittenPath) : TokenReader WrittenType := do
  if p.qualified then return .other
  let here ← get
  if bangAt here && p.plain then
    expectMarks "!"
    return ← giving .other anyGroup
  unless joined && marksAt "+" here do return p.type
  let _ ← many (α := Unit) do
    let here ← get
    unless marksAt "+" here && boundAt false (here.drop 1) do return none
    set (here.drop 1)
    some <$> plainBound parts false
  giving .other (takeMarks? "+")

def typePath : TokenReader WrittenPath := do
  let p ← qualifiedPath parts false
  withCallArguments parts p

def functionArgument (isFirst : Bool) : TokenReader Unit := do
  let here ← get
  let named := (nameAt here || keywordAt ["_"] here || isFirst && keywordAt ["self"] here) &&
    colonAt (here.drop 1)
  let mutable := isFirst && keywordAt ["mut"] here && keywordAt ["self"] (here.drop 1)
  if mutable then
    set (here.drop 2)
    if ← look colonAt then
      expectMarks ":"
      let _ ← parts.type true
  else
    if named then set (here.drop 2)
    let _ ← parts.type true

def functionArguments : TokenReader Unit := do
  let dots (s : List Token) : Bool :=
    marksAt "..." s ||
      (nameAt s || keywordAt ["_"] s) && marksAt ":" (s.drop 1) && marksAt "..." (s.drop 2)
  let _ ← carry (fun isFirst => do
    if ← atEnd then return none
    let _ ← attributes parts
    let here ← get
    if dots here then
      unless marksAt "..." here do set (here.drop 2)
      expectMarks "..."
      -- Nothing may follow the dots but a comma.
      let _ ← takeMarks? ","
      unless ← atEnd do failure
      return some false
    let _ ← attributes parts
    functionArgument parts isFirst
    unless ← atEnd do expectMarks ","
    return some false) true

def callingConvention : TokenReader Unit := do
  if ← takeKeyword? "extern" then
    if ← look textAt then discard next

def functionType : TokenReader WrittenType := do
  let _ ← takeKeyword? "unsafe"
  callingConvention
  expectKeyword "fn"
  within .parens (functionArguments parts)
  if ← takeMarks? "->" then
    let _ ← parts.type false
  return .other

/-- The type between parentheses, and whether bounds may follow it. -/
def insideParens : TokenReader (WrittenType × Bool) := do
  if ← atEnd then return (.other, false)
  if ← look lifetimeAt then
    typeBounds parts true false false
    return (.other, false)
  let t ← parts.type true
  if ← atEnd then
    return (.inParens t, match t with
      | .name .. | .applied .. | .bound => true
      | _ => false)
  expectMarks ","
  let _ ← listed (parts.type true)
  return (.other, false)

def parenthesizedType (joined : Bool) : TokenReader WrittenType := do
  match ← get with
  | .group .parens content :: rest =>
    if marksAt "?" content then
      set rest
      if ((traitBound parts false).readAll content).isNone then failure
      unless ← look (marksAt "+") do return .bound
      return ← giving .other (moreBounds parts)
    let (t, isBound) ← within .parens (insideParens parts)
    unless joined && isBound && (← look (marksAt "+")) do return t
    giving .other (moreBounds parts)
  | _ => failure

def insideBrackets : TokenReader WrittenType := do
  let elem ← parts.type true
  -- A slice has no length.
  unless ← takeMarks? ";" do return .other
  return .array elem (match ← parts.expression true with
    | .integer n => .number n
    | _ => .expression)

def type (joined : Bool) : TokenReader WrittenType := do
  let hasLifetimes ← boundLifetimes parts
  let here ← get
  if hasLifetimes then
    unless pathWordAt here || keywordAt ["fn", "unsafe", "extern"] here do failure
  if groupAt .parens here then parenthesizedType parts joined
  else if keywordAt ["fn", "unsafe", "extern"] here then functionType parts
  else if pathAt here then
    let t ← pathType parts joined (← typePath parts)
    -- Lifetimes in front make a bound of a path.
    match t with
    | .name .. | .applied .. => return if hasLifetimes then .bound else t
    | _ => return t
  else if ← takeKeyword? "dyn" then
    let _ ← takeMarks? "*"
    giving .other (typeBounds parts joined false false)
  else if groupAt .brackets here then within .brackets (insideBrackets parts)
  else if ← takeMarks? "*" then
    unless ← takeKeyword? "const" do expectKeyword "mut"
    giving .other (parts.type false)
  else if ← takeMarks? "&" then
    let _ ← takeLifetime?
    let _ ← takeKeyword? "mut"
    giving .other (parts.type false)
  else if ← takeMarks? "!" then return .other
  else if ← takeKeyword? "impl" then giving .other (typeBounds parts joined true true)
  else if ← takeKeyword? "_" then return .other
  else if lifetimeAt here then giving .other (typeBounds parts true false false)
  else failure

/-! ## Arguments in angle brackets -/

def constArgument : TokenReader Unit := do
  if ← look literalAt then literal
  else if ← look nameAt then discard next
  else attributedBlock parts

def constArgumentAt (s : List Token) : Bool := literalAt s || groupAt .braces s

/-- Takes an argument in angle brackets; the answer is the type, if it is one. -/
def argument : TokenReader (Option WrittenType) := do
  let here ← get
  if lifetimeAt here && !marksAt "+" (here.drop 1) then return ← giving none next
  if constArgumentAt here then return ← giving none (constArgument parts)
  unless pathAt here do return some (← type parts true)
  let p ← typePath parts
  -- With an equals sign or a colon behind it, the path names a part of the trait.
  if p.isSingle then
    if ← takeMarks? "=" then
      if ← look constArgumentAt then constArgument parts else discard (parts.type true)
      return none
    if ← takeMarks? ":" then
      bounds parts true
      return none
  some <$> pathType parts true p

end WireCodec.Derive
