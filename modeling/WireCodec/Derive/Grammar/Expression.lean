import WireCodec.Derive.Grammar.Pattern

/-!
# Expressions

Operands, the operators between them, and the expressions that hold blocks.  Operators with the same
binding group from the left, except assignments; comparisons do not follow each other, and a range
is no operand of an operator behind it.
-/

namespace WireCodec.Derive

open TokenReader

variable (parts : Parts)

/-! ## Lists of expressions -/

def expressions : TokenReader Unit := discard (listed (parts.expression true))

def elements : TokenReader Unit := do
  if ← atEnd then return
  let _ ← parts.expression true
  if ← takeMarks? ";" then
    let _ ← parts.expression true
  else unless ← atEnd do
    expectMarks ","
    expressions parts

/-- Takes a field and its value, which may be left out if a variable has the field's name. -/
def fieldValue : TokenReader Unit := do
  let _ ← attributes parts
  let isName ← member
  if !isName || (← look (marksAt ":")) then
    expectMarks ":"
    let _ ← parts.expression true

def fieldValues : TokenReader Unit := do
  let _ ← many (α := Unit) do
    if ← atEnd then return none
    if ← takeMarks? ".." then
      unless ← atEnd do discard (parts.expression true)
      unless ← atEnd do failure
      return none
    fieldValue parts
    unless ← atEnd do expectMarks ","
    return some ()

/-! ## Expressions with blocks -/

/-- Takes an expression in front of a block, in which braces do not follow the name of a struct. -/
def head : TokenReader Unit := discard (parts.expression false)

def conditional : TokenReader Unit := do
  let _ ← many (α := Unit) do
    unless ← takeKeyword? "if" do return none
    head parts
    block parts
    unless ← takeKeyword? "else" do return none
    if ← look (keywordAt ["if"]) then return some ()
    block parts
    return none

def blockAt (s : List Token) : Bool :=
  let behind := s.drop 1
  keywordAt ["if", "while", "loop", "match", "unsafe"] s ||
    keywordAt ["for"] s && !parametersAt behind ||
    keywordAt ["try", "const"] s && groupAt .braces behind ||
    groupAt .braces s || lifetimeAt s

def arm : TokenReader Unit := do
  let _ ← attributes parts
  let _ ← alternatives parts
  if ← takeKeyword? "if" then
    let _ ← parts.expression true
  expectMarks "=>"
  let body ← parts.standing
  unless ← takeMarks? "," do
    unless body = .block || (← atEnd) do failure

def arms : TokenReader Unit := do
  innerAttributes parts
  let _ ← many (α := Unit) do
    if ← atEnd then return none
    some <$> arm parts

def loopOrBlock : TokenReader Unit := do
  if ← takeKeyword? "while" then head parts
  else if ← takeKeyword? "for" then
    let _ ← alternatives parts
    expectKeyword "in"
    head parts
  else discard (takeKeyword? "loop")
  attributedBlock parts

def blockExpression : TokenReader Unit := do
  if ← takeLifetime? then
    expectMarks ":"
    loopOrBlock parts
  else if ← look (keywordAt ["if"]) then conditional parts
  else if ← takeKeyword? "match" then
    head parts
    within .braces (arms parts)
  else if ← takeKeyword? "try" then block parts
  else if ← takeKeyword? "unsafe" then attributedBlock parts
  else if ← takeKeyword? "const" then attributedBlock parts
  else loopOrBlock parts

def pathExpression (structs : Bool) : TokenReader Shape := do
  let p ← qualifiedPath parts true
  let here ← get
  if bangAt here && p.plain then
    expectMarks "!"
    return .invocation (← anyGroup)
  if structs && groupAt .braces here then within .braces (fieldValues parts)
  return .other

def closureParameter : TokenReader Unit := do
  let _ ← attributes parts
  let _ ← parts.pattern
  if ← takeMarks? ":" then
    let _ ← parts.type true

def closureAt (s : List Token) : Bool :=
  let behind := s.drop 1
  marksAt "|" s || keywordAt ["move", "static"] s || keywordAt ["for"] s && parametersAt behind ||
    keywordAt ["const"] s && !groupAt .braces behind ||
    keywordAt ["async"] s &&
      (marksAt "|" behind || keywordAt ["move"] behind && !groupAt .braces (s.drop 2))

def closure (structs : Bool) : TokenReader Unit := do
  let _ ← boundLifetimes parts
  for word in ["const", "static", "async", "move"] do
    let _ ← takeKeyword? word
  expectMarks "|"
  let _ ← separatedBy "," (marksAt "|") (closureParameter parts)
  expectMarks "|"
  -- With the type of its result, a closure has to have a block.
  if ← takeMarks? "->" then
    let _ ← parts.type true
    block parts
  else discard (parts.expression structs)

/-! ## Behind an operand -/

/-- Whether a dot ends a numeral that names fields by their numbers, with dots between them. -/
def fieldNumbers? (digits : String) : Option Bool := do
  let pieces := digits.toList.splitOn '.'
  let numbers := pieces.filter (· ≠ [])
  for number in numbers do
    let n ← Text.readDigits 10 (number.filter (· ≠ '_'))
    unless n < UInt32.size do failure
  return numbers.length < pieces.length

def memberTail : TokenReader Unit := do
  if ← takeKeyword? "await" then return
  let isName ← member
  unless isName do return
  if ← takeMarks? "::" then
    let _ ← angleArguments parts
    within .parens (expressions parts)
  else if ← look (groupAt .parens) then within .parens (expressions parts)

def suffixOf? (operand : Shape) : TokenReader (Option Shape) := do
  let here ← get
  if groupAt .parens here then
    within .parens (expressions parts)
    return some .other
  if groupAt .brackets here then
    within .brackets (discard (parts.expression true))
    return some .other
  if operand = .range then return none
  if ← takeMarks? "?" then return some .other
  unless dotAt here do return none
  expectMarks "."
  match ← get with
  | .literal (.float digits) :: rest =>
    set rest
    match fieldNumbers? digits with
    | some true => memberTail parts
    | some false => pure ()
    | none => failure
  | _ => memberTail parts
  return some .other

def suffixes (operand : Shape) : TokenReader Shape := carry (suffixOf? parts) operand

/-! ## Operators -/

/-- The operators between operands, the longer ones first. -/
def operators : List (String × Binding) :=
  [("+=", .assign), ("-=", .assign), ("*=", .assign), ("/=", .assign), ("%=", .assign),
    ("^=", .assign), ("&=", .assign), ("|=", .assign), ("<<=", .assign), (">>=", .assign),
    ("&&", .and), ("||", .or), ("<<", .shift), (">>", .shift), ("==", .compare), ("<=", .compare),
    ("!=", .compare), (">=", .compare), ("+", .sum), ("-", .sum), ("*", .product),
    ("/", .product), ("%", .product), ("^", .bitXor), ("&", .bitAnd), ("|", .bitOr),
    ("<", .compare), (">", .compare)]

def operatorAt (s : List Token) : Option (Binding × List Token) :=
  operators.findSome? fun (marks, binding) => (behindMarks marks.toList s).map (binding, ·)

/-- How firmly what stands in front would hold the operand before it. -/
def bindingAt (s : List Token) : Binding :=
  match operatorAt s with
  | some (binding, _) => binding
  | none =>
    if marksAt "=" s && !marksAt "=>" s then .assign
    else if marksAt ".." s then .range
    else if keywordAt ["as"] s then .cast
    else .jump

def openRangeEnd (structs : Bool) (s : List Token) : Bool :=
  s.isEmpty || dotAt s || !structs && groupAt .braces s ||
    anyMarksAt [",", ";", "?", "=>", "=", "+", "/", "%", "^", ">", "<=", "!=", "-=", "*=", "&=",
      "|=", "<<="] s

/-- Takes the operand behind an operator, with all that holds it more firmly. -/
def rightSide (structs : Bool) (binding : Binding) : TokenReader Unit := do
  let first ← parts.operand structs
  let _ ← carry (fun operand => do
    let here ← get
    let next := bindingAt here
    unless binding.rank < next.rank || next = binding && binding = .assign do return none
    let operand ← parts.operators structs next operand
    -- A range may have come to its end without taking anything more.
    return if (← get).length < here.length then some operand else none) first

def rangeEnd (structs closed : Bool) : TokenReader Unit := do
  if closed || !openRangeEnd structs (← get) then rightSide parts structs .range

def prefixOperator? : TokenReader Bool := do
  if ← takeMarks? "&" then
    let here ← get
    if keywordAt ["raw"] here && keywordAt ["const", "mut"] (here.drop 1) then set (here.drop 2)
    else discard (takeKeyword? "mut")
    return true
  if ← takeMarks? "*" then return true
  if ← takeMarks? "!" then return true
  takeMarks? "-"

/-- True in front of an expression, as far as the first tokens tell. -/
def expressionAt (s : List Token) : Bool :=
  wordAt s && !keywordAt ["as"] s || groupAt .parens s || groupAt .brackets s ||
    groupAt .braces s || literalAt s || lifetimeAt s || anyMarksAt ["..", "::", "#"] s ||
    marksAt "!" s && !marksAt "!=" s || marksAt "-" s && !anyMarksAt ["-=", "->"] s ||
    marksAt "*" s && !marksAt "*=" s || marksAt "|" s && !marksAt "|=" s ||
    marksAt "&" s && !marksAt "&=" s || marksAt "<" s && !anyMarksAt ["<=", "<<="] s

/-- True in front of what may not follow a type to which an operand is cast. -/
def castSuffixAt (s : List Token) : Bool :=
  dotAt s || marksAt "?" s || groupAt .brackets s || groupAt .parens s

/-- Takes an operator that holds at least as firmly as a binding, and the operand behind it, if one
is next. -/
def operation? (structs : Bool) (base : Binding) (left : Shape) :
    TokenReader (Option Shape) := do
  if left = .range then return none
  let here ← get
  if (bindingAt here).rank < base.rank then return none
  match operatorAt here with
  | some (.compare, rest) =>
    if left = .comparison then failure
    set rest
    rightSide parts structs .compare
    return some .comparison
  | some (binding, rest) =>
    set rest
    rightSide parts structs binding
    return some .other
  | none =>
    match bindingAt here with
    | .assign =>
      expectMarks "="
      rightSide parts structs .assign
      return some .other
    | .range =>
      rangeEnd parts structs (← rangeDots false)
      return some .range
    | .cast =>
      expectKeyword "as"
      let _ ← parts.type false
      if ← look castSuffixAt then failure
      return some .other
    | _ => return none

def operations (structs : Bool) (base : Binding) (first : Shape) : TokenReader Shape :=
  carry (operation? parts structs base) first

/-! ## Operands -/

def jumpValue : TokenReader Unit := do
  if ← look expressionAt then discard (parts.expression true)

def breakTail (structs : Bool) : TokenReader Unit := do
  let here ← get
  -- A label with a colon would start the value, which needs parentheses then.
  if lifetimeAt here && marksAt ":" (here.drop 1) then failure
  let _ ← takeLifetime?
  if structs || !(← look (groupAt .braces)) then jumpValue parts

def letTail (structs : Bool) : TokenReader Unit := do
  let _ ← alternatives parts
  expectMarks "="
  let first ← parts.operand structs
  let _ ← parts.operators structs .compare first

/-- Takes an operand without the operators in front of it and without what stands behind it. -/
def atom (structs : Bool) : TokenReader Shape := do
  let here ← get
  let behind := here.drop 1
  if literalAt here then
    literal
    return match here with
      | .literal (.integer n _) :: _ => .integer n
      | _ => .other
  if blockAt here then return ← giving .block (blockExpression parts)
  if closureAt here then return ← giving .other (closure parts structs)
  if keywordAt ["builtin"] here && marksAt "#" behind then
    set (behind.drop 1)
    let _ ← freeWord
    return ← giving .other (group .parens)
  if pathAt here || keywordAt ["try"] here && anyMarksAt ["!", "::"] behind then
    return ← pathExpression parts structs
  if groupAt .parens here then return ← giving .other (within .parens (expressions parts))
  if groupAt .brackets here then return ← giving .other (within .brackets (elements parts))
  if marksAt ".." here then
    return ← giving .range (do rangeEnd parts structs (← rangeDots false))
  let (keyword, raw) ← anyWord
  if raw then failure
  match keyword with
  | "async" =>
    let _ ← takeKeyword? "move"
    block parts
  | "break" => breakTail parts structs
  | "continue" => discard takeLifetime?
  | "return" | "yield" => jumpValue parts
  | "become" => discard (parts.expression true)
  | "let" => letTail parts structs
  | "_" => pure ()
  | _ => failure
  return .other

def operand (structs : Bool) : TokenReader Shape := do
  let attributes ← attributes parts
  if ← prefixOperator? then return ← giving .other (parts.operand structs)
  let shape ← suffixes parts (← atom parts structs)
  -- A range has no place of its own for attributes.
  if shape = .range && !attributes.isEmpty then failure
  return shape

def expression (structs : Bool) : TokenReader Shape := do
  operations parts structs .jump (← operand parts structs)

/-- Takes an expression in the place of a statement, which ends with its block if it starts with
one. -/
def standing : TokenReader Shape := do
  let _ ← attributes parts
  if ← look blockAt then
    blockExpression parts
    let here ← get
    -- Only a field, a method or a mark for errors goes on with it.
    unless dotAt here || marksAt "?" here do return .block
    operations parts true .jump (← suffixes parts .block)
  else operations parts true .jump (← operand parts true)

end WireCodec.Derive
