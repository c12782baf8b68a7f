import WireCodec.Derive.Grammar.Expression

/-!
# Statements

The statements of a block.  An expression without a block of its own needs a semicolon, unless it
comes last.
-/

namespace WireCodec.Derive

open TokenReader

variable (parts : Parts)

def Shape.needsSemicolon : Shape → Bool
  | block | invocation .braces => false
  | _ => true

def lastBefore (all rest : List Token) : Option Token :=
  (all.take (all.length - rest.length)).getLast?

def binding : TokenReader Unit := do
  let _ ← parts.pattern
  if ← takeMarks? ":" then
    let _ ← parts.type true
  if ← takeMarks? "=" then
    let before ← get
    let _ ← parts.expression true
    -- Behind braces an alternative would belong to the value.
    unless groupAt .braces (lastBefore before (← get)).toList do
      if ← takeKeyword? "else" then block parts
  expectMarks ";"

def behindBang? : TokenReader (Option (List Token)) := do
  match plainPath.run (← get) with
  | some (_, rest) => return behindMarks ['!'] rest
  | none => return none

def definingMacroAt (behindBang : List Token) : Bool :=
  nameAt behindBang || keywordAt ["try"] behindBang

/-- True in front of the braces of a macro that is a statement of its own. -/
def standingBracesAt (behindBang : List Token) : Bool :=
  let behind := behindBang.drop 1
  groupAt .braces behindBang && !dotAt behind && !marksAt "?" behind

def definitionAt (s : List Token) : Bool :=
  let behind := s.drop 1
  let second := s.drop 2
  keywordAt ["pub", "extern", "use", "fn", "mod", "type", "struct", "enum", "trait", "impl",
      "macro"] s ||
    keywordAt ["crate"] s && !marksAt "::" behind ||
    keywordAt ["static"] s && (keywordAt ["mut"] behind || nameAt behind) ||
    keywordAt ["const"] s &&
      !(groupAt .braces behind || keywordAt ["static", "move"] behind || marksAt "|" behind ||
        keywordAt ["async"] behind && !keywordAt ["unsafe", "extern", "fn"] second) ||
    keywordAt ["unsafe"] s && !groupAt .braces behind ||
    keywordAt ["async"] s && keywordAt ["unsafe", "extern", "fn"] behind ||
    keywordAt ["union"] s && nameAt behind ||
    keywordAt ["auto"] s && keywordAt ["trait"] behind ||
    keywordAt ["default"] s && keywordAt ["unsafe", "impl"] behind

/-- Takes a statement; the answer says whether it needs a semicolon that is not there. -/
def statement : TokenReader Bool := do
  let _ ← attributes parts
  let behindBang := (← behindBang?).getD []
  if standingBracesAt behindBang then
    set (behindBang.drop 1)
    return ← giving false (takeMarks? ";")
  if ← takeKeyword? "let" then return ← giving false (binding parts)
  if definingMacroAt behindBang || (← look definitionAt) then
    return ← giving false parts.definition
  let shape ← parts.standing
  return !(← takeMarks? ";") && shape.needsSemicolon

def statements : TokenReader Unit := do
  let _ ← many (α := Unit) do
    if ← takeMarks? ";" then return some ()
    if ← atEnd then return none
    let isOpen ← statement parts
    if isOpen && !(← atEnd) then failure
    return some ()

end WireCodec.Derive
