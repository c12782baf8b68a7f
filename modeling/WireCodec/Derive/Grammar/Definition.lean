import WireCodec.Derive.Grammar.Field
import WireCodec.Derive.Grammar.Pattern

/-!
# Items inside blocks

A block may define functions, types, traits and all else that may stand in a file.  Nothing depends
on what is defined, so the items are only followed to their ends.
-/

namespace WireCodec.Derive

open TokenReader

variable (parts : Parts)

/-! ## Functions -/

def behindKeyword (words : List String) (s : List Token) : List Token :=
  if keywordAt words s then s.drop 1 else s

/-- True in front of a function.  Where functions are only declared, one may be called safe. -/
def functionAt (declared : Bool) (s : List Token) : Bool :=
  let s := behindKeyword ["async"] (behindKeyword ["const"] s)
  let s := behindKeyword (if declared then ["unsafe", "safe"] else ["unsafe"]) s
  let s := if keywordAt ["extern"] s && textAt (s.drop 1) then s.drop 2
    else behindKeyword ["extern"] s
  keywordAt ["fn"] s

def receiver : TokenReader Unit := do
  let byReference ← takeMarks? "&"
  if byReference then discard takeLifetime?
  let _ ← takeKeyword? "mut"
  expectKeyword "self"
  if !byReference && (← look (marksAt ":")) then
    expectMarks ":"
    let _ ← parts.type true

/-- Takes a parameter that is no receiver; the answer says whether it stands for all others. -/
def functionParameter : TokenReader Bool := do
  let here ← get
  if nameAt here && marksAt "<" (here.drop 1) then
    return ← giving false (parts.type true)
  let _ ← parts.pattern
  expectMarks ":"
  if ← takeMarks? "..." then return true
  giving false (parts.type true)

def functionParameters : TokenReader Unit := do
  let _ ← carry (fun isFirst => do
    if ← atEnd then return none
    let _ ← attributes parts
    let isReceiver ← giving true (receiver parts) <|> pure false
    if isReceiver && !isFirst then failure
    let isLast ← if isReceiver then pure false
      else if ← takeMarks? "..." then pure true
      else functionParameter parts
    unless ← atEnd do expectMarks ","
    if isLast then
      unless ← atEnd do failure
    return some false) true

def signature (declared : Bool) : TokenReader Unit := do
  let _ ← takeKeyword? "const"
  let _ ← takeKeyword? "async"
  unless ← takeKeyword? "unsafe" do
    if declared then discard (takeKeyword? "safe")
  callingConvention
  expectKeyword "fn"
  let _ ← freeWord
  let _ ← parameters parts
  within .parens (functionParameters parts)
  if ← takeMarks? "->" then
    let _ ← parts.type true
  let _ ← conditions parts

def function (declared : Bool) : TokenReader Unit := do
  signature parts declared
  unless ← takeMarks? ";" do attributedBlock parts

/-! ## Constants and types -/

def valueTail : TokenReader Unit := do
  if ← takeMarks? "=" then
    let _ ← parts.expression true

def constant : TokenReader Unit := do
  expectKeyword "const"
  freeWordOrUnderscore
  let _ ← parameters parts
  expectMarks ":"
  let _ ← parts.type true
  valueTail parts
  let _ ← conditions parts
  expectMarks ";"

def staticVariable : TokenReader Unit := do
  expectKeyword "static"
  let _ ← takeKeyword? "mut"
  let _ ← freeWord
  if ← look (marksAt "=") then valueTail parts
  else
    expectMarks ":"
    let _ ← parts.type true
    valueTail parts
  expectMarks ";"

def declaredVariable : TokenReader Unit := do
  unless ← takeKeyword? "unsafe" do discard (takeKeyword? "safe")
  expectKeyword "static"
  let _ ← takeKeyword? "mut"
  let _ ← freeWord
  expectMarks ":"
  let _ ← parts.type true
  valueTail parts
  expectMarks ";"

/-- Takes the name of a type and what it stands for, which may be left out.  Conditions stand in
front of the equals sign or behind its type. -/
def typeAlias (inFront behind : Bool) : TokenReader Unit := do
  expectKeyword "type"
  let _ ← freeWord
  let _ ← parameters parts
  if ← takeMarks? ":" then bounds parts true
  let hasConditions ← if inFront then conditions parts else pure false
  if ← takeMarks? "=" then
    let _ ← parts.type true
  if behind && !hasConditions then discard (conditions parts)
  expectMarks ";"

/-! ## Imports -/

/-- Takes the tree of an import, so deep at most.  Only at its front may a path start at the
root. -/
def importTreeUpTo : Nat → Bool → TokenReader Unit
  | 0, _ => failure
  | depth + 1, rootAllowed => do
    let here ← get
    if ← takeMarks? "*" then return
    if groupAt .braces here then
      let branch : TokenReader Unit := do
        let fromRoot ← if rootAllowed then takeMarks? "::" else pure false
        importTreeUpTo depth (rootAllowed && !fromRoot)
      return ← discard (within .braces (listed branch))
    unless nameAt here || keywordAt ["self", "super", "crate", "try"] here do failure
    let _ ← next
    if ← takeMarks? "::" then importTreeUpTo depth false
    else if ← takeKeyword? "as" then freeWordOrUnderscore

def importItem : TokenReader Unit := do
  expectKeyword "use"
  let fromRoot ← takeMarks? "::"
  importTreeUpTo (Token.count (← get) + 1) (!fromRoot)
  expectMarks ";"

def libraryImport : TokenReader Unit := do
  expectKeyword "extern"
  expectKeyword "crate"
  unless ← takeKeyword? "self" do discard freeWord
  if ← takeKeyword? "as" then freeWordOrUnderscore
  expectMarks ";"

/-! ## Items that hold items -/

def membersOf (item : TokenReader Unit) : TokenReader Unit :=
  within .braces do
    innerAttributes parts
    let _ ← many (α := Unit) do
      if ← atEnd then return none
      let _ ← attributes parts
      some <$> item

def invocationAt (s : List Token) : Bool :=
  nameAt s || keywordAt ["self", "super", "crate"] s || marksAt "::" s

def declaredItem : TokenReader Unit := do
  let isVisible ← visibility
  let here ← get
  if functionAt true here then function parts true
  else if keywordAt ["static"] (behindKeyword ["unsafe", "safe"] here) then declaredVariable parts
  else if keywordAt ["type"] here then typeAlias parts true true
  else if !isVisible && invocationAt here then invocationItem
  else failure

def declarations : TokenReader Unit := do
  let _ ← takeKeyword? "unsafe"
  unless ← look (keywordAt ["extern"]) do failure
  callingConvention
  membersOf parts (declaredItem parts)

def traitItem : TokenReader Unit := do
  let isVisible ← visibility
  let isDefault ← takeKeyword? "default"
  let here ← get
  if functionAt false here then function parts false
  else if keywordAt ["const"] here then constant parts
  else if keywordAt ["type"] here then typeAlias parts false true
  else if !isVisible && !isDefault && invocationAt here then invocationItem
  else failure

def traitDefinition : TokenReader Unit := do
  let isUnsafe ← takeKeyword? "unsafe"
  let isAuto ← takeKeyword? "auto"
  expectKeyword "trait"
  let _ ← freeWord
  let _ ← parameters parts
  if !isUnsafe && !isAuto && (← look (marksAt "=")) then
    expectMarks "="
    bounds parts false
    let _ ← conditions parts
    expectMarks ";"
  else
    if ← takeMarks? ":" then bounds parts true
    let _ ← conditions parts
    membersOf parts (traitItem parts)

def implementationItem : TokenReader Unit := do
  let isVisible ← visibility
  let here ← get
  -- The word may also name a macro.
  let isDefault := keywordAt ["default"] here && !marksAt "!" (here.drop 1)
  let here := if isDefault then here.drop 1 else here
  set here
  if functionAt false here then function parts false
  else if keywordAt ["const"] here then constant parts
  else if keywordAt ["type"] here then typeAlias parts false true
  else if !isVisible && !isDefault && invocationAt here then invocationItem
  else failure

def implementation : TokenReader Unit := do
  let _ ← takeKeyword? "default"
  let _ ← takeKeyword? "unsafe"
  expectKeyword "impl"
  if ← look parametersAt then discard (parameters parts)
  let here ← get
  if keywordAt ["const"] here || marksAt "?" here && keywordAt ["const"] (here.drop 1) then
    let _ ← takeMarks? "?"
    expectKeyword "const"
  let here ← get
  let isNegative := marksAt "!" here && !groupAt .braces (here.drop 1)
  if isNegative then expectMarks "!"
  let _ ← parts.type true
  if ← takeKeyword? "for" then
    let _ ← parts.type true
  else if isNegative then failure
  let _ ← conditions parts
  membersOf parts (implementationItem parts)

def moduleDefinition : TokenReader Unit := do
  let _ ← takeKeyword? "unsafe"
  expectKeyword "mod"
  unless ← takeKeyword? "try" do discard freeWord
  unless ← takeMarks? ";" do membersOf parts parts.definition

/-! ## Items -/

def typeDefinition (body : TokenReader Unit) : TokenReader Unit := do
  let _ ← next
  let _ ← freeWord
  let _ ← parameters parts
  body

def macroTail : TokenReader Unit := do
  let _ ← freeWord
  if ← look (groupAt .parens) then discard next
  let _ ← group .braces

/-- Takes a call of a macro that may define what is named in front of its brackets. -/
def definingInvocation : TokenReader Unit := do
  let _ ← plainPath
  expectMarks "!"
  unless ← takeKeyword? "try" do
    if ← look nameAt then discard next
  unless (← anyGroup) = .braces do expectMarks ";"

def definition : TokenReader Unit := do
  let isVisible ← visibility
  let here ← get
  let behind := here.drop 1
  let behindUnsafe := behindKeyword ["unsafe"] here
  if functionAt false here then function parts false
  else if keywordAt ["extern"] here && keywordAt ["crate"] behind then libraryImport
  else if keywordAt ["extern"] behindUnsafe then
    if isVisible then failure
    declarations parts
  else if keywordAt ["use"] here then importItem
  else if keywordAt ["static"] here then staticVariable parts
  else if keywordAt ["const"] here then constant parts
  else if keywordAt ["mod"] behindUnsafe then moduleDefinition parts
  else if keywordAt ["type"] here then typeAlias parts true false
  else if keywordAt ["struct"] here then typeDefinition parts (discard (structBody parts))
  else if keywordAt ["enum"] here then typeDefinition parts (enumBody parts)
  else if keywordAt ["union"] here && nameAt behind then
    typeDefinition parts (unionBody parts)
  else if keywordAt ["trait"] (behindKeyword ["auto"] behindUnsafe) then traitDefinition parts
  else if keywordAt ["impl"] behindUnsafe ||
      keywordAt ["default"] here && !marksAt "!" behind then implementation parts
  else if ← takeKeyword? "macro" then macroTail
  else if !isVisible && invocationAt here then definingInvocation
  else failure

end WireCodec.Derive
