import WireCodec.Derive.Grammar.Type

/-!
# Patterns

Patterns are followed to their ends; it only matters which of them are ranges that lack an
end, as these need parentheses inside brackets.
-/

namespace WireCodec.Derive

open TokenReader

variable (parts : Parts)

/-- Takes the dots of a range; the answer says whether its last value is named.  In patterns three
dots do the same as two with an equals sign. -/
def rangeDots (inPattern : Bool) : TokenReader Bool := do
  if ← takeMarks? "..=" then return true
  if ← takeMarks? "..." then
    unless inPattern do failure
    return true
  expectMarks ".."
  return false

/-- Takes a pattern and its alternatives; the answer says whether it is one range that lacks an
end. -/
def alternatives : TokenReader Bool := do
  let leadingBar ← takeMarks? "|"
  let first ← parts.pattern
  let others ← many do
    unless ← look barAt do return none
    expectMarks "|"
    some <$> parts.pattern
  return first && !leadingBar && others.isEmpty

/-- Takes a place among the fields: a name, or a number; the answer says whether it is a name. -/
def member : TokenReader Bool := do
  match ← get with
  | .literal (.integer n false) :: rest =>
    if n < UInt32.size then set rest *> pure false else failure
  | _ =>
    let _ ← freeWord
    return true

def rangeEnd? : TokenReader Bool := do
  let here ← get
  if here.isEmpty || colonAt here || keywordAt ["if"] here || anyMarksAt ["|", "=", ",", ";"] here
  then return false
  if literalAt here then literal
  else if pathAt here then discard (qualifiedPath parts true)
  else
    expectKeyword "const"
    attributedBlock parts
  return true

def rangeTail : TokenReader Bool := do
  let closed ← rangeDots true
  let hasEnd ← rangeEnd? parts
  if closed && !hasEnd then failure
  return !hasEnd

def fieldPattern : TokenReader Unit := do
  let boxed ← takeKeyword? "box"
  let byReference ← takeKeyword? "ref"
  let mutable ← takeKeyword? "mut"
  let bare := !boxed && !byReference && !mutable
  let isName ← if bare then member else giving true freeWord
  if !isName || bare && (← look (marksAt ":")) then
    expectMarks ":"
    let _ ← alternatives parts

def fieldPatterns : TokenReader Unit := do
  let _ ← many (α := Unit) do
    if ← atEnd then return none
    let _ ← attributes parts
    if ← takeMarks? ".." then
      unless ← atEnd do failure
      return none
    fieldPattern parts
    unless ← atEnd do expectMarks ","
    return some ()

def pathPattern : TokenReader Bool := do
  let p ← qualifiedPath parts true
  let here ← get
  if bangAt here && p.plain then
    expectMarks "!"
    return ← giving false anyGroup
  if groupAt .braces here then within .braces (fieldPatterns parts)
  else if groupAt .parens here then discard (within .parens (listed (alternatives parts)))
  else if marksAt ".." here then return ← rangeTail parts
  return false

def namePattern : TokenReader Bool := do
  let _ ← takeKeyword? "ref"
  let _ ← takeKeyword? "mut"
  unless ← takeKeyword? "self" do discard freeWord
  if ← takeMarks? "@" then
    let _ ← parts.pattern
  return false

def elementPattern : TokenReader Unit := do
  if ← alternatives parts then failure

/-- True in front of a pattern that starts with a path, and of more than a name to bind. -/
def pathPatternAt (s : List Token) : Bool :=
  let behind := s.drop 1
  nameAt s && (anyMarksAt ["::", "!", ".."] behind || groupAt .braces behind ||
      groupAt .parens behind) ||
    keywordAt ["self"] s && marksAt "::" behind ||
    anyMarksAt ["::", "<"] s || keywordAt ["Self", "super", "crate"] s

/-- Takes a pattern without alternatives; the answer says whether it is a range that lacks an
end. -/
def pattern : TokenReader Bool := do
  let here ← get
  if pathPatternAt here then pathPattern parts
  else if ← takeKeyword? "_" then return false
  else if ← takeKeyword? "box" then giving false parts.pattern
  else if literalAt here || keywordAt ["const"] here then
    unless ← rangeEnd? parts do failure
    if ← look (marksAt "..") then rangeTail parts else return false
  else if nameAt here || keywordAt ["ref", "mut", "self"] here then namePattern parts
  else if ← takeMarks? "&" then
    let _ ← takeKeyword? "mut"
    giving false parts.pattern
  else if groupAt .parens here then
    giving false (within .parens (listed (alternatives parts)))
  else if groupAt .brackets here then
    giving false (within .brackets (listed (elementPattern parts)))
  else
    -- Dots alone stand for all other elements, and need no end.
    let closed ← rangeDots false
    let hasEnd ← rangeEnd? parts
    if closed && !hasEnd then failure
    return hasEnd

end WireCodec.Derive
