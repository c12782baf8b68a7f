import WireCodec.Derive.Grammar.Type

/-!
# Parameters

The parameters of an item in angle brackets, and the conditions on them behind `where`.
-/

namespace WireCodec.Derive

open TokenReader

variable (parts : Parts)

/-- Takes lifetimes with plus signs between them; the last plus sign may have nothing behind it. -/
def lifetimeBounds : TokenReader Unit := do
  let _ ← many (α := Unit) do
    if ← look boundsEnd then return none
    lifetime
    unless ← takeMarks? "+" do
      unless ← look boundsEnd do failure
    return some ()

def typeParameter : TokenReader Unit := do
  let _ ← freeWord
  if ← takeMarks? ":" then bounds parts true
  if ← takeMarks? "=" then
    let _ ← parts.type true

def constParameter : TokenReader Unit := do
  let _ ← freeWord
  expectMarks ":"
  let _ ← parts.type true
  if ← takeMarks? "=" then constArgument parts

def parameter : TokenReader Unit := do
  let _ ← attributes parts
  if ← takeLifetime? then
    if ← takeMarks? ":" then lifetimeBounds
  else if ← takeKeyword? "const" then constParameter parts
  -- An underscore stands for a type and has no bounds.
  else unless ← takeKeyword? "_" do typeParameter parts

def parameters : TokenReader Bool := do
  unless ← takeMarks? "<" do return false
  return !(← listedInAngles (parameter parts)).isEmpty

def conditionsEnd (s : List Token) : Bool :=
  s.isEmpty || groupAt .braces s || colonAt s || anyMarksAt [",", ";", "="] s

def condition : TokenReader Unit := do
  let here ← get
  if lifetimeAt here && marksAt ":" (here.drop 1) then
    set (here.drop 2)
    lifetimeBounds
  else
    let _ ← boundLifetimes parts
    let _ ← parts.type true
    expectMarks ":"
    bounds parts true

def conditions : TokenReader Bool := do
  unless ← takeKeyword? "where" do return false
  -- Parameters of the conditions themselves have no meaning yet.
  if ← look parametersAt then failure
  let _ ← many (α := Unit) do
    if ← look conditionsEnd then return none
    condition parts
    unless ← takeMarks? "," do
      unless ← look conditionsEnd do failure
    return some ()
  return true

end WireCodec.Derive
