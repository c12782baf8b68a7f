import WireCodec.Derive.Grammar.Parameter

/-!
# Fields

The fields of structs and unions, and the variants of enumerations.
-/

namespace WireCodec.Derive

open TokenReader

variable (parts : Parts)

/-- Takes a field with a name.  A field that is named by an underscore may be a struct without a
name. -/
def field : TokenReader ItemField := do
  let attributes ← attributes parts
  let _ ← visibility
  let (name, raw) ← anyWord
  unless isFree name raw || name == "_" do failure
  expectMarks ":"
  let here ← get
  if name == "_" && (keywordAt ["struct"] here ||
      keywordAt ["union"] here && groupAt .braces (here.drop 1)) then
    let _ ← next
    let _ ← parts.fields
    return ⟨attributes, name, .other⟩
  return ⟨attributes, name, ← parts.type true⟩

def namedFields : TokenReader (List ItemField) := within .braces (listed (field parts))

def tupleField : TokenReader Unit := do
  let _ ← attributes parts
  let _ ← visibility
  let _ ← parts.type true

def tupleFields : TokenReader Unit := discard (within .parens (listed (tupleField parts)))

def variant : TokenReader Unit := do
  let _ ← attributes parts
  let _ ← visibility
  let _ ← freeWord
  let here ← get
  if groupAt .braces here then discard (namedFields parts)
  else if groupAt .parens here then tupleFields parts
  if ← takeMarks? "=" then
    let _ ← parts.expression true

def structBody : TokenReader ItemBody := do
  -- The conditions of a tuple stand behind its fields.
  if ← look (groupAt .parens) then
    tupleFields parts
    let _ ← conditions parts
    expectMarks ";"
    return .tuple
  let _ ← conditions parts
  if ← look (groupAt .braces) then return .named (← namedFields parts)
  expectMarks ";"
  return .unit

def enumBody : TokenReader Unit := do
  let _ ← conditions parts
  let _ ← within .braces (listed (variant parts))

def unionBody : TokenReader Unit := do
  let _ ← conditions parts
  let _ ← namedFields parts

end WireCodec.Derive
