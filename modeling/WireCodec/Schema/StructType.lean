import WireCodec.Schema.Declaration
import WireCodec.Schema.Error
import WireCodec.Text.Word
import WireCodec.Typing.WireType

/-!
# Struct types

A struct type is a declared struct whose names and types have been checked.  Fields are checked in
order, and each may only refer to the ones in front of it.
-/

namespace WireCodec

structure Field where
  name : String
  type : WireType
  deriving DecidableEq, Repr

/-- A checked struct: its fields in the order of the wire. -/
structure StructType where
  name : String
  fields : List Field
  deriving DecidableEq, Repr

def Field.find? (name : String) (fields : List Field) : Option Field :=
  fields.find? (·.name = name)

namespace StructType

def checkReference (earlier : List Field) (name : String) : Except TypeError Unit :=
  match Field.find? name earlier with
  | none => .error (.lengthNotPreceding name)
  | some field =>
    if field.type.countsElements then .ok ()
    else .error (.lengthNotUnsigned name field.type.spelling)

def references : WireType → List String
  | .sequence _ length => length.fields
  | _ => []

def bindField (aliases : AliasTable) (earlier : List Field) (decl : FieldDecl) :
    Except TypeError Field := do
  unless Text.isIdentifier decl.name do throw .badFieldName
  if earlier.any (·.name = decl.name) then throw .duplicateField
  -- References come last, since only the type tells whether there are any.
  let type ← WireType.classify aliases decl.type decl.length
  (references type).forM (checkReference earlier)
  return ⟨decl.name, type⟩

/-- Checks declared fields behind the ones that are already checked. -/
def bindFields (aliases : AliasTable) (struct : String) (earlier : List Field) :
    List FieldDecl → Except SchemaError (List Field)
  | [] => .ok earlier
  | decl :: rest =>
    match bindField aliases earlier decl with
    | .ok field => bindFields aliases struct (earlier ++ [field]) rest
    | .error cause => .error (.field struct decl.name cause)

/-- Checks a declared struct.  The first field at fault is the one reported. -/
def bind (aliases : AliasTable) (decl : StructDecl) : Except SchemaError StructType :=
  if Text.isIdentifier decl.name then do
    return ⟨decl.name, ← bindFields aliases decl.name [] decl.fields⟩
  else .error (.badStructName decl.name)

end StructType

end WireCodec
