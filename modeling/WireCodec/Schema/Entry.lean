import WireCodec.NameSet
import WireCodec.Schema.Declaration
import WireCodec.Schema.Format
import WireCodec.Text.Word
import WireCodec.Typing.Parser

/-!
# What a schema file says

A schema file is a document of a certain shape: aliases, and structs with their fields, all of it
text. From there it takes a check of the names, and a reading of the types, to a schema.
-/

namespace WireCodec

structure FieldEntry where
  name : String
  type : String
  length : Option String
  deriving DecidableEq, Repr

structure StructEntry where
  name : String
  fields : List FieldEntry
  deriving DecidableEq, Repr

structure SchemaFile where
  aliases : NameTable String
  structs : List StructEntry

inductive EntryFault where
  | badAliasName (name : String)
  | badAliasTarget (name target : String)
  | badStructName (name : String)
  | repeatedStruct (name : String)
  | badFieldName (owner name : String)
  | badType (owner name type : String) (cause : TypeError)
  deriving DecidableEq, Repr

def EntryFault.message : EntryFault → String
  | badAliasName name => s!"invalid schema: alias name '{name}'"
  | badAliasTarget name target =>
    s!"invalid schema: alias '{name}' must name a primitive or another alias, not '{target}'"
  | badStructName name => s!"invalid schema: struct name '{name}'"
  | repeatedStruct name => s!"invalid schema: struct '{name}' is defined twice"
  | badFieldName owner name => s!"invalid schema: field name '{owner}.{name}'"
  | badType owner name type cause => s!"{owner}.{name}: bad type '{type}': {cause.message}"

/-! ## From documents -/

def FieldEntry.ofDocument? (form : PositionalForm) (d : Document) : Option FieldEntry := do
  match ← d.members? form ["name", "type", "len"] with
  | [some name, some type, length] =>
    let length ← match length with
      | none => some none
      | some d => if d.isAbsent then some none else d.text?.map some
    return ⟨← name.text?, ← type.text?, length⟩
  | _ => none

def StructEntry.ofDocument? (form : PositionalForm) (d : Document) : Option StructEntry := do
  match ← d.members? form ["name", "fields"] with
  | [some name, fields] =>
    let fields ← match fields with
      | none => some []
      | some d => d.items?
    return ⟨← name.text?, ← fields.mapM (FieldEntry.ofDocument? form)⟩
  | _ => none

namespace SchemaFile

def ofDocument? (form : PositionalForm) (d : Document) : Option SchemaFile := do
  match ← d.members? form ["aliases", "structs"] with
  | [aliases, structs] =>
    let aliases ← match aliases with
      | none => some []
      | some d => d.entries?
    let structs ← match structs with
      | none => some []
      | some d => d.items?
    let targets ← aliases.mapM fun (name, target) => do return (name, ← target.text?)
    return ⟨.ofList targets, ← structs.mapM (StructEntry.ofDocument? form)⟩
  | _ => none

def read (format : FileFormat) (text : String) : Option SchemaFile := do
  ofDocument? format.positionalForm (← format.read text)

/-! ## To schemas -/

/-- Checks an alias; blanks around its target are left out. -/
def checkAlias (name target : String) : Except EntryFault (String × String) :=
  if !Text.isName name then .error (.badAliasName name)
  else if !Text.isName (Text.trimmed target) then .error (.badAliasTarget name target)
  else .ok (name, Text.trimmed target)

def checkAliases (aliases : NameTable String) : Except EntryFault AliasTable := do
  -- The order decides which of two faults is told.
  let inOrder := (NameSet.ofList aliases.names).toList
  let checked ← inOrder.mapM fun name => checkAlias name ((aliases.get? name).getD "")
  return .ofList checked

def checkField (owner : String) (field : FieldEntry) : Except EntryFault FieldDecl :=
  if !Text.isName field.name then .error (.badFieldName owner field.name)
  else
    match TypeExpr.parse field.type with
    | .ok type => .ok ⟨field.name, type, field.length⟩
    | .error cause => .error (.badType owner field.name field.type cause)

def checkStructs (earlier : List StructDecl) :
    List StructEntry → Except EntryFault (List StructDecl)
  | [] => .ok earlier
  | s :: rest => do
    unless Text.isName s.name do throw (.badStructName s.name)
    if earlier.any (·.name = s.name) then throw (.repeatedStruct s.name)
    let fields ← s.fields.mapM (checkField s.name)
    checkStructs (earlier ++ [⟨s.name, fields⟩]) rest

def toSchema (file : SchemaFile) : Except EntryFault Schema := do
  let aliases ← checkAliases file.aliases
  return ⟨aliases, ← checkStructs [] file.structs⟩

end SchemaFile

end WireCodec
