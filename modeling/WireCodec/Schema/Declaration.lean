import WireCodec.Typing.Alias

/-!
# Declared schemas

What a schema says before anything about it is checked.
-/

namespace WireCodec

structure FieldDecl where
  name : String
  type : TypeExpr
  /-- The text of the length expression, if one is given. -/
  length : Option String
  deriving DecidableEq, Repr

structure StructDecl where
  name : String
  fields : List FieldDecl
  deriving DecidableEq, Repr

structure Schema where
  aliases : AliasTable
  structs : List StructDecl

end WireCodec
