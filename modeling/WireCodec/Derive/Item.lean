import WireCodec.Derive.Token

/-!
# Items

A struct as it is written, as far as a codec for it depends on that.
-/

namespace WireCodec.Derive

inductive AttributeContent where
  | nothing
  | value
  | arguments (content : List Token)

structure Attribute where
  /-- The path, if it is a single word that is not in raw form. -/
  name : Option String
  content : AttributeContent

inductive WrittenLength where
  | number (n : Nat)
  | expression
  deriving DecidableEq, Repr

inductive WrittenType where
  /-- A path with so many steps, the last of which has no arguments. -/
  | name (steps : Nat) (word : String) (raw : Bool)
  /-- A path whose last step has arguments, the first of which may be a type. -/
  | applied (word : String) (raw : Bool) (first : Option WrittenType)
  | array (elem : WrittenType) (length : WrittenLength)
  | inParens (inner : WrittenType)
  /-- A single bound in the place of a type. -/
  | bound
  | other

structure ItemField where
  attributes : List Attribute
  name : String
  type : WrittenType

inductive ItemBody where
  | named (fields : List ItemField)
  | tuple
  | unit
  | noStruct

structure Item where
  attributes : List Attribute
  name : String
  isGeneric : Bool
  body : ItemBody

end WireCodec.Derive
