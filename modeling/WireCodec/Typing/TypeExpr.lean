/-!
# Declared types

A declared type is a name, a fixed number of elements, or a sequence whose number of elements is
given elsewhere.  Declarations may nest deeper than the wire allows; classification decides that.
-/

namespace WireCodec

inductive TypeExpr where
  | named (name : String)
  | array (elem : TypeExpr) (length : Nat)
  | sequence (elem : TypeExpr)
  deriving DecidableEq, Repr, Inhabited

namespace TypeExpr

def text : TypeExpr → String
  | named name => name
  | array elem length => s!"[{elem.text}; {length}]"
  | sequence elem => s!"Vec<{elem.text}>"

/-- True of sequences alone: their length is not part of the type. -/
def isSequence : TypeExpr → Bool
  | sequence _ => true
  | _ => false

def leaf : TypeExpr → String
  | named name => name
  | array elem _ => elem.leaf
  | sequence elem => elem.leaf

end TypeExpr

end WireCodec
