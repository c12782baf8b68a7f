import WireCodec.Length.Parser
import WireCodec.Typing.Alias

/-!
# Types on the wire

A field on the wire is one scalar, a fixed number of scalars, or a sequence of scalars counted by a
length expression.  `classify` finds which of them a declaration means.
-/

namespace WireCodec

/-- What a field holds on the wire.  An array carries a proof that its bytes can be counted in a
word.  A longer one cannot be built, with or without a declaration, so the bytes of every array are
known. -/
inductive WireType where
  | scalar (type : ScalarType)
  | array (elem : ScalarType) (length : Nat) (fits : elem.size * length < wordLimit)
  | sequence (elem : ScalarType) (length : LengthExpr)
  deriving DecidableEq, Repr

/-- The number of bytes of a field: known, or a unit times a count that is known when the field is
read. -/
inductive ByteCount where
  | known (bytes : Nat)
  | scaled (unit : Nat) (count : LengthExpr)
  deriving DecidableEq, Repr

namespace ByteCount

def text : ByteCount → String
  | known bytes => toString bytes
  | scaled unit count =>
    let operand := LengthExpr.parenthesize (count.precedence < 3) count.text
    s!"{unit} * {operand}"

end ByteCount

namespace WireType

def element : WireType → ScalarType
  | scalar type => type
  | array elem _ _ => elem
  | sequence elem _ => elem

def size? : WireType → Option Nat
  | scalar type => some type.size
  | array elem length _ => some (elem.size * length)
  | sequence .. => none

def byteCount : WireType → ByteCount
  | scalar type => .known type.size
  | array elem length _ => .known (elem.size * length)
  | sequence elem length => .scaled elem.size length

def isCollection : WireType → Bool
  | scalar _ => false
  | _ => true

def isInteger : WireType → Bool
  | scalar type => type.kind.isInteger
  | _ => false

/-- True of a single unsigned integer: what a length may ask for. -/
def countsElements : WireType → Bool
  | scalar type => type.kind.isUnsigned
  | _ => false

def spelling : WireType → String
  | scalar type => type.name
  | array elem length _ => s!"[{elem.name}; {length}]"
  | sequence elem _ => s!"Vec<{elem.name}>"

def ofArray (elem : ScalarType) (length : Nat) : Except TypeError WireType :=
  if fits : elem.size * length < wordLimit then .ok (.array elem length fits)
  else .error (.arrayTooLarge length elem.name)

/-- The type of the elements of a collection; they may not be collections. -/
def classifyElement (aliases : AliasTable) : TypeExpr → Except TypeError ScalarType
  | .named name => aliases.resolve name
  | elem => .error (.nested elem)

def classify (aliases : AliasTable) (type : TypeExpr) (length : Option String) :
    Except TypeError WireType :=
  if length.isSome && !type.isSequence then .error (.unwantedLength type)
  else
    match type with
    | .named name => do return .scalar (← aliases.resolve name)
    | .array elem count => do ofArray (← classifyElement aliases elem) count
    | .sequence elem => do
      let elem ← classifyElement aliases elem
      match length with
      | none => .error (.missingLength elem.name)
      | some source =>
        match LengthExpr.parse source with
        | .ok count => .ok (.sequence elem count)
        | .error cause => .error (.badLength cause)

end WireType

end WireCodec
