import WireCodec.Schema.StructType

/-!
# Steps of a procedure

Decoding and encoding a struct are two flat lists of steps.

A decoding works with one scratch buffer.  Every read fills it from its start, and a load takes
bytes at an offset that was fixed when the steps were made; element `i` of a collection lies
`i` times its size behind the offset.  An encoding appends to one output buffer in the order of the
fields and writes it once.
-/

namespace WireCodec

inductive Slot where
  | field (name : String)
  | elements (name : String)
  deriving DecidableEq, Repr

inductive ReadSize where
  | fixed (bytes : Nat)
  | counted (field : String) (unit : Nat)
  deriving DecidableEq, Repr

inductive DecodeStep where
  | scratch (bytes : Nat)
  | count (field : String) (length : LengthExpr)
  /-- Fills the scratch buffer from its start. -/
  | read (size : ReadSize)
  | newArray (field : String) (length : Nat) (elem : ScalarType)
  | newSequence (field : String) (elem : ScalarType)
  | load (slot : Slot) (type : ScalarType) (offset : Nat)
  deriving DecidableEq, Repr

inductive EncodeStep where
  | count (field : String) (length : LengthExpr)
  /-- Refuses a field that does not have as many elements as were counted. -/
  | checkCount (field : String)
  /-- Starts with an empty output buffer that has room for the bytes to come. -/
  | reserve (fixed : Nat) (counted : List (String × Nat))
  | store (slot : Slot) (type : ScalarType)
  | write
  deriving DecidableEq, Repr

/-- The most bytes that a counted read asks for at once, so that memory is only taken for bytes that
arrive. -/
def chunkSize : Nat := 65536

namespace Slot

def name : Slot → String
  | field name | elements name => name

def text : Slot → String
  | field name => name
  | elements name => s!"{name}[..]"

end Slot

namespace DecodeStep

def text : DecodeStep → String
  | scratch bytes => s!"scratch {bytes}"
  | count field length => s!"len {field} = {length.text}"
  | read (.fixed bytes) => s!"read {bytes}"
  | read (.counted field unit) => s!"read len({field}) * {unit}"
  | newArray field length elem => s!"alloc {field}: [{elem.name}; {length}]"
  | newSequence field elem => s!"alloc {field}: Vec<{elem.name}>"
  | load slot type offset => s!"load {slot.text}: {type.name} @{offset}"

def isRead : DecodeStep → Bool
  | read _ => true
  | _ => false

end DecodeStep

namespace EncodeStep

def text : EncodeStep → String
  | count field length => s!"len {field} = {length.text}"
  | checkCount field => s!"check len({field})"
  | reserve fixed counted =>
    s!"reserve {fixed}" ++
      String.join (counted.map fun (field, unit) => s!" + len({field}) * {unit}")
  | store slot type => s!"store {slot.text}: {type.name}"
  | write => "write"

def isStore : EncodeStep → Bool
  | store .. => true
  | _ => false

end EncodeStep

end WireCodec
