import WireCodec.Layout.Group
import WireCodec.Procedure.Step

/-!
# Compiled structs

A codec is a struct type together with its size groups and the steps that decode and encode its
records.  `StructType.compile` makes it.
-/

namespace WireCodec

structure Codec where
  name : String
  fields : List Field
  groups : List Group
  decode : List DecodeStep
  encode : List EncodeStep
  fixedSize : Nat
  deriving DecidableEq, Repr

namespace Codec

def field? (c : Codec) (name : String) : Option Field := Field.find? name c.fields

def isFixedSize (c : Codec) : Bool := c.groups.all Group.isFixed

def describe (c : Codec) : String :=
  s!"struct {c.name} (fixed {c.fixedSize} bytes)\n" ++
    "  groups:\n" ++ String.join (c.groups.map fun g => s!"    [{extent g}] {names g}\n") ++
    "  decode:\n" ++ String.join (c.decode.map fun s => s!"    {s.text}\n") ++
    "  encode:\n" ++ String.join (c.encode.map fun s => s!"    {s.text}\n")
where
  extent (g : Group) : String :=
    match g.extent with
    | .fixed bytes => s!"fixed {bytes}"
    | .variable => "variable"
  names (g : Group) : String :=
    String.intercalate ", " ((g.slice c.fields).map Field.name)

end Codec

namespace StructType

/-! ## Decoding -/

def decodeField (offset : Nat) (field : Field) : List DecodeStep :=
  match field.type with
  | .scalar type => [.load (.field field.name) type offset]
  -- An array without elements is made, but nothing is loaded into it.
  | .array elem length _ =>
    .newArray field.name length elem ::
      (if 0 < length then [.load (.elements field.name) elem offset] else [])
  | .sequence elem length =>
    [.count field.name length, .read (.counted field.name elem.size),
      .newSequence field.name elem, .load (.elements field.name) elem 0]

def decodeFields (offset : Nat) : List Field → List DecodeStep
  | [] => []
  | field :: rest =>
    decodeField offset field ++ decodeFields (offset + field.type.size?.getD 0) rest

/-- The read of a whole fixed group; there is none for a group without bytes. -/
def decodeExtent : Extent → List DecodeStep
  | .fixed 0 => []
  | .fixed bytes => [.read (.fixed bytes)]
  | .variable => []

def decodeGroup (fields : List Field) (g : Group) : List DecodeStep :=
  decodeExtent g.extent ++ decodeFields 0 (g.slice fields)

/-- The steps of a decoding; the scratch buffer holds the largest fixed group. -/
def decodeSteps (fields : List Field) (groups : List Group) : List DecodeStep :=
  (if groups.any (·.extent ≠ .fixed 0) then [.scratch (Group.largestFixed groups)] else []) ++
    groups.flatMap (decodeGroup fields)

/-! ## Encoding -/

def countSteps (field : Field) : List EncodeStep :=
  match field.type with
  | .sequence _ length => [.count field.name length, .checkCount field.name]
  | _ => []

def countedUnit (field : Field) : Option (String × Nat) :=
  match field.type with
  | .sequence elem _ => some (field.name, elem.size)
  | _ => none

def storeStep (field : Field) : EncodeStep :=
  let slot := if field.type.isCollection then Slot.elements field.name else Slot.field field.name
  .store slot field.type.element

/-- The steps of an encoding: every sequence is checked before anything is stored. -/
def encodeSteps (fields : List Field) (groups : List Group) : List EncodeStep :=
  fields.flatMap countSteps ++
    [.reserve (Group.fixedSize groups) (fields.filterMap countedUnit)] ++
    fields.map storeStep ++ [.write]

def compile (s : StructType) : Codec :=
  let groups := Group.ofFields s.fields
  { name := s.name
    fields := s.fields
    groups
    decode := decodeSteps s.fields groups
    encode := encodeSteps s.fields groups
    fixedSize := Group.fixedSize groups }

end StructType

end WireCodec
