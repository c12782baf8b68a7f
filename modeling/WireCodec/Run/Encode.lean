import WireCodec.Procedure.Codec
import WireCodec.Record.Value
import WireCodec.Run.Error

/-!
# Running an encoding

An encoding collects bytes in a buffer and hands them to an output that may have room for only some
of them.  What the output got is part of every result, also of a failure.
-/

namespace WireCodec

/-- Where an encoding writes: how many more bytes it takes, if it has a limit, the bytes it got, and
the size of every write it was asked for. -/
structure Output where
  room : Option Nat
  received : List UInt8
  writes : List Nat
  deriving DecidableEq, Repr

namespace Output

def start (room : Option Nat) : Output := ⟨room, [], []⟩

/-- Writes bytes, as many as there is room for.  The answer says whether that was all of them. -/
def write (o : Output) (bytes : List UInt8) : Bool × Output :=
  let writes := o.writes ++ [bytes.length]
  match o.room with
  | none => (true, ⟨none, o.received ++ bytes, writes⟩)
  | some room =>
    (bytes.length ≤ room, ⟨some (room - bytes.length), o.received ++ bytes.take room, writes⟩)

end Output

structure EncodeState where
  counts : NameTable Nat
  /-- The bytes that the buffer was given room for. -/
  reserved : Nat
  buffer : List UInt8
  output : Output

structure EncodeFailure where
  error : CodecError
  output : Output
  deriving DecidableEq, Repr

/-- The number of bytes of a record, the number of bytes that room was made for, and the output
behind them. -/
structure Encoded where
  size : Nat
  reserved : Nat
  output : Output
  deriving DecidableEq, Repr

namespace EncodeState

def fail {α : Type} (s : EncodeState) (error : CodecError) : Except EncodeFailure α :=
  .error ⟨error, s.output⟩

def countOf (s : EncodeState) (field : String) : Except EncodeFailure Nat :=
  match s.counts.get? field with
  | some count => .ok count
  | none => s.fail (.length field .notCounted)

/-- The room for some bytes and for counted units; it stops at the largest word.  Room is only a
number here: making it never fails, however large it is. -/
def roomFor (s : EncodeState) : Nat → List (String × Nat) → Except EncodeFailure Nat
  | bytes, [] => .ok bytes
  | bytes, (field, unit) :: rest => do
    let count ← s.countOf field
    s.roomFor (min (bytes + count * unit) (wordLimit - 1)) rest

end EncodeState

def Record.elementsOf (record : NameTable Value) (field : String) :
    Except CodecError (List Value) :=
  match record.get? field with
  | none => .error (.missingField field)
  | some value =>
    match value.elements? with
    | some elements => .ok elements
    | none => .error (.wrongKind field "array or sequence" value.describe)

def Value.bytesAs (value : Value) (field : String) (kind : ScalarKind) :
    Except CodecError (List UInt8) :=
  match value with
  | .scalar s =>
    if s.kind = kind then .ok s.toBytes
    else .error (.wrongKind field kind.name value.describe)
  | _ => .error (.wrongKind field kind.name value.describe)

namespace Codec

def fixedCount? (c : Codec) (field : String) : Option Nat :=
  match (c.field? field).map Field.type with
  | some (.array _ length _) => some length
  | _ => none

def slotBytes (c : Codec) (record : Record) (type : ScalarType) :
    Slot → Except CodecError (List UInt8)
  | .field field =>
    match record.get? field with
    | none => .error (.missingField field)
    | some value => value.bytesAs field type.kind
  | .elements field => do
    let elements ← Record.elementsOf record field
    match c.fixedCount? field with
    -- The type of an array fixes its count; that of a sequence had a step of its own.
    | some length =>
      if elements.length ≠ length then throw (.wrongCount field length elements.length)
    | none => pure ()
    return (← elements.mapM (·.bytesAs field type.kind)).flatten

/-- Carries out one step for a record.  Reserving always succeeds: there is memory for whatever
room is asked for. -/
def encodeStep (c : Codec) (record : Record) (s : EncodeState) :
    EncodeStep → Except EncodeFailure EncodeState
  | .count field length =>
    match length.eval (Record.count? record) with
    | .ok count => .ok { s with counts := s.counts.set field count.toNat }
    | .error cause => s.fail (.length field (.evaluation cause))
  | .checkCount field => do
    let expected ← s.countOf field
    match Record.elementsOf record field with
    | .error error => s.fail error
    | .ok elements =>
      if elements.length = expected then return s
      else s.fail (.wrongCount field expected elements.length)
  | .reserve fixed counted => do
    return { s with reserved := ← s.roomFor fixed counted, buffer := [] }
  | .store slot type =>
    match c.slotBytes record type slot with
    | .ok bytes => .ok { s with buffer := s.buffer ++ bytes }
    | .error error => s.fail error
  | .write =>
    match s.output.write s.buffer with
    | (true, output) => .ok { s with output }
    | (false, output) => .error ⟨.outputFull, output⟩

def encodeTo (c : Codec) (record : Record) (output : Output) : Except EncodeFailure Encoded := do
  let s ← c.encode.foldlM (c.encodeStep record) ⟨.empty, 0, [], output⟩
  return ⟨s.buffer.length, s.reserved, s.output⟩

def encodeRecord (c : Codec) (record : Record) : Except CodecError (List UInt8) :=
  match c.encodeTo record (.start none) with
  | .ok encoded => .ok encoded.output.received
  | .error failure => .error failure.error

end Codec

end WireCodec
