import WireCodec.Procedure.Codec
import WireCodec.Record.Value
import WireCodec.Run.Error
import WireCodec.Run.Scratch

/-!
# Running a decoding

The state of a decoding is made explicit, so that what is held and read at every point can be spoken
about: the bytes still to come, the sizes asked for so far, the scratch buffer, the counts and the
values.  A failure carries the sizes that were asked for, the one that failed included.
-/

namespace WireCodec

structure DecodeState where
  input : List UInt8
  /-- The size of every read so far, in order. -/
  reads : List Nat
  scratch : Scratch
  counts : NameTable Nat
  values : Record

structure DecodeFailure where
  error : CodecError
  reads : List Nat
  deriving DecidableEq, Repr

/-- A decoded record, the bytes behind it, and the size of every read. -/
structure Decoded where
  record : Record
  rest : List UInt8
  reads : List Nat

namespace DecodeState

def start (input : List UInt8) : DecodeState :=
  ⟨input, [], .zeros 0, .empty, .empty⟩

def fail {α : Type} (s : DecodeState) (error : CodecError) : Except DecodeFailure α :=
  .error ⟨error, s.reads⟩

/-- Takes the next bytes of the input and puts them into the scratch buffer at an offset. -/
def readInto (s : DecodeState) (offset count : Nat) : Except DecodeFailure DecodeState :=
  let reads := s.reads ++ [count]
  if count ≤ s.input.length then
    .ok { s with
      input := s.input.drop count
      reads
      scratch := (s.scratch.growTo (offset + count)).fill offset (s.input.take count) }
  else .error ⟨.endOfInput, reads⟩

/-- Reads until the scratch buffer holds so many bytes, a chunk at a time, behind those that are
there already. -/
def readChunks (s : DecodeState) (filled total : Nat) : Except DecodeFailure DecodeState :=
  if filled < total then
    -- Room is made for the bytes that arrive, not for those that a count promises.
    let stop := min total (filled + chunkSize)
    match s.readInto filled (stop - filled) with
    | .ok s => s.readChunks stop total
    | .error failure => .error failure
  else .ok s
termination_by total - filled
decreasing_by
  simp only [chunkSize]
  omega

def countOf (s : DecodeState) (field : String) : Except DecodeFailure Nat :=
  match s.counts.get? field with
  | some count => .ok count
  | none => s.fail (.length field .notCounted)

def setValue (s : DecodeState) (field : String) (value : Value) : DecodeState :=
  { s with values := s.values.set field value }

def loadScalar (s : DecodeState) (field : String) (kind : ScalarKind) (offset : Nat) :
    Except DecodeFailure Value :=
  match s.scratch.load kind offset with
  | some value => .ok (.scalar value)
  | none => s.fail (.length field .scratchUnderrun)

/-- Carries out one step.  There is always memory for a scratch buffer, whatever its size, and for
the zeros of an array or a sequence. -/
def step (s : DecodeState) : DecodeStep → Except DecodeFailure DecodeState
  | .scratch bytes => .ok { s with scratch := .zeros bytes }
  | .count field length =>
    match length.eval (Record.count? s.values) with
    | .ok count => .ok { s with counts := s.counts.set field count.toNat }
    | .error cause => s.fail (.length field (.evaluation cause))
  | .read (.fixed bytes) => s.readInto 0 bytes
  | .read (.counted field unit) => do
    let count ← s.countOf field
    if count * unit < wordLimit then s.readChunks 0 (count * unit)
    else s.fail (.length field .bytesOverflow)
  | .newArray field length elem =>
    .ok (s.setValue field (.array (List.replicate length (.scalar (.zero elem.kind)))))
  | .newSequence field elem => do
    let count ← s.countOf field
    return s.setValue field (.sequence (List.replicate count (.scalar (.zero elem.kind))))
  | .load (.field field) type offset => do
    return s.setValue field (← s.loadScalar field type.kind offset)
  | .load (.elements field) type offset =>
    match s.values.get? field with
    | none => s.fail (.missingField field)
    | some value =>
      match value.elements? with
      | none => s.fail (.missingField field)
      | some elements => do
        let loaded ← (List.range elements.length).mapM fun i =>
          s.loadScalar field type.kind (offset + i * type.size)
        return s.setValue field (value.withElements loaded)

def steps (s : DecodeState) (list : List DecodeStep) : Except DecodeFailure DecodeState :=
  list.foldlM step s

def result (s : DecodeState) (field : Field) : Except DecodeFailure (String × Value) :=
  match s.values.get? field.name with
  | some value => .ok (field.name, value)
  | none => s.fail (.missingField field.name)

end DecodeState

namespace Codec

def run (c : Codec) (input : List UInt8) : Except DecodeFailure Decoded := do
  let s ← (DecodeState.start input).steps c.decode
  let fields ← c.fields.mapM s.result
  return ⟨.ofList fields, s.input, s.reads⟩

end Codec

end WireCodec
