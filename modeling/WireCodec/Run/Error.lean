import WireCodec.Length.Expr

/-!
# Faults while a codec runs
-/

namespace WireCodec

inductive LengthFault where
  | evaluation (cause : EvalError)
  | bytesOverflow
  | notCounted
  | scratchUnderrun
  deriving DecidableEq, Repr

inductive CodecError where
  | endOfInput
  | outputFull
  | missingField (name : String)
  | wrongKind (field expected found : String)
  | wrongCount (field : String) (expected found : Nat)
  | length (field : String) (fault : LengthFault)
  deriving DecidableEq, Repr

namespace LengthFault

def message : LengthFault → String
  | evaluation cause => cause.message
  | bytesOverflow => "byte length overflows usize"
  | notCounted => "not evaluated"
  | scratchUnderrun => "scratch buffer underrun"

end LengthFault

namespace CodecError

def message : CodecError → String
  | endOfInput => "I/O error: failed to fill whole buffer"
  | outputFull => "I/O error: failed to write whole buffer"
  | missingField name => s!"record has no field '{name}'"
  | wrongKind field expected found => s!"field '{field}': expected {expected}, found {found}"
  | wrongCount field expected found =>
    s!"field '{field}' holds {found} elements, {expected} required"
  | length field fault => s!"length of '{field}': {fault.message}"

/-- True when more input could have helped. -/
def isEndOfInput : CodecError → Bool
  | endOfInput => true
  | _ => false

end CodecError

end WireCodec
