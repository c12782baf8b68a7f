import WireCodec.NameTable
import WireCodec.Scalar.Basic

/-!
# Values and records

A value is a scalar, an array or a sequence.  Records are made by callers, so a collection may hold
anything; encoding refuses what does not fit.
-/

namespace WireCodec

inductive Value where
  | scalar (value : Scalar)
  | array (elements : List Value)
  | sequence (elements : List Value)
  deriving Repr, Inhabited

abbrev Record := NameTable Value

namespace Value

def kind? : Value → Option ScalarKind
  | scalar value => some value.kind
  | _ => none

def bits? : Value → Option Nat
  | scalar value => some value.bits
  | _ => none

def count? : Value → Option UInt64
  | scalar value => value.count?
  | _ => none

def elements? : Value → Option (List Value)
  | scalar _ => none
  | array elements | sequence elements => some elements

/-- Gives a collection other elements; a scalar is left alone. -/
def withElements (v : Value) (elements : List Value) : Value :=
  match v with
  | scalar value => scalar value
  | array _ => array elements
  | sequence _ => sequence elements

def describe : Value → String
  | scalar value => value.kind.name
  | array elements => s!"array of {elements.length}"
  | sequence elements => s!"sequence of {elements.length}"

end Value

namespace Record

/-- What a length expression finds for a name. -/
def count? (r : NameTable Value) (name : String) : Option UInt64 :=
  (r.get? name).bind Value.count?

end Record

end WireCodec
