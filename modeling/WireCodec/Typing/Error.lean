import WireCodec.Length.Token
import WireCodec.Scalar.Kind
import WireCodec.Typing.TypeExpr

/-!
# Faults in a field's type

Every cause for which one field of a schema is refused.  The causes fall into two classes: types
that have no form on the wire, and declarations that contradict themselves or each other.
-/

namespace WireCodec

inductive TypeError where
  | unreadable (text : String)
  | arrayWithoutLength (text : String)
  | badArrayLength (text : String)
  | primitive (cause : Unrepresentable)
  | unknown (name : String)
  /-- The aliases lead from the name to one that is neither a kind nor an alias. -/
  | leadsNowhere (name last : String)
  /-- The aliases lead from the name to a primitive without a wire form. -/
  | leadsToPrimitive (name : String) (cause : Unrepresentable)
  | aliasCycle (name : String)
  | nested (elem : TypeExpr)
  | width (cause : ScalarKind.WidthError)
  | arrayTooLarge (length : Nat) (elem : String)
  | unwantedLength (type : TypeExpr)
  | missingLength (elem : String)
  | badLength (cause : Length.SourceError)
  | badFieldName
  | duplicateField
  | lengthNotPreceding (name : String)
  | lengthNotUnsigned (name type : String)
  deriving DecidableEq, Repr

namespace TypeError

/-- True when the type has no form on the wire, and false when the declaration is at fault. -/
def isUnsupported : TypeError → Bool
  | unreadable _ | primitive _ | unknown _ | leadsNowhere .. | leadsToPrimitive .. | aliasCycle _
  | nested _ | width (.float _) => true
  | _ => false

def reason : TypeError → String
  | unreadable text => s!"'{text}'"
  | arrayWithoutLength text => s!"array type '{text}' lacks a length"
  | badArrayLength text => s!"invalid array length in '{text}'"
  | primitive cause => cause.reason
  | unknown name => s!"unknown type '{name}'"
  | leadsNowhere name last => s!"'{name}' resolves to unknown type '{last}'"
  | leadsToPrimitive name cause => s!"underlying type of '{name}': {cause.reason}"
  | aliasCycle name => s!"alias cycle through '{name}'"
  | nested elem => s!"nested collection ({elem.text} as element)"
  | width (.integer bits) => s!"integer width of {bits} bits is not one of 8, 16, 32, 64"
  | width (.float bits) => s!"{bits}-bit float"
  | arrayTooLarge length elem => s!"array of {length} x {elem} does not fit in memory"
  | unwantedLength type => s!"length expression given for non-sequence type {type.text}"
  | missingLength elem =>
    s!"length of Vec<{elem}> cannot be determined; supply a length expression"
  | badLength cause => cause.message
  | badFieldName => "name is not a valid identifier"
  | duplicateField => "duplicate field name"
  | lengthNotPreceding name =>
    s!"length expression references '{name}', which is not a preceding field"
  | lengthNotUnsigned name type =>
    s!"length expression references '{name}' of type {type}; " ++
      "only unsigned integer fields can supply a length"

def message (e : TypeError) : String :=
  (if e.isUnsupported then "unsupported type: " else "schema error: ") ++ e.reason

end TypeError

end WireCodec
