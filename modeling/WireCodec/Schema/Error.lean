import WireCodec.Text.Quoted
import WireCodec.Typing.Error

/-!
# Faults in a schema
-/

namespace WireCodec

inductive SchemaError where
  | field (owner name : String) (cause : TypeError)
  | badStructName (name : String)
  | missing (names : List String)
  | nothingSelected
  | refused (reason : String)
  deriving DecidableEq, Repr

namespace SchemaError

def message : SchemaError → String
  | field owner name cause => s!"field '{owner}.{name}': {cause.message}"
  | badStructName name => s!"struct '{name}': name is not a valid identifier"
  | missing names => s!"types {Text.quotedList names} were requested but not found"
  | nothingSelected => "no structs selected"
  | refused reason => s!"output sink: {reason}"

def messages : SchemaError → List String
  | field owner name cause => [(field owner name cause).message, cause.message]
  | refused reason => [(refused reason).message, reason]
  | e => [e.message]

def isUnsupportedType : SchemaError → Bool
  | field _ _ cause => cause.isUnsupported
  | _ => false

def isMalformed : SchemaError → Bool
  | field _ _ cause => !cause.isUnsupported
  | badStructName _ => true
  | _ => false

end SchemaError

end WireCodec
