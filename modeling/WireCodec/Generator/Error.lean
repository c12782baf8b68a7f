import WireCodec.Schema.Error
import WireCodec.Schema.Load

/-!
# Faults of the generator
-/

namespace WireCodec

inductive GeneratorError where
  | load (path : String) (cause : LoadError)
  | compile (path : String) (cause : SchemaError)
  | makeDirectory (path : String) (cause : FileError)
  | write (path : String) (cause : FileError)
  deriving DecidableEq, Repr

namespace GeneratorError

def context : GeneratorError → String
  | load path _ => s!"Failed to load schema {path}"
  | compile path _ => s!"Failed to compile {path}"
  | makeDirectory path _ => s!"Failed to create {path}"
  | write path _ => s!"Failed to write {path}"

def messages (e : GeneratorError) : List String :=
  e.context ::
    match e with
    | load _ cause => cause.messages
    | compile _ cause => cause.messages
    | makeDirectory _ cause | write _ cause => [cause.message]

end GeneratorError

def messageChain (messages : List String) : String := String.intercalate ": " messages

end WireCodec
