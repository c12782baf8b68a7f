import WireCodec.Files.Access
import WireCodec.Schema.Entry

/-!
# Loading schemas

The schema of a file, in the format that the name of the file stands for.
-/

namespace WireCodec

inductive LoadError where
  | unreadable (path : String) (cause : FileError)
  | malformed (format : FileFormat)
  | unknownFormat (path : String)
  | fault (cause : EntryFault)
  deriving DecidableEq, Repr

namespace LoadError

/-- The error in words; what is wrong with the text of a file is not told. -/
def message : LoadError → String
  | unreadable path cause => s!"failed to read {path}: {cause.message}"
  | malformed format => s!"{format.name} parse error: "
  | unknownFormat path =>
    s!"unknown schema format for {path} (expected .toml, .yaml, .yml or .json)"
  | fault cause => cause.message

def messages : LoadError → List String
  | unreadable path cause => [(unreadable path cause).message, cause.message]
  | fault (.badType owner name type cause) =>
    [(EntryFault.badType owner name type cause).message, cause.message]
  | e => [e.message]

def isMalformed : LoadError → Bool
  | malformed _ => true
  | _ => false

end LoadError

namespace Schema

def parse (format : FileFormat) (text : String) : Except LoadError Schema :=
  match SchemaFile.read format text with
  | none => .error (.malformed format)
  | some file => file.toSchema.mapError .fault

def load {m : Type → Type} [Monad m] [FileAccess m] (path : String) :
    m (Except LoadError Schema) := do
  match FileFormat.ofPath? path with
  | none => return .error (.unknownFormat path)
  | some format =>
    match ← FileAccess.readText path with
    | .error cause => return .error (.unreadable path cause)
    | .ok text => return parse format text

end Schema

end WireCodec
