import WireCodec.Batch.Compile
import WireCodec.Generator.Error
import WireCodec.Settings.Basic
import WireCodec.Source.File

/-!
# The generator

From a schema file to a file of code.  Nothing is written before everything that is wanted has been
compiled.
-/

namespace WireCodec.Generator

variable {m : Type → Type} [Monad m] [FileAccess m]

/-- Where the code of a schema goes if nothing else is said: next to it, under its name. -/
def defaultOutput (schema : String) : String :=
  Path.withFileName schema ((Path.stem? schema).getD "schema" ++ ".wire.rs")

def load (path : String) : m (Except GeneratorError Schema) := do
  return (← Schema.load path).mapError (.load path)

def plan (settings : Settings) (path : String) : m (Except GeneratorError (List Codec)) := do
  match ← load path with
  | .error error => return .error error
  | .ok schema => return (schema.compile settings.selection).mapError (.compile path)

def check (settings : Settings) (path : String) : m (Except GeneratorError Report) := do
  return (← plan settings path).map (·.map Codec.reportEntry)

def sourceOf (settings : Settings) (path : String) (schema : Schema) :
    Except GeneratorError (Report × String) :=
  let start := Source.File.start settings.style settings.emitStructs
  match schema.deliver settings.selection (fun file c => .ok (file.add c)) start with
  | (.ok report, file) => .ok (report, file.text ((Path.fileName? path).getD path))
  | (.error error, _) => .error (.compile path error)

def writeFile (path text : String) : m (Except GeneratorError Unit) := do
  -- A path of one part lies in the directory at hand, which is there.
  let dir := (Path.parent? path).getD ""
  let made ← if dir = "" then pure (.ok ()) else FileAccess.makeDirectories dir
  match made with
  | .error cause => return .error (.makeDirectory dir cause)
  | .ok () => return (← FileAccess.writeText path text).mapError (.write path)

/-- Generates the code of a schema file; the answer holds the report and where the code went. -/
def generate (settings : Settings) (path : String) (output : Option String) :
    m (Except GeneratorError (Report × String)) := do
  match ← load path with
  | .error error => return .error error
  | .ok schema =>
    let output := output.getD (defaultOutput path)
    match sourceOf settings path schema with
    | .error error => return .error error
    | .ok (report, text) =>
      return (← writeFile output text).map fun () => (report, output)

end WireCodec.Generator
