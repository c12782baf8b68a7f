import WireCodec.CommandLine.Command
import WireCodec.Generator.Run
import WireCodec.Settings.Read
import WireCodec.Settings.Write

/-!
# Carrying out commands
-/

namespace WireCodec.CommandLine

variable {m : Type → Type} [Monad m] [FileAccess m]

inductive Outcome where
  | done (output : String)
  /-- It failed, with messages from what was being done to the last cause. -/
  | failed (messages : List String)
  | badUsage
  deriving DecidableEq, Repr

namespace Outcome

def code : Outcome → Nat
  | done _ => 0
  | failed _ => 1
  | badUsage => 2

def output : Outcome → String
  | done output => output
  | _ => ""

def errorOutput : Outcome → String
  | failed messages => s!"[ERROR] {messageChain messages}\n"
  | _ => ""

end Outcome

/-! ## Settings -/

def withTypes (settings : Settings) (types : Option (List String)) :
    Except (List String) Settings :=
  match types with
  | none => .ok settings
  | some types =>
    -- No name at all stands for every struct, also where the settings name some.
    let settings := { settings with types := Selection.tidy types }
    match settings.validate with
    | .ok () => .ok settings
    | .error cause => .error ["Invalid --types", cause.message]

def baseSettings : Option String → m (Except (List String) Settings)
  | none => return .ok .standard
  | some path => do
    return (← Settings.load path).mapError fun error =>
      s!"Failed to load config {path}" :: error.messages

def loadSettings (choice : SchemaChoice) : m (Except (List String) Settings) := do
  return (← baseSettings choice.config) >>= (withTypes · choice.types)

def withChoices (settings : Settings) (more : GenerateChoice) : Except (List String) Settings :=
  let settings := { settings with
    readName := more.readName.getD settings.readName
    writeName := more.writeName.getD settings.writeName
    emitStructs := settings.emitStructs && !more.noStructs }
  match settings.validate with
  | .ok () => .ok settings
  | .error cause => .error ["Invalid generator options", cause.message]

/-! ## Printed texts -/

def rule : String := String.ofList (List.replicate 60 '=') ++ "\n"

def summary (title : String) (report : Report) : String :=
  s!"\n{rule}  {title}\n{rule}\n{Report.text report}\n\n"

/-! ## Commands -/

def Command.run : Command → m Outcome
  | .generate choice more => do
    match (← loadSettings choice) >>= (withChoices · more) with
    | .error messages => return .failed messages
    | .ok settings =>
      match ← Generator.generate settings choice.schema more.output with
      | .error error => return .failed error.messages
      | .ok (report, output) =>
        return .done (summary "structwire-gen: Generation Report" report ++
          s!"  Output: {output}\n\n{rule}")
  | .check choice => do
    match ← loadSettings choice with
    | .error messages => return .failed messages
    | .ok settings =>
      match ← Generator.check settings choice.schema with
      | .error error => return .failed error.messages
      | .ok report => return .done (summary "structwire-gen: Schema Check" report ++ rule)
  | .plan choice => do
    match ← loadSettings choice with
    | .error messages => return .failed messages
    | .ok settings =>
      match ← Generator.plan settings choice.schema with
      | .error error => return .failed error.messages
      | .ok codecs => return .done (String.join (codecs.map (·.describe ++ "\n")))
  | .writeSettings output => do
    match ← FileAccess.writeText output { Settings.standard with types := ["all"] }.text with
    | .error cause => return .failed [s!"Failed to write {output}", cause.message]
    | .ok () => return .done s!"Generated configuration file: {output}\n"

def run (words : List String) : m Outcome :=
  match Command.parse words with
  | none => return .badUsage
  | some command => command.run

end WireCodec.CommandLine
