import WireCodec.CommandLine.Options
import WireCodec.Text.Split

/-!
# Commands

What the words of a command line ask for.
-/

namespace WireCodec.CommandLine

structure SchemaChoice where
  schema : String
  config : Option String
  /-- The structs that are wanted, instead of those in the settings. -/
  types : Option (List String)
  deriving DecidableEq, Repr

structure GenerateChoice where
  output : Option String
  readName : Option String
  writeName : Option String
  noStructs : Bool
  deriving DecidableEq, Repr

inductive Command where
  | generate (choice : SchemaChoice) (more : GenerateChoice)
  | check (choice : SchemaChoice)
  | plan (choice : SchemaChoice)
  | writeSettings (output : String)
  deriving DecidableEq, Repr

/-! ## The options of each command -/

def logLevelOption : OptionSpec := ⟨"log-level", none, true, false, true⟩

def schemaOptions : List OptionSpec :=
  [⟨"schema", some 's', true, false, false⟩, ⟨"config", some 'c', true, false, false⟩,
    ⟨"types", some 't', true, true, true⟩, logLevelOption]

def outputOption : OptionSpec := ⟨"output", some 'o', true, false, false⟩

def generateOptions : List OptionSpec :=
  schemaOptions ++ [outputOption, ⟨"read-fn-name", none, true, false, true⟩,
    ⟨"write-fn-name", none, true, false, true⟩, ⟨"no-structs", none, false, false, true⟩]

/-! ## From words to commands -/

def valueOf? (name : String) (given : List Given) : Option String := (valuesOf name given).head?

/-- The structs that are wanted; every value may hold several names between commas. -/
def typesOf (given : List Given) : Option (List String) :=
  match valuesOf "types" given with
  | [] => none
  | values => some (values.flatMap (Text.split ','))

def schemaChoice (given : List Given) : Option SchemaChoice := do
  return ⟨← valueOf? "schema" given, valueOf? "config" given, typesOf given⟩

def readFinal (specs : List OptionSpec) (words : List String) : Option (List Given) := do
  match ← readAccepted specs words with
  | (given, []) => some given
  | _ => none

def Command.parse (words : List String) : Option Command := do
  let (_, rest) ← readAccepted [logLevelOption] words
  match rest with
  | "generate" :: words =>
    let given ← readFinal generateOptions words
    return .generate (← schemaChoice given)
      ⟨valueOf? "output" given, valueOf? "read-fn-name" given, valueOf? "write-fn-name" given,
        (valueOf? "no-structs" given).isSome⟩
  | "check" :: words => return .check (← schemaChoice (← readFinal schemaOptions words))
  | "plan" :: words => return .plan (← schemaChoice (← readFinal schemaOptions words))
  | "gen-config" :: words =>
    let given ← readFinal [outputOption, logLevelOption] words
    return .writeSettings ((valueOf? "output" given).getD "structwire.toml")
  | _ => none

end WireCodec.CommandLine
