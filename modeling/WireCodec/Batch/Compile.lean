import WireCodec.Batch.Report
import WireCodec.Batch.Selection

/-!
# Compiling a schema

The wanted structs of a schema are compiled together: nothing is handed over before all of them have
been checked.  The codecs are then offered one by one to a taker, which may refuse.
-/

namespace WireCodec

namespace Schema

def names (schema : Schema) : List String := schema.structs.map StructDecl.name

def selected (schema : Schema) (selection : Selection) : List StructDecl :=
  schema.structs.filter (selection.accepts ·.name)

def compileStruct (schema : Schema) (decl : StructDecl) : Except SchemaError Codec := do
  return (← StructType.bind schema.aliases decl).compile

def compile (schema : Schema) (selection : Selection) : Except SchemaError (List Codec) := do
  -- Names that are not there are told before any fault of a struct.
  let missing := selection.missing schema.names
  unless missing.isEmpty do throw (.missing missing)
  let codecs ← (schema.selected selection).mapM schema.compileStruct
  if codecs.isEmpty then throw .nothingSelected
  return codecs

end Schema

/-- Offers codecs to a taker until it refuses; the state of the taker tells what it has accepted. -/
def offerAll {σ : Type} (take : σ → Codec → Except String σ) (state : σ) :
    List Codec → Except SchemaError Unit × σ
  | [] => (.ok (), state)
  | c :: rest =>
    match take state c with
    | .ok state => offerAll take state rest
    | .error reason => (.error (.refused reason), state)

def Schema.deliver {σ : Type} (schema : Schema) (selection : Selection)
    (take : σ → Codec → Except String σ) (state : σ) : Except SchemaError Report × σ :=
  match schema.compile selection with
  | .error error => (.error error, state)
  | .ok codecs =>
    let (result, state) := offerAll take state codecs
    (result.map fun () => codecs.map Codec.reportEntry, state)

end WireCodec
