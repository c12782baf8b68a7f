import WireCodec.Document.Json
import WireCodec.Document.Toml.Read
import WireCodec.Document.Yaml.Read
import WireCodec.Files.Path

/-!
# Formats of schema files
-/

namespace WireCodec

inductive FileFormat where
  | toml
  | yaml
  | json
  deriving DecidableEq, Repr

namespace FileFormat

def name : FileFormat → String
  | toml => "TOML"
  | yaml => "YAML"
  | json => "JSON"

/-- The format that the end of a file's name stands for, in letters of either case. -/
def ofPath? (path : String) : Option FileFormat := do
  match (← Path.extension? path).map Char.toLower with
  | "toml" => some .toml
  | "yaml" | "yml" => some .yaml
  | "json" => some .json
  | _ => none

def read : FileFormat → String → Option Document
  | toml => Toml.read
  | yaml => Yaml.read
  | json => Json.read

def positionalForm : FileFormat → PositionalForm
  | toml => .loose
  | yaml => .refused
  | json => .exact

end FileFormat

end WireCodec
