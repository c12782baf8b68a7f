import WireCodec.Document.Toml.Write
import WireCodec.Settings.Basic

/-!
# Writing settings
-/

namespace WireCodec.Settings

def text (s : Settings) : String :=
  "# structwire-gen configuration\n# Generated by structwire-gen gen-config\n\n" ++
    "read_fn = " ++ Toml.textLiteral s.readName ++ "\n" ++
    "write_fn = " ++ Toml.textLiteral s.writeName ++ "\n" ++
    "emit_structs = " ++ Toml.truthLiteral s.emitStructs ++ "\n" ++
    "derives = " ++ Toml.listLiteral s.derives ++ "\n" ++
    "types = " ++ Toml.listLiteral s.types ++ "\n" ++
    "log_level = " ++ Toml.textLiteral s.logLevel ++ "\n"

end WireCodec.Settings
