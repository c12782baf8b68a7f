import WireCodec.Document.Toml.Read
import WireCodec.Files.Access
import WireCodec.Settings.Basic

/-!
# Reading settings

Settings are kept in a TOML file.  Keys that are not there leave the standard as it is.
-/

namespace WireCodec

inductive SettingsError where
  | unreadable (cause : FileError)
  | malformed
  | fault (cause : SettingsFault)
  deriving DecidableEq, Repr

namespace SettingsError

/-- The error in words; what is wrong with the text of a file is not told. -/
def message : SettingsError → String
  | unreadable cause => s!"I/O error: {cause.message}"
  | malformed => "TOML parse error: "
  | fault cause => cause.message

def messages : SettingsError → List String
  | unreadable cause => [(unreadable cause).message, cause.message]
  | e => [e.message]

end SettingsError

namespace Settings

def orStandard {α : Type} (standard : α) (read : Document → Option α) :
    Option Document → Option α
  | none => some standard
  | some d => read d

def ofDocument? (d : Document) : Option Settings := do
  let keys := ["read_fn", "write_fn", "emit_structs", "derives", "types", "log_level"]
  match ← d.members? .refused keys with
  | [readName, writeName, emitStructs, derives, types, logLevel] =>
    return {
      readName := ← orStandard standard.readName Document.text? readName
      writeName := ← orStandard standard.writeName Document.text? writeName
      emitStructs := ← orStandard standard.emitStructs Document.truth? emitStructs
      derives := ← orStandard standard.derives Document.texts? derives
      types := ← orStandard standard.types Document.texts? types
      logLevel := ← orStandard standard.logLevel Document.text? logLevel }
  | _ => none

def parse (text : String) : Except SettingsError Settings :=
  match Toml.read text >>= ofDocument? with
  | none => .error .malformed
  | some s =>
    match s.validate with
    | .ok () => .ok s
    | .error cause => .error (.fault cause)

def load {m : Type → Type} [Monad m] [FileAccess m] (path : String) :
    m (Except SettingsError Settings) := do
  match ← FileAccess.readText path with
  | .error cause => return .error (.unreadable cause)
  | .ok text => return parse text

end Settings

end WireCodec
