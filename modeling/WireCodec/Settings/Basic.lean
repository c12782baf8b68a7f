import WireCodec.Batch.Selection
import WireCodec.Source.Codec
import WireCodec.Text.Word

/-!
# Settings

What a user may choose about the generated code, and the check that the choice makes sense.
-/

namespace WireCodec

structure Settings where
  readName : String
  writeName : String
  emitStructs : Bool
  derives : List String
  types : List String
  logLevel : String
  deriving DecidableEq, Repr

inductive SettingsFault where
  | badReadName (name : String)
  | badWriteName (name : String)
  | sameNames (name : String)
  | badDerive (path : String)
  | badTypeName (name : String)
  deriving DecidableEq, Repr

def SettingsFault.message : SettingsFault → String
  | badReadName name => s!"Invalid configuration: read_fn '{name}' is not a valid function name"
  | badWriteName name => s!"Invalid configuration: write_fn '{name}' is not a valid function name"
  | sameNames name => s!"Invalid configuration: read_fn and write_fn are both '{name}'"
  | badDerive path => s!"Invalid configuration: invalid derive '{path}'"
  | badTypeName name => s!"Invalid configuration: invalid type name '{name}'"

/-- Words with two colons between them, for the rest of a path; `word` is read already, in reverse.
-/
def isWordPathFrom (word : List Char) : List Char → Bool
  | [] => Text.isWord word.reverse
  | ':' :: ':' :: rest => Text.isWord word.reverse && isWordPathFrom [] rest
  | c :: rest => isWordPathFrom (c :: word) rest

/-- Words with two colons between them, and perhaps in front. -/
def isWordPath (s : String) : Bool :=
  match s.toList with
  | ':' :: ':' :: rest => isWordPathFrom [] rest
  | chars => isWordPathFrom [] chars

namespace Settings

def standard : Settings where
  readName := Source.Style.standard.readName
  writeName := Source.Style.standard.writeName
  emitStructs := true
  derives := Source.Style.standard.derives
  types := []
  logLevel := "info"

/-- Checks that names can be used as such and differ where they must. -/
def validate (s : Settings) : Except SettingsFault Unit := do
  unless Text.isName s.readName do throw (.badReadName s.readName)
  unless Text.isName s.writeName do throw (.badWriteName s.writeName)
  if s.readName = s.writeName then throw (.sameNames s.readName)
  if let some path := s.derives.find? (!isWordPath ·) then throw (.badDerive path)
  if let some name := s.types.find? (!Text.isName ·) then throw (.badTypeName name)

def selection (s : Settings) : Selection := .ofNames s.types

def style (s : Settings) : Source.Style := ⟨s.readName, s.writeName, s.derives⟩

end Settings

end WireCodec
