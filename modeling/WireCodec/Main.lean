import WireCodec.CommandLine.Run

/-!
# The program

The command line, with the files of the system.
-/

namespace WireCodec

def FileError.ofSystem : IO.Error → FileError
  | .noFileOrDirectory .. | .noSuchThing .. => .notFound
  | .alreadyExists .. => .alreadyExists
  | e => .other (toString e)

/-- Does something with files and keeps what goes wrong as a value. -/
def withFiles {α : Type} (action : IO α) : IO (Except FileError α) := do
  match ← action.toBaseIO with
  | .ok a => return .ok a
  | .error e => return .error (.ofSystem e)

instance : FileAccess IO where
  readText path := withFiles (IO.FS.readFile path)
  makeDirectories path := withFiles (IO.FS.createDirAll path)
  writeText path text := withFiles (IO.FS.writeFile path text)

def usage : String :=
  "usage: structwire-gen [--log-level LEVEL] generate|check|plan --schema FILE [OPTIONS]\n" ++
    "       structwire-gen [--log-level LEVEL] gen-config [--output FILE]"

end WireCodec

open WireCodec in
def main (words : List String) : IO UInt32 := do
  let outcome ← CommandLine.run words
  IO.print outcome.output
  IO.eprint outcome.errorOutput
  if outcome.code = 2 then IO.eprintln usage
  return UInt32.ofNat outcome.code
