/-!
# Access to files

The few things that the generator does with files, in any monad that can do them.
-/

namespace WireCodec

inductive FileError where
  | notFound
  | alreadyExists
  | notDirectory
  | isDirectory
  | other (reason : String)
  deriving DecidableEq, Repr

/-- The error in words, with the number that the system has for it. -/
def FileError.message : FileError → String
  | notFound => "No such file or directory (os error 2)"
  | alreadyExists => "File exists (os error 17)"
  | notDirectory => "Not a directory (os error 20)"
  | isDirectory => "Is a directory (os error 21)"
  | other reason => reason

class FileAccess (m : Type → Type) where
  readText : String → m (Except FileError String)
  makeDirectories : String → m (Except FileError Unit)
  writeText : String → String → m (Except FileError Unit)

end WireCodec
