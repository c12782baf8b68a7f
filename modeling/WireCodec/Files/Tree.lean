import WireCodec.Files.Access
import WireCodec.Files.Path

/-!
# A tree of files

A value that holds files and directories, in which paths are followed as an operating system follows
them: a part must be a directory before the next one is looked up in it.
-/

namespace WireCodec

/-- Where something lies, as the names on the way from the directory at hand.  The directories above
it are numbered by `..`, and the root is named by a slash. -/
abbrev Location := List String

inductive FileEntry where
  | file (text : String)
  | directory
  deriving DecidableEq, Repr

structure FileTree where
  entries : List (Location × FileEntry)
  deriving DecidableEq, Repr

namespace FileTree

def empty : FileTree := ⟨[]⟩

/-- True of the directories that are there without having been made. -/
def isGiven (place : Location) : Bool := place == ["/"] || place.all (· == "..")

def get? (tree : FileTree) (place : Location) : Option FileEntry :=
  if isGiven place then some .directory else tree.entries.lookup place

def put (tree : FileTree) (place : Location) (entry : FileEntry) : FileTree :=
  ⟨tree.entries.filter (·.1 ≠ place) ++ [(place, entry)]⟩

def above (place : Location) : Location :=
  if place == ["/"] then place
  else if place.all (· == "..") then ".." :: place
  else place.dropLast

/-- The location that the next piece of a path leads to, from a directory. -/
def follow (tree : FileTree) (place : Location) (piece : String) : Except FileError Location :=
  match tree.get? place with
  | none => .error .notFound
  | some (.file _) => .error .notDirectory
  | some .directory =>
    if piece = "" ∨ piece = "." then .ok place
    else if piece = ".." then .ok (above place)
    else .ok (place ++ [piece])

def resolve (tree : FileTree) (path : String) : Except FileError Location :=
  if path = "" then .error .notFound
  else
    ((Path.pieces path).map Path.Part.name).foldlM tree.follow
      (if Path.isAbsolute path then ["/"] else [])

def readText (tree : FileTree) (path : String) : Except FileError String := do
  match tree.get? (← tree.resolve path) with
  | none => throw .notFound
  | some .directory => throw .isDirectory
  | some (.file text) => return text

/-- The path without the slashes at its end, except one that is the root. -/
def withoutSlashes (path : String) : String :=
  match path.toList.reverse.dropWhile (· == '/') with
  | [] => if path = "" then "" else "/"
  | kept => .ofList kept.reverse

/-- Gives the file at a path a text.  A path that ends in a slash leads to no file. -/
def writeText (tree : FileTree) (path text : String) : Except FileError FileTree := do
  let place ← tree.resolve (withoutSlashes path)
  -- The way to the file is followed first, so a missing directory is told before the slash.
  if withoutSlashes path ≠ path then throw .isDirectory
  match tree.get? place with
  | some .directory => throw .isDirectory
  | _ => return tree.put place (.file text)

def makeDirectory (tree : FileTree) (path : String) : Except FileError FileTree := do
  let place ← tree.resolve (withoutSlashes path)
  match tree.get? place with
  | some _ => throw .alreadyExists
  | none => return tree.put place .directory

def isDirectory (tree : FileTree) (path : String) : Bool :=
  match tree.resolve path with
  | .ok place => tree.get? place == some .directory
  | .error _ => false

/-- Makes the directories at some paths, from the last to the first, each inside the next.  The ones
that are there already are left alone. -/
def makeChain (tree : FileTree) : List String → Except FileError Unit × FileTree
  | [] => (.ok (), tree)
  | path :: outer =>
    match tree.makeDirectory path with
    | .ok tree => (.ok (), tree)
    -- Only the lack of the directory outside can be helped.
    | .error .notFound =>
      match makeChain tree outer with
      | (.error error, tree) => (.error error, tree)
      | (.ok (), tree) =>
        match tree.makeDirectory path with
        | .ok tree => (.ok (), tree)
        | .error error => (if tree.isDirectory path then .ok () else .error error, tree)
    | .error error => (if tree.isDirectory path then .ok () else .error error, tree)

def chain (path : String) : Nat → List String
  | 0 => []
  | n + 1 =>
    if path = "" then []
    else
      match Path.parent? path with
      | none => []
      | some dir => path :: chain dir n

def makeDirectories (tree : FileTree) (path : String) : Except FileError Unit × FileTree :=
  tree.makeChain (chain path (path.length + 1))

def addFile (tree : FileTree) (path text : String) : FileTree :=
  let (_, tree) := tree.makeDirectories ((Path.parent? path).getD "")
  match tree.writeText path text with
  | .ok tree => tree
  | .error _ => tree

/-- The files that lie in the directory at hand or below it, by path. -/
def files (tree : FileTree) : List (String × String) :=
  tree.entries.filterMap fun
    | (place, .file text) =>
      if [some "..", some "/"].contains place.head? then none
      else some (String.intercalate "/" place, text)
    | _ => none

/-- The files of which the text is not the one in an earlier tree. -/
def changedSince (tree before : FileTree) : List (String × String) :=
  tree.files.filter fun (path, text) => before.files.lookup path ≠ some text

end FileTree

instance : FileAccess (StateM FileTree) where
  readText path := do return (← get).readText path
  makeDirectories path := modifyGet (·.makeDirectories path)
  writeText path text := modifyGet fun tree =>
    match tree.writeText path text with
    | .ok tree => (.ok (), tree)
    | .error error => (.error error, tree)

end WireCodec
