/-!
# Paths

A path is text.  Its parts are the pieces between slashes, without the empty ones and the single
dots; a dot counts only as the first part of a relative path.  Changing the name of a file leaves
the text of the rest alone.
-/

namespace WireCodec.Path

/-- A part of a path, and the number of characters up to its end. -/
structure Part where
  name : String
  stop : Nat
  deriving DecidableEq, Repr

/-- The pieces of the rest of a path; `piece` is read already, in reverse, and ends at `here`. -/
def piecesFrom (piece : List Char) (here : Nat) : List Char → List Part
  | [] => [⟨.ofList piece.reverse, here⟩]
  | '/' :: rest => ⟨.ofList piece.reverse, here⟩ :: piecesFrom [] (here + 1) rest
  | c :: rest => piecesFrom (c :: piece) (here + 1) rest

def pieces (path : String) : List Part := piecesFrom [] 0 path.toList

def isAbsolute (path : String) : Bool := path.toList.head? == some '/'

def parts (path : String) : List Part :=
  let isPart (p : Part) : Bool := p.name ≠ "" && p.name ≠ "."
  match pieces path with
  | [] => []
  | first :: rest =>
    (if first.name = "." then [first] else [first].filter isPart) ++ rest.filter isPart

def fileName? (path : String) : Option String := do
  let last ← (parts path).getLast?
  if last.name = "." ∨ last.name = ".." then none else some last.name

def parent? (path : String) : Option String :=
  match (parts path).reverse with
  | [] => none
  | [_] => some (if isAbsolute path then "/" else "")
  | _ :: before :: _ => some (.ofList (path.toList.take before.stop))

/-- The name of a file up to its last dot, and what stands behind.  A dot in front is part of the
name. -/
def splitName (name : String) : String × Option String :=
  let reversed := name.toList.reverse
  let behind := reversed.takeWhile (· ≠ '.')
  match reversed.dropWhile (· ≠ '.') with
  | [] | [_] => (name, none)
  | _ :: before => (.ofList before.reverse, some (.ofList behind.reverse))

def extension? (path : String) : Option String := do
  (splitName (← fileName? path)).2

def stem? (path : String) : Option String := do
  return (splitName (← fileName? path)).1

def join (path name : String) : String :=
  match path.toList.getLast? with
  | none => name
  | some '/' => path ++ name
  | some _ => path ++ "/" ++ name

/-- The path with another name for the file; the name is put behind a path without one. -/
def withFileName (path name : String) : String :=
  match fileName? path, parent? path with
  | some _, some dir => join dir name
  | _, _ => join path name

end WireCodec.Path
