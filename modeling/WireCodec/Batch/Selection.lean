import WireCodec.NameSet
import WireCodec.Text.Blank
import WireCodec.Text.Split

/-!
# Selections

Which structs of a schema are compiled: all of them, or those of certain names.  A list of names
that is empty, or in which the word `all` occurs, stands for all of them.
-/

namespace WireCodec

inductive Selection where
  | all
  | only (names : NameSet)
  deriving DecidableEq, Repr

namespace Selection

def ofNames (names : List String) : Selection :=
  if names.isEmpty || names.contains "all" then .all else .only (.ofList names)

/-- Names without the blanks around them; empty ones are left out. -/
def tidy (names : List String) : List String :=
  (names.map Text.trimmed).filter (· ≠ "")

def ofText (list : String) : Selection :=
  let names := NameSet.ofList (((Text.split ',' list).map Text.trimmed).filter (· ≠ ""))
  if names.isEmpty || names.contains "all" then .all else .only names

def accepts : Selection → String → Bool
  | all, _ => true
  | only names, name => names.contains name

/-- The names that are wanted and not there, in ascending order. -/
def missing (s : Selection) (available : List String) : List String :=
  match s with
  | all => []
  | only names => names.toList.filter (!available.contains ·)

end Selection

end WireCodec
