import WireCodec.Schema.StructType

/-!
# Size groups

Fields in a row whose sizes are known are read together.  A sequence is read alone, since its size
is known only when the fields in front of it are.  `Group.ofFields` cuts the fields of a struct into
such groups.
-/

namespace WireCodec

inductive Extent where
  | fixed (bytes : Nat)
  | variable
  deriving DecidableEq, Repr

structure Group where
  start : Nat
  length : Nat
  extent : Extent
  deriving DecidableEq, Repr

namespace Group

def isFixed (g : Group) : Bool :=
  match g.extent with
  | .fixed _ => true
  | .variable => false

def bytes? (g : Group) : Option Nat :=
  match g.extent with
  | .fixed bytes => some bytes
  | .variable => none

def contains (g : Group) (index : Nat) : Bool :=
  g.start ≤ index && index < g.start + g.length

/-- The members of the group in a list with one item per field. -/
def slice {α : Type} (g : Group) (items : List α) : List α :=
  (items.drop g.start).take g.length

def closeRun (start index bytes : Nat) : List Group :=
  if start < index then [⟨start, index - start, .fixed bytes⟩] else []

/-- The groups of the fields from an index on, behind a run of fixed fields that is still open.
Sizes are added without a limit.  Sums that are kept in words and stop at the largest one are the
same below `wordLimit`, and from there on they are smaller. -/
def ofFieldsFrom (start index bytes : Nat) : List Field → List Group
  | [] => closeRun start index bytes
  | field :: rest =>
    match field.type.size? with
    | some size => ofFieldsFrom start (index + 1) (bytes + size) rest
    | none =>
      closeRun start index bytes ++
        ⟨index, 1, .variable⟩ :: ofFieldsFrom (index + 1) (index + 1) 0 rest

def ofFields (fields : List Field) : List Group :=
  ofFieldsFrom 0 0 0 fields

/-- The bytes that all fixed groups take together.  There is no largest sum: the number is the one
that words can hold as long as it is below `wordLimit`. -/
def fixedSize (groups : List Group) : Nat :=
  (groups.filterMap bytes?).foldl (· + ·) 0

def largestFixed (groups : List Group) : Nat :=
  (groups.filterMap bytes?).foldl max 0

def find? (groups : List Group) (index : Nat) : Option Group :=
  List.find? (·.contains index) groups

end Group

end WireCodec
