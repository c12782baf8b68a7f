/-!
# Indented lines

Source text is made as a list of marks: lines, blank lines and changes of depth.  `layout` writes
each line behind four spaces for every level of depth.  `block` puts lines one level deeper between
an opening and a closing line, and `depthAfter_block` says that it returns to its depth.
-/

namespace WireCodec.Source

inductive Mark where
  | line (text : String)
  | blank
  | deeper
  | shallower
  deriving DecidableEq, Repr

def indentation (depth : Nat) : String :=
  String.ofList (List.replicate (4 * depth) ' ')

/-- The depth behind a mark; there is no level above the outermost. -/
def Mark.depthAfter (depth : Nat) : Mark → Nat
  | line _ | blank => depth
  | deeper => depth + 1
  | shallower => depth - 1

def Mark.text (depth : Nat) : Mark → String
  | line text => indentation depth ++ text ++ "\n"
  | blank => "\n"
  | deeper | shallower => ""

def depthAfter (depth : Nat) (marks : List Mark) : Nat :=
  marks.foldl Mark.depthAfter depth

def layoutFrom : Nat → List Mark → String
  | _, [] => ""
  | depth, mark :: rest => mark.text depth ++ layoutFrom (mark.depthAfter depth) rest

def layout (marks : List Mark) : String :=
  layoutFrom 0 marks

/-- Lines one level deeper between an opening and a closing line. -/
def block (opening : String) (body : List Mark) (closing : String) : List Mark :=
  [.line opening, .deeper] ++ body ++ [.shallower, .line closing]

@[simp] theorem depthAfter_append (depth : Nat) (a b : List Mark) :
    depthAfter depth (a ++ b) = depthAfter (depthAfter depth a) b :=
  List.foldl_append

theorem layoutFrom_append (depth : Nat) (a b : List Mark) :
    layoutFrom depth (a ++ b) = layoutFrom depth a ++ layoutFrom (depthAfter depth a) b := by
  induction a generalizing depth with
  | nil => simp [layoutFrom, depthAfter]
  | cons mark rest ih =>
    simp only [List.cons_append, layoutFrom, ih, String.append_assoc]
    rfl

/-- A block ends at the depth at which it starts, if its body does. -/
theorem depthAfter_block {depth : Nat} {body : List Mark} (opening closing : String)
    (h : depthAfter (depth + 1) body = depth + 1) :
    depthAfter depth (block opening body closing) = depth := by
  simp only [block, depthAfter_append]
  show depthAfter (depthAfter (depth + 1) body) [.shallower, .line closing] = depth
  rw [h]
  rfl

end WireCodec.Source
