import WireCodec.Source.Lines
import WireCodec.Text.Split

/-!
# The lines of generated text

Text whose lines have no line end of their own is cut into just these lines again.  `Laid` says that
every line of a list of marks is good in some sense and that whatever goes deeper comes back: then a
block ends at its own depth, and everything inside it is indented.
-/

namespace WireCodec

/-- Text without a line end. -/
def Plain (s : String) : Prop := '\n' ∉ s.toList

instance (s : String) : Decidable (Plain s) := inferInstanceAs (Decidable (¬_))

@[simp] theorem plain_append {a b : String} : Plain (a ++ b) ↔ Plain a ∧ Plain b := by
  simp [Plain]

def unlines (lines : List String) : String := String.join (lines.map (· ++ "\n"))

@[simp] theorem unlines_nil : unlines [] = "" := rfl

@[simp] theorem unlines_cons (line : String) (rest : List String) :
    unlines (line :: rest) = line ++ "\n" ++ unlines rest := by
  rw [unlines, List.map_cons, String.join_cons, unlines]

@[simp] theorem unlines_append (a b : List String) : unlines (a ++ b) = unlines a ++ unlines b := by
  rw [unlines, List.map_append, String.join_append, unlines, unlines]

namespace Text

/-- A line end parts the lines before it from those behind it. -/
theorem split_append (a b : String) : split '\n' (a ++ "\n" ++ b) = split '\n' a ++ split '\n' b := by
  have hchars : (a ++ "\n" ++ b).toList = a.toList ++ '\n' :: b.toList := by simp
  rw [split, hchars, List.splitOn_append_cons_self, List.map_append, split, split]

theorem split_plain {l : String} (h : Plain l) : split '\n' l = [l] := by
  rw [split, List.splitOn_eq_singleton h, List.map_singleton, String.ofList_toList]

/-- Plain lines are found again, whatever comes after them. -/
theorem split_unlines {lines : List String} (h : ∀ l ∈ lines, Plain l) (rest : String) :
    split '\n' (unlines lines ++ rest) = lines ++ split '\n' rest := by
  induction lines with
  | nil => rw [unlines_nil, String.empty_append, List.nil_append]
  | cons l lines ih =>
    have hrest := ih fun m hm => h m (List.mem_cons_of_mem l hm)
    rw [unlines_cons, String.append_assoc, split_append, split_plain (h l (List.mem_cons_self ..)),
      hrest, List.singleton_append, List.cons_append]

end Text

/-- Lines that are written alike are the same lines. -/
theorem unlines_injective {a b : List String} (ha : ∀ l ∈ a, Plain l) (hb : ∀ l ∈ b, Plain l)
    (h : unlines a = unlines b) : a = b := by
  have hsplit := congrArg (fun s => Text.split '\n' (s ++ "")) h
  simp only [Text.split_unlines ha, Text.split_unlines hb] at hsplit
  exact List.append_cancel_right hsplit

namespace Source

/-! ## Marks -/

/-- The line that a mark makes at a depth, if it makes one. -/
def Mark.lines (depth : Nat) : Mark → List String
  | line text => [indentation depth ++ text]
  | blank => [""]
  | deeper | shallower => []

/-- The lines of marks that start at a depth. -/
def linesFrom : Nat → List Mark → List String
  | _, [] => []
  | depth, mark :: rest => mark.lines depth ++ linesFrom (mark.depthAfter depth) rest

/-- Marks are written as lines. -/
theorem layoutFrom_eq (depth : Nat) (marks : List Mark) :
    layoutFrom depth marks = unlines (linesFrom depth marks) := by
  induction marks generalizing depth with
  | nil => rfl
  | cons mark rest ih =>
    rw [layoutFrom, linesFrom, ih, unlines_append]
    cases mark <;> simp [Mark.text, Mark.lines]

theorem linesFrom_append (depth : Nat) (a b : List Mark) :
    linesFrom depth (a ++ b) = linesFrom depth a ++ linesFrom (depthAfter depth a) b := by
  induction a generalizing depth with
  | nil => rfl
  | cons mark rest ih =>
    rw [List.cons_append, linesFrom, ih, linesFrom, List.append_assoc]
    rfl

/-- Marks whose lines are good, and in which every step deeper is taken back. -/
inductive Laid (good : String → Prop) : List Mark → Prop where
  | nil : Laid good []
  | line {text : String} {rest : List Mark} (here : good text) (later : Laid good rest) :
    Laid good (.line text :: rest)
  | blank {rest : List Mark} (later : Laid good rest) : Laid good (.blank :: rest)
  | nest {body rest : List Mark} (inside : Laid good body) (later : Laid good rest) :
    Laid good (.deeper :: (body ++ .shallower :: rest))

namespace Laid

variable {good : String → Prop} {a b : List Mark}

theorem append (ha : Laid good a) (hb : Laid good b) : Laid good (a ++ b) := by
  induction ha with
  | nil => exact hb
  | line here later ih => exact .line here ih
  | blank later ih => exact .blank ih
  | @nest body rest inside later _ ih =>
    rw [List.cons_append, List.append_assoc, List.cons_append]
    exact .nest inside ih

theorem singleton {text : String} (here : good text) : Laid good [.line text] := .line here .nil

theorem block {opening closing : String} {body : List Mark} (ho : good opening)
    (hbody : Laid good body) (hc : good closing) : Laid good (block opening body closing) := by
  rw [Source.block, List.append_assoc]
  exact .line ho (.nest hbody (.singleton hc))

theorem flatMap {α : Type} {items : List α} {marks : α → List Mark}
    (h : ∀ item ∈ items, Laid good (marks item)) : Laid good (items.flatMap marks) := by
  induction items with
  | nil => exact .nil
  | cons item rest ih =>
    rw [List.flatMap_cons]
    exact (h item (List.mem_cons_self ..)).append
      (ih fun other hother => h other (List.mem_cons_of_mem _ hother))

/-- Marks that are laid out end at the depth where they start. -/
theorem depthAfter_eq (h : Laid good a) (depth : Nat) : depthAfter depth a = depth := by
  induction h generalizing depth with
  | nil => rfl
  | line here later ih => exact ih depth
  | blank later ih => exact ih depth
  | @nest body rest inside later ihi ihl =>
    show depthAfter (depth + 1) (body ++ .shallower :: rest) = depth
    rw [depthAfter_append, ihi]
    exact ihl depth

theorem linesFrom_nest {body : List Mark} (inside : Laid good body) (rest : List Mark)
    (depth : Nat) :
    linesFrom depth (.deeper :: (body ++ .shallower :: rest)) =
      linesFrom (depth + 1) body ++ linesFrom depth rest := by
  show linesFrom (depth + 1) (body ++ .shallower :: rest) = _
  rw [linesFrom_append, inside.depthAfter_eq]
  rfl

/-- A block has its body one level deeper. -/
theorem linesFrom_block {body : List Mark} (hbody : Laid good body) (opening closing : String)
    (depth : Nat) :
    linesFrom depth (Source.block opening body closing) =
      (indentation depth ++ opening) ::
        (linesFrom (depth + 1) body ++ [indentation depth ++ closing]) := by
  rw [Source.block, List.append_assoc]
  show (indentation depth ++ opening) :: linesFrom depth (.deeper :: (body ++ _)) = _
  rw [linesFrom_nest hbody]
  rfl

/-- Every line is blank or a good one behind blanks. -/
theorem of_mem_linesFrom (h : Laid good a) {depth : Nat} {l : String}
    (hl : l ∈ linesFrom depth a) :
    l = "" ∨ ∃ text deeper, good text ∧ l = indentation (depth + deeper) ++ text := by
  induction h generalizing depth with
  | nil => cases hl
  | @line text rest here later ih =>
    rcases List.mem_cons.mp hl with rfl | hl
    · exact .inr ⟨text, 0, here, rfl⟩
    · exact ih hl
  | blank later ih =>
    rcases List.mem_cons.mp hl with rfl | hl
    · exact .inl rfl
    · exact ih hl
  | nest inside later ihi ihl =>
    rw [linesFrom_nest inside, List.mem_append] at hl
    rcases hl with hl | hl
    · rcases ihi hl with hl | ⟨text, deeper, here, rfl⟩
      · exact .inl hl
      · exact .inr ⟨text, deeper + 1, here, by rw [Nat.add_right_comm, ← Nat.add_assoc]⟩
    · exact ihl hl

end Laid

theorem indentation_zero : indentation 0 = "" := rfl

theorem plain_indentation (depth : Nat) : Plain (indentation depth) := by
  simp [Plain, indentation]

/-- The lines of plain marks have no line ends inside. -/
theorem Laid.plain_of_mem {marks : List Mark} (h : Laid Plain marks) {depth : Nat} {l : String}
    (hl : l ∈ linesFrom depth marks) : Plain l := by
  rcases h.of_mem_linesFrom hl with rfl | ⟨text, deeper, here, rfl⟩
  · decide
  · exact plain_append.mpr ⟨plain_indentation _, here⟩

end Source

end WireCodec
