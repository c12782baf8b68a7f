import WireCodec.Proofs.Source.Brackets

/-!
# Framed marks

Marks are framed when their brackets close where their depth does.  A block opens a brace in its
first line and closes it in its last; every other line closes its own brackets and starts where its
indentation ends.  So framed marks make balanced text, with four spaces in front of a line for every
level, and a level is left only after it was entered.
-/

namespace WireCodec.Source

/-- Text that starts with something other than a space. -/
def Starts (text : String) : Prop := ∃ c ∈ text.toList.head?, c ≠ ' '

/-- Whatever is put behind a text, its start stays. -/
theorem Starts.extend {a : String} (h : Starts a) (parts : List String) :
    Starts (parts.foldl (· ++ ·) a) := by
  induction parts generalizing a with
  | nil => exact h
  | cons part rest ih =>
    obtain ⟨c, hc, hne⟩ := h
    refine ih ⟨c, ?_, hne⟩
    rw [String.toList_append, List.head?_append, Option.mem_def.mp hc]
    rfl

/-- A text that starts with characters that are written out. -/
theorem starts_ofList {c : Char} {rest : List Char} (h : c ≠ ' ') (parts : List String) :
    Starts (parts.foldl (· ++ ·) (String.ofList (c :: rest))) := by
  refine .extend ⟨c, ?_, h⟩ parts
  rw [String.toList_ofList]
  rfl

/-- The first line of a block, which opens a brace. -/
def Opens (text : String) : Prop :=
  ∀ waiting, waitingAfter (some waiting) text = some ('\x7d' :: waiting)

/-- Balanced text in front changes nothing about the brace that a line opens. -/
theorem Opens.behind {front : String} (h : Balanced front) {back : List Char}
    (hw : ∀ waiting, readBrackets (some waiting) back = some ('\x7d' :: waiting)) :
    Opens (front ++ String.ofList back) := by
  intro waiting
  rw [waitingAfter_append, h, waitingAfter_ofList, hw]

theorem opens_ofList {text : List Char}
    (h : ∀ waiting, readBrackets (some waiting) text = some ('\x7d' :: waiting)) :
    Opens (String.ofList text) := by
  intro waiting
  rw [waitingAfter_ofList, h]

/-- Marks whose brackets close where their depth does: a line closes its own brackets, unless it is
the first or the last of a block. -/
inductive Framed : List Mark → Prop where
  | nil : Framed []
  | line {text : String} {rest : List Mark} (starts : Starts text) (here : Balanced text)
    (later : Framed rest) : Framed (.line text :: rest)
  | blank {rest : List Mark} (later : Framed rest) : Framed (.blank :: rest)
  | nest {body rest : List Mark} (inside : Framed body) (later : Framed rest) :
    Framed (.deeper :: (body ++ .shallower :: rest))
  | block {opening : String} {body rest : List Mark} (starts : Starts opening)
    (opens : Opens opening) (inside : Framed body) (later : Framed rest) :
    Framed (block opening body "\x7d" ++ rest)

/-- A block is its first line, its body one level deeper, and its last line. -/
theorem layoutFrom_block {depth : Nat} {body : List Mark} (opening closing : String)
    (h : depthAfter (depth + 1) body = depth + 1) :
    layoutFrom depth (block opening body closing) =
      indentation depth ++ opening ++ "\n" ++
        (layoutFrom (depth + 1) body ++ (indentation depth ++ closing ++ "\n")) := by
  simp only [block, List.cons_append, List.nil_append, layoutFrom,
    layoutFrom_append, Mark.text, Mark.depthAfter, h, Nat.add_sub_cancel, String.empty_append,
    String.append_empty]

namespace Framed

variable {a b : List Mark}

theorem append (ha : Framed a) (hb : Framed b) : Framed (a ++ b) := by
  induction ha with
  | nil => exact hb
  | line starts here later ih => exact .line starts here ih
  | blank later ih => exact .blank ih
  | @nest body rest inside later _ ih =>
    rw [List.cons_append, List.append_assoc, List.cons_append]
    exact .nest inside ih
  | block starts opens inside later _ ih =>
    rw [List.append_assoc]
    exact .block starts opens inside ih

theorem singleton {text : String} (starts : Starts text) (here : Balanced text) :
    Framed [.line text] :=
  .line starts here .nil

/-- A line that is written out. -/
theorem written {c : Char} {text : List Char} {rest : List Mark} (hc : c ≠ ' ')
    (h : ∀ waiting, readBrackets (some waiting) (c :: text) = some waiting) (later : Framed rest) :
    Framed (.line (String.ofList (c :: text)) :: rest) :=
  .line (starts_ofList hc []) (balanced_ofList h) later

theorem single {opening : String} {body : List Mark} (starts : Starts opening)
    (opens : Opens opening) (inside : Framed body) : Framed (Source.block opening body "\x7d") := by
  rw [← List.append_nil (Source.block opening body "\x7d")]
  exact .block starts opens inside .nil

theorem flatMap {α : Type} {items : List α} {marks : α → List Mark}
    (h : ∀ item ∈ items, Framed (marks item)) : Framed (items.flatMap marks) := by
  induction items with
  | nil => exact .nil
  | cons item rest ih =>
    rw [List.flatMap_cons]
    exact (h item (List.mem_cons_self ..)).append
      (ih fun other hother => h other (List.mem_cons_of_mem _ hother))

/-- The lines of framed marks start where their indentation ends. -/
theorem laid (h : Framed a) : Laid Starts a := by
  induction h with
  | nil => exact .nil
  | line starts here later ih => exact .line starts ih
  | blank later ih => exact .blank ih
  | nest inside later ihi ihl => exact .nest ihi ihl
  | block starts opens inside later ihi ihl =>
    exact (Laid.block starts ihi (starts_ofList (by decide) [])).append ihl

/-- Framed marks are written as balanced text, at every depth. -/
theorem balanced_layoutFrom (h : Framed a) (depth : Nat) : Balanced (layoutFrom depth a) := by
  have hindent (depth : Nat) : Balanced (indentation depth) := by
    refine balanced_of_free fun c hc => ?_
    rw [indentation, String.toList_ofList] at hc
    rw [List.eq_of_mem_replicate hc]
    rfl
  have hend : Balanced "\n" := balanced_ofList fun _ => rfl
  induction h generalizing depth with
  | nil => exact balanced_ofList fun _ => rfl
  | line starts here later ih =>
    exact ((hindent depth).append here |>.append hend).append (ih depth)
  | blank later ih => exact hend.append (ih depth)
  | @nest body rest inside later ihi ihl =>
    show Balanced ("" ++ layoutFrom (depth + 1) (body ++ .shallower :: rest))
    rw [layoutFrom_append, inside.laid.depthAfter_eq, String.empty_append]
    show Balanced (_ ++ ("" ++ layoutFrom depth rest))
    rw [String.empty_append]
    exact (ihi (depth + 1)).append (ihl depth)
  | @block opening body rest starts opens inside later ihi ihl =>
    have hdepth := inside.laid.depthAfter_eq (depth + 1)
    rw [layoutFrom_append, depthAfter_block _ _ hdepth, layoutFrom_block _ _ hdepth]
    refine .append ?_ (ihl depth)
    -- The brace of the first line waits behind the body for the last line.
    refine balanced_of_some fun waiting => ?_
    simp only [waitingAfter_append, hindent depth _, opens waiting, hend _, ihi (depth + 1) _]
    rw [waitingAfter_ofList]
    rfl

end Framed

/-! ## Indentation -/

/-- Marks that go up again have gone down before, in whatever depth they start. -/
theorem Laid.depth_lt {good : String → Prop} {marks : List Mark} (h : Laid good marks) (depth : Nat)
    {front rest : List Mark} (hmarks : marks = front ++ .shallower :: rest) :
    depth < depthAfter depth front := by
  induction h generalizing depth front rest with
  | nil => cases front <;> cases hmarks
  | line here later ih =>
    cases front with
    | nil => cases hmarks
    | cons mark front =>
      obtain ⟨rfl, hrest⟩ := List.cons.inj hmarks
      have hlater := ih depth hrest
      exact hlater
  | blank later ih =>
    cases front with
    | nil => cases hmarks
    | cons mark front =>
      obtain ⟨rfl, hrest⟩ := List.cons.inj hmarks
      have hlater := ih depth hrest
      exact hlater
  | @nest body more inside later ihi ihl =>
    cases front with
    | nil => cases hmarks
    | cons mark front =>
      obtain ⟨rfl, hrest⟩ := List.cons.inj hmarks
      show depth < depthAfter (depth + 1) front
      -- The mark that goes up lies in the body, ends it, or comes behind it.
      rcases List.append_eq_append_iff.mp hrest with ⟨behind, rfl, hbehind⟩ | ⟨inner, rfl, hinner⟩
      · rw [depthAfter_append, inside.depthAfter_eq]
        cases behind with
        | nil => exact Nat.lt_succ_self depth
        | cons mark behind =>
          obtain ⟨rfl, hmore⟩ := List.cons.inj hbehind
          exact ihl depth hmore
      · cases inner with
        | nil =>
          rw [List.append_nil] at inside
          rw [inside.depthAfter_eq]
          exact Nat.lt_succ_self depth
        | cons mark inner =>
          obtain ⟨rfl, hmore⟩ := List.cons.inj hinner
          have hdeep := ihi (depth + 1) rfl
          omega

def leadingSpaces (line : String) : Nat := (line.toList.takeWhile (· == ' ')).length

/-- The spaces in front of a line tell its depth. -/
theorem leadingSpaces_indentation {text : String} (h : Starts text) (depth : Nat) :
    leadingSpaces (indentation depth ++ text) = 4 * depth := by
  obtain ⟨c, hc, hne⟩ := h
  have hfirst : text.toList.takeWhile (· == ' ') = [] := by
    cases htext : text.toList with
    | nil => rfl
    | cons d rest =>
      rw [htext] at hc
      cases hc
      rw [List.takeWhile_cons, if_neg (by simpa using hne)]
  have hspaces : ∀ d ∈ List.replicate (4 * depth) ' ', (d == ' ') = true := by
    intro d hd
    rw [List.eq_of_mem_replicate hd]
    rfl
  rw [leadingSpaces, String.toList_append, indentation, String.toList_ofList,
    List.takeWhile_append_of_pos hspaces, hfirst, List.append_nil, List.length_replicate]

/-- Marks that are written with four spaces for every level: the depth never saturates and comes
back to the outermost level, and the lines of the text are those of the marks, each behind the
spaces of the depth that is reached there. -/
structure WellIndented (marks : List Mark) : Prop where
  ends : depthAfter 0 marks = 0
  above : ∀ front rest, marks = front ++ .shallower :: rest → 0 < depthAfter 0 front
  lines : Text.split '\n' (layout marks) = linesFrom 0 marks ++ [""]
  spaces : ∀ front mark rest, marks = front ++ mark :: rest →
    ∀ line ∈ mark.lines (depthAfter 0 front),
      line = "" ∨ leadingSpaces line = 4 * depthAfter 0 front

theorem Laid.of_line_mem {good : String → Prop} {marks : List Mark} (h : Laid good marks)
    {text : String} (hm : .line text ∈ marks) : good text := by
  induction h with
  | nil => cases hm
  | line here later ih =>
    rcases List.mem_cons.mp hm with heq | hm
    · cases heq
      exact here
    · exact ih hm
  | blank later ih => exact ih ((List.mem_cons.mp hm).resolve_left (by simp))
  | nest inside later ihi ihl =>
    simp only [List.mem_cons, List.mem_append, reduceCtorEq, false_or] at hm
    exact hm.elim ihi ihl

/-- Framed marks with plain lines are indented by their depth. -/
theorem Framed.wellIndented {marks : List Mark} (h : Framed marks) (hplain : Laid Plain marks) :
    WellIndented marks where
  ends := h.laid.depthAfter_eq 0
  above front rest hmarks := h.laid.depth_lt 0 hmarks
  lines := by
    have hlines := Text.split_unlines
      (fun l (hl : l ∈ linesFrom 0 marks) => hplain.plain_of_mem hl) ""
    rw [String.append_empty, ← layoutFrom_eq] at hlines
    exact hlines
  spaces front mark rest hmarks line hline := by
    cases mark with
    | line text =>
      have hmem : .line text ∈ marks := by
        rw [hmarks]
        exact List.mem_append_right _ (List.mem_cons_self ..)
      have hstarts := h.laid.of_line_mem hmem
      rw [List.mem_singleton.mp hline]
      exact .inr (leadingSpaces_indentation hstarts _)
    | blank => exact .inl (List.mem_singleton.mp hline)
    | deeper => cases hline
    | shallower => cases hline

end WireCodec.Source
