import WireCodec.Proofs.Source.Plain

/-!
# Brackets

Braces, square brackets and parentheses nest when every one that opens is closed by its like, with
nothing in between but nested text.  A reader that keeps the brackets still to be closed decides
this piece by piece, so it is used to follow the texts that generated code is put together from.
-/

namespace WireCodec

def closer? : Char → Option Char
  | '(' => some ')'
  | '[' => some ']'
  | '\x7b' => some '\x7d'
  | _ => none

def isCloser (c : Char) : Bool := c == ')' || c == ']' || c == '\x7d'

def isBracket (c : Char) : Bool := (closer? c).isSome || isCloser c

/-- Characters of a sort to which no bracket belongs are no brackets. -/
theorem isBracket_eq_false {p : Char → Bool}
    (h : ['(', ')', '[', ']', '\x7b', '\x7d'].all (!p ·) = true) {c : Char} (hc : p c = true) :
    isBracket c = false := by
  apply Bool.eq_false_iff.mpr
  intro hbracket
  have hmem : c ∈ ['(', ')', '[', ']', '\x7b', '\x7d'] := by
    unfold isBracket isCloser closer? at hbracket
    split at hbracket <;> simp_all [or_assoc]
  have hnot := List.all_eq_true.mp h c hmem
  rw [hc] at hnot
  cases hnot

/-- Text in which brackets are matched and properly nested. -/
inductive Nested : List Char → Prop where
  | nil : Nested []
  | other {c : Char} {rest : List Char} (free : isBracket c = false) (later : Nested rest) :
    Nested (c :: rest)
  | pair {opening closing : Char} {inside rest : List Char}
    (closes : closer? opening = some closing) (within : Nested inside) (later : Nested rest) :
    Nested (opening :: (inside ++ closing :: rest))

/-! ## Reading brackets -/

/-- The brackets still to be closed, the innermost first, behind one character more; nothing if it
closes any but the innermost. -/
def readBracket (waiting : List Char) (c : Char) : Option (List Char) :=
  match closer? c with
  | some closing => some (closing :: waiting)
  | none =>
    if isCloser c then
      match waiting with
      | [] => none
      | next :: rest => if c = next then some rest else none
    else some waiting

/-- The brackets still to be closed behind characters. -/
def readBrackets (waiting : Option (List Char)) (text : List Char) : Option (List Char) :=
  text.foldl (fun waiting c => waiting.bind (readBracket · c)) waiting

/-- The brackets still to be closed behind a text. -/
def waitingAfter (waiting : Option (List Char)) (text : String) : Option (List Char) :=
  readBrackets waiting text.toList

/-- Brackets are read from one text into the next. -/
theorem waitingAfter_append (waiting : Option (List Char)) (a b : String) :
    waitingAfter waiting (a ++ b) = waitingAfter (waitingAfter waiting a) b := by
  rw [waitingAfter, String.toList_append]
  exact List.foldl_append

/-- Text that is written out is read by its characters. -/
theorem waitingAfter_ofList (waiting : Option (List Char)) (text : List Char) :
    waitingAfter waiting (String.ofList text) = readBrackets waiting text := by
  rw [waitingAfter, String.toList_ofList]

theorem readBrackets_none (text : List Char) : readBrackets none text = none := by
  induction text with
  | nil => rfl
  | cons c rest ih => exact ih

theorem readBracket_of_free {c : Char} (h : isBracket c = false) (waiting : List Char) :
    readBracket waiting c = some waiting := by
  rw [isBracket, Bool.or_eq_false_iff] at h
  have hopens : closer? c = none := Option.isNone_iff_eq_none.mp (Option.isSome_eq_false_iff.mp h.1)
  unfold readBracket
  rw [hopens, h.2]
  rfl

/-- Text that closes the brackets that wait for it, with nested text before each of them. -/
def Closes : List Char → List Char → Prop
  | [], text => Nested text
  | next :: waiting, text =>
    ∃ inside rest, text = inside ++ next :: rest ∧ Nested inside ∧ Closes waiting rest

theorem Closes.prepend {waiting text : List Char} (hc : Closes waiting text) (front : List Char)
    (h : ∀ text, Nested text → Nested (front ++ text)) : Closes waiting (front ++ text) := by
  cases waiting with
  | nil => exact h text hc
  | cons next waiting =>
    obtain ⟨inside, rest, rfl, hinside, hrest⟩ := hc
    exact ⟨front ++ inside, rest, (List.append_assoc ..).symm, h inside hinside, hrest⟩

/-- What the reader finds closed is closed. -/
theorem closes_of_readBrackets {waiting text : List Char}
    (h : readBrackets (some waiting) text = some []) : Closes waiting text := by
  induction text generalizing waiting with
  | nil =>
    cases h
    exact .nil
  | cons c text ih =>
    change readBrackets (readBracket waiting c) text = some [] at h
    cases hopens : closer? c with
    | some closing =>
      unfold readBracket at h
      rw [hopens] at h
      obtain ⟨inside, rest, rfl, hinside, hrest⟩ := ih h
      have hpair (more : List Char) (hmore : Nested more) :
          Nested ((c :: (inside ++ [closing])) ++ more) := by
        rw [List.cons_append, List.append_assoc]
        exact .pair hopens hinside hmore
      have hclosed := hrest.prepend _ hpair
      rwa [List.cons_append, List.append_assoc] at hclosed
    | none =>
      by_cases hcloses : isCloser c = true
      · unfold readBracket at h
        rw [hopens] at h
        dsimp only at h
        rw [if_pos hcloses] at h
        cases waiting with
        | nil => rw [readBrackets_none] at h; cases h
        | cons next waiting =>
          dsimp only at h
          by_cases hnext : c = next
          · rw [if_pos hnext] at h
            exact ⟨[], text, by rw [hnext]; rfl, .nil, ih h⟩
          · rw [if_neg hnext, readBrackets_none] at h
            cases h
      · have hfree : isBracket c = false := by
          rw [isBracket, hopens, Bool.eq_false_iff.mpr hcloses]
          rfl
        rw [readBracket_of_free hfree] at h
        exact (ih h).prepend [c] fun more hmore => .other hfree hmore

/-! ## Balanced text -/

/-- Text that closes every bracket that it opens, and no other. -/
def Balanced (text : String) : Prop := ∀ waiting, waitingAfter waiting text = waiting

theorem balanced_of_some {text : String}
    (h : ∀ waiting, waitingAfter (some waiting) text = some waiting) : Balanced text := by
  intro waiting
  cases waiting with
  | none => exact readBrackets_none _
  | some waiting => exact h waiting

/-- In balanced text every bracket is closed by its own kind. -/
theorem Balanced.nested {text : String} (h : Balanced text) : Nested text.toList :=
  closes_of_readBrackets (h (some []))

/-- Balanced texts are balanced one behind the other. -/
theorem Balanced.append {a b : String} (ha : Balanced a) (hb : Balanced b) : Balanced (a ++ b) := by
  intro waiting
  rw [waitingAfter_append, ha, hb]

theorem balanced_of_free {text : String} (h : ∀ c ∈ text.toList, isBracket c = false) :
    Balanced text := by
  refine balanced_of_some fun waiting => ?_
  rw [waitingAfter]
  generalize text.toList = chars at h
  induction chars with
  | nil => rfl
  | cons c rest ih =>
    show readBrackets (readBracket waiting c) rest = some waiting
    rw [readBracket_of_free (h c (List.mem_cons_self ..))]
    exact ih fun d hd => h d (List.mem_cons_of_mem c hd)

/-- Text that is written out is balanced when its characters say so. -/
theorem balanced_ofList {text : List Char}
    (h : ∀ waiting, readBrackets (some waiting) text = some waiting) :
    Balanced (String.ofList text) :=
  balanced_of_some fun waiting => (waitingAfter_ofList (some waiting) text).trans (h waiting)

/-- What is opened in front of a text may be closed behind it. -/
theorem Balanced.between {text : String} (h : Balanced text) {front back : List Char}
    (hw : ∀ waiting, readBrackets (readBrackets (some waiting) front) back = some waiting) :
    Balanced (String.ofList front ++ text ++ String.ofList back) := by
  refine balanced_of_some fun waiting => ?_
  rw [waitingAfter_append, waitingAfter_append, h, waitingAfter_ofList, waitingAfter_ofList,
    hw waiting]

theorem balanced_repr (n : Nat) : Balanced n.repr := by
  refine balanced_of_free fun c hc => ?_
  rw [Nat.repr_eq_ofList_toDigits, String.toList_ofList] at hc
  have hdigit := Nat.isDigit_of_mem_toDigits (by decide) (by decide) hc
  exact isBracket_eq_false (p := Char.isDigit) (by decide) hdigit

theorem balanced_join {parts : List String} (h : ∀ part ∈ parts, Balanced part) :
    Balanced (String.join parts) := by
  induction parts with
  | nil => exact balanced_ofList fun _ => rfl
  | cons part rest ih =>
    rw [String.join_cons]
    exact (h part (List.mem_cons_self ..)).append
      (ih fun other hother => h other (List.mem_cons_of_mem part hother))

theorem balanced_intercalate {separator : String} {parts : List String} (hs : Balanced separator)
    (h : ∀ part ∈ parts, Balanced part) : Balanced (String.intercalate separator parts) := by
  induction parts with
  | nil => exact balanced_ofList fun _ => rfl
  | cons first rest ih =>
    have hfirst := h first (List.mem_cons_self ..)
    cases rest with
    | nil => rwa [String.intercalate_singleton]
    | cons second rest =>
      rw [String.intercalate_cons_cons]
      exact (hfirst.append hs).append (ih fun part hpart => h part (List.mem_cons_of_mem _ hpart))

namespace Source

/-! ## Names and expressions -/

theorem balanced_identifier {name : String} (h : Balanced name) : Balanced (identifier name) := by
  unfold identifier
  split
  · exact .append (balanced_ofList fun _ => rfl) h
  · exact h

theorem balanced_localName {field : String} (h : Balanced field) : Balanced (localName field) :=
  .append (balanced_ofList fun _ => rfl) h

theorem balanced_ownField {field : String} (h : Balanced field) : Balanced (ownField field) :=
  .append (balanced_ofList fun _ => rfl) (balanced_identifier h)

theorem balanced_kindName (kind : ScalarKind) : Balanced kind.name := by
  cases kind <;> exact balanced_ofList fun _ => rfl

theorem balanced_typeName {type : ScalarType} (h : ∀ name ∈ type.aliasName, Balanced name) :
    Balanced type.name := by
  obtain ⟨_ | name, kind⟩ := type
  · exact balanced_kindName kind
  · exact h name rfl

theorem balanced_spelling {type : WireType}
    (h : ∀ name ∈ type.element.aliasName, Balanced name) : Balanced type.spelling := by
  have hname := balanced_typeName h
  cases type with
  | scalar type => exact hname
  | array elem length fits =>
    have helem : Balanced elem.name := hname
    refine balanced_of_some fun waiting => ?_
    show waitingAfter _ s!"[{elem.name}; {length}]" = _
    simp only [toString, waitingAfter_append, helem _, balanced_repr length _]
    repeat rw [waitingAfter_ofList]
    rfl
  | sequence elem length => exact hname.between fun _ => rfl

section Lengths

variable {field : String → String}

theorem balanced_checkedChain {e : LengthExpr} (h : ∀ name ∈ e.fields, Balanced (field name)) :
    Balanced (checkedChain field e) := by
  induction e with
  | const value => exact .append (balanced_repr value.toNat) (balanced_ofList fun _ => rfl)
  | field name => exact h name (List.mem_singleton_self name)
  | binary op left right ihl ihr =>
    have hleft := ihl fun name hname => h name (List.mem_append_left _ hname)
    have hright := ihr fun name hname => h name (List.mem_append_right _ hname)
    have hop : Balanced (checkedMethod op) := by
      cases op <;> exact balanced_ofList fun _ => rfl
    refine balanced_of_some fun waiting => ?_
    simp only [checkedChain, waitingAfter_append, hleft _, hop _, hright _]
    repeat rw [waitingAfter_ofList]
    rfl

/-- The text of a length closes its brackets, if the texts of its fields do. -/
theorem balanced_checkedLength {e : LengthExpr} (h : ∀ name ∈ e.fields, Balanced (field name)) :
    Balanced (checkedLength field e) := by
  have hchain := balanced_checkedChain h
  unfold checkedLength
  split <;> exact hchain.between fun _ => rfl

end Lengths

section Bytes

variable {byteAt : Nat → String} (hbyte : ∀ index, Balanced (byteAt index))
include hbyte

theorem balanced_shiftedByte (unsigned : ScalarKind) (index : Nat) :
    Balanced (shiftedByte unsigned byteAt index) := by
  have hread : Balanced s!"{unsigned.name}::from(buf[{byteAt index}])" := by
    refine balanced_of_some fun waiting => ?_
    simp only [toString, waitingAfter_append, balanced_kindName unsigned _, hbyte index _]
    repeat rw [waitingAfter_ofList]
    rfl
  unfold shiftedByte
  dsimp only
  split
  · exact hread
  · exact (hread.append (balanced_ofList fun _ => rfl)).append (balanced_repr _)

theorem balanced_patternOfBytes (kind : ScalarKind) : Balanced (patternOfBytes kind byteAt) := by
  unfold patternOfBytes
  split
  · exact (hbyte 0).between fun _ => rfl
  · refine balanced_intercalate (balanced_ofList fun _ => rfl) fun part hpart => ?_
    obtain ⟨index, -, rfl⟩ := List.mem_map.mp hpart
    exact balanced_shiftedByte hbyte _ index

theorem balanced_scalarOfBytes {type : ScalarType}
    (h : ∀ name ∈ type.aliasName, Balanced name) : Balanced (scalarOfBytes type byteAt) := by
  have hpattern := balanced_patternOfBytes hbyte type.kind
  have hname := balanced_typeName h
  have hcast : Balanced " as " := balanced_ofList fun _ => rfl
  have hfloat : Balanced s!"{type.kind.name}::from_bits({patternOfBytes type.kind byteAt})" := by
    refine balanced_of_some fun waiting => ?_
    simp only [toString, waitingAfter_append, balanced_kindName type.kind _, hpattern _]
    repeat rw [waitingAfter_ofList]
    rfl
  unfold scalarOfBytes
  dsimp only
  split
  · split
    · rename_i name halias
      exact (hfloat.append hcast).append (h name halias)
    · exact hfloat
  · split
    · exact hpattern
    · split
      · exact (hpattern.append hcast).append hname
      · exact .append (hpattern.between fun _ => rfl) hname

end Bytes

theorem balanced_elementPlace (offset size : Nat) : Balanced (elementPlace offset size) := by
  have hscaled : Balanced (if size = 1 then "i" else s!"i * {size}") := by
    split
    · exact balanced_ofList fun _ => rfl
    · exact .append (balanced_ofList fun _ => rfl) (balanced_repr size)
  unfold elementPlace
  dsimp only
  split
  · exact hscaled
  · exact ((balanced_repr offset).append (balanced_ofList fun _ => rfl)).append hscaled

theorem balanced_behindPlace (index : Nat) : Balanced (behindPlace index) := by
  unfold behindPlace
  split
  · exact balanced_ofList fun _ => rfl
  · exact .append (balanced_ofList fun _ => rfl) (balanced_repr index)

theorem balanced_patternOfScalar {type : ScalarType} {value : String} (h : Balanced value) :
    Balanced (patternOfScalar type value) := by
  unfold patternOfScalar
  split
  · exact h.append (balanced_ofList fun _ => rfl)
  · split
    · exact h
    · exact (h.append (balanced_ofList fun _ => rfl)).append (balanced_kindName _)

theorem balanced_appendPattern (kind : ScalarKind) : Balanced (appendPattern kind) := by
  have hbyte (index : Nat) : Balanced (byteOfPattern index) := by
    unfold byteOfPattern
    split
    · exact balanced_ofList fun _ => rfl
    · exact (balanced_repr _).between fun _ => rfl
  have hbytes : Balanced (String.intercalate ", " ((List.range kind.size).map byteOfPattern)) := by
    refine balanced_intercalate (balanced_ofList fun _ => rfl) fun part hpart => ?_
    obtain ⟨index, -, rfl⟩ := List.mem_map.mp hpart
    exact hbyte index
  unfold appendPattern
  split
  · exact balanced_ofList fun _ => rfl
  · exact hbytes.between fun _ => rfl

theorem balanced_newError {kind message : String} (hk : Balanced kind) (hm : Balanced message) :
    Balanced (newError kind message) := by
  refine balanced_of_some fun waiting => ?_
  unfold newError
  simp only [toString, waitingAfter_append, hk _, hm _]
  repeat rw [waitingAfter_ofList]
  rfl

end Source

end WireCodec
