import WireCodec.Proofs.Source.Lines
import WireCodec.Proofs.Source.Names
import WireCodec.Source.Codec

/-!
# No line ends inside generated lines

Whatever goes into a generated line, apart from names and numbers, is written out in the generator
and holds no line end.  So the lines of a codec are plain when its names are, and its blocks are
laid out properly whatever its steps are.
-/

namespace WireCodec

/-- Text that is written out is plain when its characters say so. -/
theorem plain_ofList {l : List Char} (h : l.all (· != '\n') = true) : Plain (String.ofList l) := by
  rw [List.all_eq_true] at h
  rw [Plain, String.toList_ofList]
  exact fun hm => absurd (h _ hm) (by decide)

@[simp] theorem plain_repr (n : Nat) : Plain n.repr := by
  rw [Plain, Nat.repr_eq_ofList_toDigits, String.toList_ofList]
  exact fun h => absurd (Nat.isDigit_of_mem_toDigits (by decide) (by decide) h) (by decide)

theorem plain_join {parts : List String} (h : ∀ p ∈ parts, Plain p) :
    Plain (String.join parts) := by
  rw [Plain, String.toList_join]
  intro hm
  obtain ⟨p, hp, hm⟩ := List.mem_flatMap.mp hm
  exact h p hp hm

theorem plain_intercalate {separator : String} {parts : List String} (hs : Plain separator)
    (h : ∀ p ∈ parts, Plain p) : Plain (String.intercalate separator parts) := by
  induction parts with
  | nil =>
    rw [String.intercalate_nil]
    decide
  | cons first rest ih =>
    have hfirst := h first (List.mem_cons_self ..)
    cases rest with
    | nil => rwa [String.intercalate_singleton]
    | cons second rest =>
      rw [String.intercalate_cons_cons, plain_append, plain_append]
      exact ⟨⟨hfirst, hs⟩, ih fun p hp => h p (List.mem_cons_of_mem _ hp)⟩

/-- The characters of words are no line ends. -/
theorem plain_of_isName {name : String} (h : Text.isName name = true) : Plain name := by
  rw [Text.isName, Bool.and_eq_true] at h
  exact fun hm => absurd (Text.isWordChar_of_mem h.1 hm) (by decide)

namespace Source

/-! ## Names and expressions -/

theorem plain_identifier {name : String} (h : Plain name) : Plain (identifier name) := by
  unfold identifier
  split
  · exact plain_append.mpr ⟨by decide, h⟩
  · exact h

theorem plain_localName {field : String} (h : Plain field) : Plain (localName field) :=
  plain_append.mpr ⟨by decide, h⟩

theorem plain_ownField {field : String} (h : Plain field) : Plain (ownField field) :=
  plain_append.mpr ⟨by decide, plain_identifier h⟩

theorem plain_kindName (kind : ScalarKind) : Plain kind.name := by
  cases kind <;> decide

theorem plain_typeName {type : ScalarType} (h : ∀ name ∈ type.aliasName, Plain name) :
    Plain type.name := by
  obtain ⟨_ | name, kind⟩ := type
  · exact plain_kindName kind
  · exact h name rfl

theorem plain_spelling {type : WireType} (h : ∀ name ∈ type.element.aliasName, Plain name) :
    Plain type.spelling := by
  have hname := plain_typeName h
  cases type with
  | scalar type => exact hname
  | array elem length fits =>
    show Plain s!"[{elem.name}; {length}]"
    simp only [toString, plain_append, plain_repr, show Plain elem.name from hname, and_true]
    and_intros <;> exact plain_ofList rfl
  | sequence elem length =>
    exact plain_append.mpr ⟨plain_append.mpr ⟨plain_ofList rfl, hname⟩, plain_ofList rfl⟩

section Lengths

variable {field : String → String}

theorem plain_checkedChain {e : LengthExpr} (h : ∀ name ∈ e.fields, Plain (field name)) :
    Plain (checkedChain field e) := by
  induction e with
  | const value => exact plain_append.mpr ⟨plain_repr value.toNat, by decide⟩
  | field name => exact h name (List.mem_singleton_self name)
  | binary op left right ihl ihr =>
    have hleft := ihl fun name hname => h name (List.mem_append_left _ hname)
    have hright := ihr fun name hname => h name (List.mem_append_right _ hname)
    have hop : Plain (checkedMethod op) := by cases op <;> decide
    rw [checkedChain]
    simp only [plain_append, hleft, hop, hright, and_true, true_and]
    and_intros <;> exact plain_ofList rfl

theorem plain_checkedLength {e : LengthExpr} (h : ∀ name ∈ e.fields, Plain (field name)) :
    Plain (checkedLength field e) := by
  have hchain := plain_checkedChain h
  unfold checkedLength
  split
  · exact plain_append.mpr ⟨plain_append.mpr ⟨plain_ofList rfl, hchain⟩, plain_ofList rfl⟩
  · exact plain_append.mpr ⟨plain_append.mpr ⟨plain_ofList rfl, hchain⟩, plain_ofList rfl⟩

end Lengths

section Bytes

variable {byteAt : Nat → String} (hbyte : ∀ index, Plain (byteAt index))
include hbyte

theorem plain_shiftedByte (unsigned : ScalarKind) (index : Nat) :
    Plain (shiftedByte unsigned byteAt index) := by
  have hread : Plain s!"{unsigned.name}::from(buf[{byteAt index}])" := by
    simp only [toString, plain_append, plain_kindName, hbyte, true_and, and_true]
    and_intros <;> exact plain_ofList rfl
  unfold shiftedByte
  dsimp only
  split
  · exact hread
  · exact plain_append.mpr ⟨plain_append.mpr ⟨hread, by decide⟩, plain_repr _⟩

theorem plain_patternOfBytes (kind : ScalarKind) : Plain (patternOfBytes kind byteAt) := by
  unfold patternOfBytes
  split
  · exact plain_append.mpr ⟨plain_append.mpr ⟨by decide, hbyte 0⟩, by decide⟩
  · refine plain_intercalate (by decide) fun part hpart => ?_
    obtain ⟨index, -, rfl⟩ := List.mem_map.mp hpart
    exact plain_shiftedByte hbyte _ index

theorem plain_scalarOfBytes {type : ScalarType} (h : ∀ name ∈ type.aliasName, Plain name) :
    Plain (scalarOfBytes type byteAt) := by
  have hpattern := plain_patternOfBytes hbyte type.kind
  have hname := plain_typeName h
  have hfloat : Plain s!"{type.kind.name}::from_bits({patternOfBytes type.kind byteAt})" := by
    simp only [toString, plain_append, plain_kindName, hpattern, true_and, and_true]
    and_intros <;> exact plain_ofList rfl
  unfold scalarOfBytes
  dsimp only
  split
  · split
    · rename_i name halias
      exact plain_append.mpr ⟨plain_append.mpr ⟨hfloat, by decide⟩, h name halias⟩
    · exact hfloat
  · split
    · exact hpattern
    · split
      · exact plain_append.mpr ⟨plain_append.mpr ⟨hpattern, by decide⟩, hname⟩
      · simp only [toString, plain_append, hpattern, hname, and_true]
        and_intros <;> exact plain_ofList rfl

end Bytes

theorem plain_elementPlace (offset size : Nat) : Plain (elementPlace offset size) := by
  have hscaled : Plain (if size = 1 then "i" else s!"i * {size}") := by
    split
    · decide
    · exact plain_append.mpr ⟨by decide, plain_repr size⟩
  unfold elementPlace
  dsimp only
  split
  · exact hscaled
  · exact plain_append.mpr ⟨plain_append.mpr ⟨plain_repr offset, by decide⟩, hscaled⟩

theorem plain_behindPlace (index : Nat) : Plain (behindPlace index) := by
  unfold behindPlace
  split
  · decide
  · exact plain_append.mpr ⟨by decide, plain_repr index⟩

theorem plain_patternOfScalar {type : ScalarType} {value : String} (h : Plain value) :
    Plain (patternOfScalar type value) := by
  unfold patternOfScalar
  split
  · exact plain_append.mpr ⟨h, by decide⟩
  · split
    · exact h
    · exact plain_append.mpr ⟨plain_append.mpr ⟨h, by decide⟩, plain_kindName _⟩

theorem plain_appendPattern (kind : ScalarKind) : Plain (appendPattern kind) := by
  unfold appendPattern
  split
  · exact plain_ofList rfl
  · refine plain_append.mpr ⟨plain_append.mpr ⟨plain_ofList rfl, ?_⟩, plain_ofList rfl⟩
    refine plain_intercalate (by decide) fun part hpart => ?_
    obtain ⟨index, -, rfl⟩ := List.mem_map.mp hpart
    unfold byteOfPattern
    split
    · exact plain_ofList rfl
    · exact plain_append.mpr
        ⟨plain_append.mpr ⟨plain_ofList rfl, plain_repr _⟩, plain_ofList rfl⟩

/-! ## Lines -/

theorem plain_newError {kind message : String} (hk : Plain kind) (hm : Plain message) :
    Plain (newError kind message) := by
  unfold newError
  simp only [toString, plain_append, hk, hm, and_true]
  and_intros <;> exact plain_ofList rfl

theorem laid_countLines {field value errorKind : String} (hf : Plain field) (hv : Plain value)
    (he : Plain errorKind) : Laid Plain (countLines field value errorKind) := by
  have hmessage : Plain s!"\"length of '{field}' is out of range\"" := by
    simp only [toString, plain_append, hf, and_true]
    and_intros <;> exact plain_ofList rfl
  refine .line ?_ (.nest (.line (plain_ofList rfl) (.singleton ?_)) .nil)
  · simp only [toString, plain_append, hf, hv, and_true]
    and_intros <;> exact plain_ofList rfl
  · exact plain_append.mpr
      ⟨plain_append.mpr ⟨plain_ofList rfl, plain_newError he hmessage⟩, plain_ofList rfl⟩

theorem laid_countedReadLines {field : String} (hf : Plain field) (unit : Nat) :
    Laid Plain (countedReadLines field unit) := by
  have hbytes : Plain s!"nbytes_{field}" := plain_append.mpr ⟨plain_ofList rfl, hf⟩
  have herror : Plain (newError "InvalidData" s!"\"byte length of '{field}' overflows usize\"") := by
    refine plain_newError (plain_ofList rfl) ?_
    simp only [toString, plain_append, hf, and_true]
    and_intros <;> exact plain_ofList rfl
  refine .line ?_ (.block (plain_ofList rfl) (.line (plain_ofList rfl)
    (.block ?_ (.line ?_ ?_) (plain_ofList rfl))) (plain_ofList rfl))
  · refine plain_append.mpr ⟨plain_append.mpr ⟨?_, herror⟩, plain_ofList rfl⟩
    simp only [toString, plain_append, plain_repr, hf, and_true]
    and_intros <;> exact plain_ofList rfl
  · simp only [toString, plain_append, hf, and_true]
    and_intros <;> exact plain_ofList rfl
  · simp only [toString, plain_append, plain_repr, hf, and_true]
    and_intros <;> exact plain_ofList rfl
  · exact (Laid.block (plain_ofList rfl) (.singleton (plain_ofList rfl)) (plain_ofList rfl)).append
      (.line (plain_ofList rfl) (.singleton (plain_ofList rfl)))

/-- The lines of a decoding step are plain if the names in it are. -/
theorem laid_decodeLines {step : DecodeStep} (h : ∀ name ∈ step.names, Plain name) :
    Laid Plain (decodeLines step) := by
  cases step with
  | scratch bytes =>
    refine .singleton ?_
    simp only [toString, plain_append, plain_repr, and_true]
    and_intros <;> exact plain_ofList rfl
  | count field length =>
    refine laid_countLines (h field (List.mem_cons_self ..)) ?_ (plain_ofList rfl)
    refine plain_checkedLength fun name hname => ?_
    have hlocal := plain_localName (h name (List.mem_cons_of_mem _ hname))
    exact plain_append.mpr ⟨plain_append.mpr ⟨plain_ofList rfl, hlocal⟩, plain_ofList rfl⟩
  | read size =>
    cases size with
    | fixed bytes =>
      refine .singleton ?_
      simp only [toString, plain_append, plain_repr, and_true]
      and_intros <;> exact plain_ofList rfl
    | counted field unit => exact laid_countedReadLines (h field (List.mem_singleton_self _)) unit
  | newArray field length elem =>
    have hlocal := plain_localName (h field (List.mem_cons_self ..))
    have helem : Plain elem.name := plain_typeName fun name hname =>
      h name (List.mem_cons_of_mem _ (Option.mem_toList.mpr hname))
    have hbinding : Plain (if length = 0 then "let" else "let mut") := by
      split <;> exact plain_ofList rfl
    refine .singleton ?_
    simp only [toString, plain_append, plain_repr, hlocal, helem, hbinding, and_true, true_and]
    and_intros <;> exact plain_ofList rfl
  | newSequence field elem =>
    have hfield := h field (List.mem_cons_self ..)
    have hlocal := plain_localName hfield
    have helem : Plain elem.name := plain_typeName fun name hname =>
      h name (List.mem_cons_of_mem _ (Option.mem_toList.mpr hname))
    refine .singleton ?_
    simp only [toString, plain_append, hfield, hlocal, helem, and_true]
    and_intros <;> exact plain_ofList rfl
  | load slot type offset =>
    have hlocal := plain_localName (h slot.name (List.mem_cons_self ..))
    have halias : ∀ name ∈ type.aliasName, Plain name := fun name hname =>
      h name (List.mem_cons_of_mem _ (Option.mem_toList.mpr hname))
    have hname := plain_typeName halias
    cases slot with
    | field field =>
      have hvalue : Plain (scalarOfBytes type fun index => (offset + index).repr) :=
        plain_scalarOfBytes (fun index => plain_repr (offset + index)) halias
      rw [Slot.name] at hlocal
      refine .singleton ?_
      simp only [plain_append, hlocal, hname, hvalue, toString, and_true]
      and_intros <;> exact plain_ofList rfl
    | elements field =>
      have hvalue : Plain (scalarOfBytes type behindPlace) :=
        plain_scalarOfBytes plain_behindPlace halias
      have hplace := plain_elementPlace offset type.size
      rw [Slot.name] at hlocal
      refine .block ?_ (.line ?_ (.singleton ?_)) (plain_ofList rfl)
      · simp only [toString, plain_append, hlocal, and_true]
        and_intros <;> exact plain_ofList rfl
      · exact plain_append.mpr ⟨plain_append.mpr ⟨plain_ofList rfl, hplace⟩, plain_ofList rfl⟩
      · exact plain_append.mpr ⟨plain_append.mpr ⟨plain_ofList rfl, hvalue⟩, plain_ofList rfl⟩

theorem laid_encodeLines (stores : Bool) {step : EncodeStep} (h : ∀ name ∈ step.names, Plain name) :
    Laid Plain (encodeLines stores step) := by
  cases step with
  | count field length =>
    refine laid_countLines (h field (List.mem_cons_self ..)) ?_ (plain_ofList rfl)
    refine plain_checkedLength fun name hname => ?_
    have hown := plain_ownField (h name (List.mem_cons_of_mem _ hname))
    exact plain_append.mpr ⟨plain_append.mpr ⟨plain_ofList rfl, hown⟩, plain_ofList rfl⟩
  | checkCount field =>
    have hfield := h field (List.mem_singleton_self _)
    have hown := plain_ownField hfield
    refine .block ?_ (.singleton ?_) (plain_ofList rfl)
    · simp only [toString, plain_append, hown, hfield, and_true]
      and_intros <;> exact plain_ofList rfl
    · refine plain_append.mpr ⟨plain_append.mpr ⟨plain_ofList rfl, ?_⟩, plain_ofList rfl⟩
      refine plain_newError (plain_ofList rfl) ?_
      simp only [toString, plain_append, hown, hfield, and_true, true_and]
      and_intros <;> exact plain_ofList rfl
  | reserve fixed counted =>
    have hbinding : Plain (if stores = true then "let mut buf" else "let buf") := by
      split <;> exact plain_ofList rfl
    have hcounted : Plain (String.join (counted.map fun e =>
        s!".saturating_add(len_{e.1}.saturating_mul({e.2}))")) := by
      refine plain_join fun part hpart => ?_
      obtain ⟨⟨field, unit⟩, hmem, rfl⟩ := List.mem_map.mp hpart
      have hfield := h field (List.mem_map.mpr ⟨_, hmem, rfl⟩)
      simp only [toString, plain_append, plain_repr, hfield, and_true]
      and_intros <;> exact plain_ofList rfl
    have hcapacity := plain_append.mpr
      ⟨plain_append.mpr ⟨plain_repr fixed, plain_ofList (l := "usize".toList) rfl⟩, hcounted⟩
    exact .singleton (plain_append.mpr
      ⟨plain_append.mpr ⟨hbinding, plain_ofList rfl⟩,
        plain_append.mpr ⟨plain_append.mpr ⟨plain_ofList rfl, hcapacity⟩, plain_ofList rfl⟩⟩)
  | store slot type =>
    have hown := plain_ownField (h slot.name (List.mem_cons_self ..))
    cases slot with
    | field field =>
      have hpattern : Plain (patternOfScalar type (ownField field)) := plain_patternOfScalar hown
      refine .block (plain_ofList rfl) (.line ?_ (.singleton (plain_appendPattern _)))
        (plain_ofList rfl)
      simp only [toString, plain_append, plain_kindName, hpattern, and_true]
      and_intros <;> exact plain_ofList rfl
    | elements field =>
      have hpattern : Plain (patternOfScalar type (if type.kind.isInteger then "*e" else "e")) := by
        refine plain_patternOfScalar ?_
        split <;> exact plain_ofList rfl
      rw [Slot.name] at hown
      refine .block ?_ (.line ?_ (.singleton (plain_appendPattern _))) (plain_ofList rfl)
      · simp only [toString, plain_append, hown, and_true]
        and_intros <;> exact plain_ofList rfl
      · simp only [toString, plain_append, plain_kindName, hpattern, and_true]
        and_intros <;> exact plain_ofList rfl
  | write => exact .line (plain_ofList rfl) (.singleton (plain_ofList rfl))

/-! ## Blocks -/

def deriveMarks (style : Style) : List Mark :=
  if style.derives.isEmpty then []
  else [.line ("#[derive(" ++ String.intercalate ", " style.derives ++ ")]")]

def fieldText (f : Field) : String := s!"pub {identifier f.name}: {f.type.spelling},"

/-- Plain names, also those that the style chooses. -/
structure PlainNames (style : Style) (c : Codec) : Prop where
  read : Plain style.readName
  write : Plain style.writeName
  derives : ∀ path ∈ style.derives, Plain path
  names : ∀ name ∈ c.names, Plain name

namespace PlainNames

variable {style : Style} {c : Codec}

theorem struct (h : PlainNames style c) : Plain c.name := h.names c.name (List.mem_cons_self ..)

theorem field (h : PlainNames style c) {f : Field} (hf : f ∈ c.fields) {name : String}
    (hname : name ∈ f.names) : Plain name :=
  h.names name (Codec.mem_names_of_field hf hname)

theorem decode (h : PlainNames style c) {step : DecodeStep} (hstep : step ∈ c.decode)
    {name : String} (hname : name ∈ step.names) : Plain name :=
  h.names name (Codec.mem_names_of_decode hstep hname)

theorem encode (h : PlainNames style c) {step : EncodeStep} (hstep : step ∈ c.encode)
    {name : String} (hname : name ∈ step.names) : Plain name :=
  h.names name (Codec.mem_names_of_encode hstep hname)

theorem plain_fieldText (h : PlainNames style c) {f : Field} (hf : f ∈ c.fields) :
    Plain (fieldText f) := by
  have hname := plain_identifier (h.field hf (List.mem_cons_self ..))
  have htype : Plain f.type.spelling := plain_spelling fun name halias =>
    h.field hf (List.mem_cons_of_mem _ (List.mem_append_left _ (Option.mem_toList.mpr halias)))
  rw [fieldText]
  simp only [toString, plain_append, hname, htype, and_true]
  and_intros <;> exact plain_ofList rfl

theorem laid_fields (h : PlainNames style c) :
    Laid Plain (c.fields.map fun f => .line (fieldText f)) := by
  have hlines : c.fields.map (fun f => Mark.line (fieldText f)) =
      c.fields.flatMap fun f => [Mark.line (fieldText f)] := List.map_eq_flatMap
  rw [hlines]
  exact .flatMap fun f hf => .singleton (h.plain_fieldText hf)

theorem laid_structLines (h : PlainNames style c) : Laid Plain (structLines style c) := by
  have hderive : Laid Plain (deriveMarks style) := by
    unfold deriveMarks
    split
    · exact .nil
    · exact .singleton (plain_append.mpr ⟨plain_append.mpr ⟨plain_ofList rfl,
        plain_intercalate (plain_ofList rfl) h.derives⟩, plain_ofList rfl⟩)
  refine hderive.append (.block ?_ h.laid_fields (plain_ofList rfl))
  exact plain_append.mpr ⟨plain_append.mpr ⟨plain_ofList rfl, plain_identifier h.struct⟩,
    plain_ofList rfl⟩

/-- A struct is written as its derives, a first line, a line for each field and a last line. -/
theorem linesFrom_structLines (h : PlainNames style c) :
    linesFrom 0 (structLines style c) =
      linesFrom 0 (deriveMarks style) ++ ("pub struct " ++ identifier c.name ++ " \x7b") ::
        (c.fields.map (fun f => indentation 1 ++ fieldText f) ++ ["\x7d"]) := by
  have hfields : linesFrom 1 (c.fields.map fun f => .line (fieldText f)) =
      c.fields.map fun f => indentation 1 ++ fieldText f := by
    induction c.fields with
    | nil => rfl
    | cons f rest ih => exact congrArg (_ :: ·) ih
  have hdepth : depthAfter 0 (deriveMarks style) = 0 := by
    unfold deriveMarks
    split <;> rfl
  show linesFrom 0 (deriveMarks style ++
    block _ (c.fields.map fun f => .line (fieldText f)) _) = _
  rw [linesFrom_append, hdepth, Laid.linesFrom_block h.laid_fields, hfields, indentation_zero,
    String.empty_append, String.empty_append]

theorem laid_resultLine (h : PlainNames style c) : Laid Plain [resultLine c.fields] := by
  have hinits : ∀ init ∈ c.fields.map (fun f => s!"{identifier f.name}: {localName f.name}"),
      Plain init := by
    intro init hinit
    obtain ⟨f, hf, rfl⟩ := List.mem_map.mp hinit
    have hname : Plain f.name := h.field hf (List.mem_cons_self ..)
    exact plain_append.mpr ⟨plain_append.mpr ⟨plain_identifier hname, plain_ofList rfl⟩,
      plain_localName hname⟩
  unfold resultLine
  dsimp only
  split
  · exact .singleton (plain_ofList rfl)
  · exact .singleton (plain_append.mpr ⟨plain_append.mpr ⟨plain_ofList rfl,
      plain_intercalate (plain_ofList rfl) hinits⟩, plain_ofList rfl⟩)

/-- Plain names make plain lines in the procedure of a decoding. -/
theorem laid_decodeProcedure (h : PlainNames style c) : Laid Plain (decodeProcedure style c) := by
  have hreader : Plain (if c.decode.any DecodeStep.isRead then "r" else "_r") := by
    split <;> exact plain_ofList rfl
  refine .line ?_ (.block ?_ (Laid.append ?_ h.laid_resultLine) (plain_ofList rfl))
  · exact plain_append.mpr ⟨plain_append.mpr ⟨plain_ofList rfl, h.struct⟩, plain_ofList rfl⟩
  · simp only [toString, plain_append, h.read, hreader, and_true]
    and_intros <;> exact plain_ofList rfl
  · exact .flatMap fun step hstep => laid_decodeLines fun name hname => h.decode hstep hname

theorem laid_encodeProcedure (h : PlainNames style c) : Laid Plain (encodeProcedure style c) := by
  refine .line (plain_ofList rfl) (.block ?_ ?_ (plain_ofList rfl))
  · simp only [toString, plain_append, h.write, and_true]
    and_intros <;> exact plain_ofList rfl
  · exact .flatMap fun step hstep => laid_encodeLines _ fun name hname => h.encode hstep hname

/-- The body of the block with both procedures. -/
theorem laid_implBody (h : PlainNames style c) :
    Laid Plain ([.line "/// Bytes occupied by the fixed-size fields.",
      .line s!"pub const WIRE_FIXED_SIZE: usize = {c.fixedSize};", .blank] ++
      decodeProcedure style c ++ [.blank] ++ encodeProcedure style c) := by
  have hsize : Plain s!"pub const WIRE_FIXED_SIZE: usize = {c.fixedSize};" :=
    plain_append.mpr ⟨plain_append.mpr ⟨plain_ofList rfl, plain_repr _⟩, plain_ofList rfl⟩
  have hconst : Laid Plain [.line "/// Bytes occupied by the fixed-size fields.",
      .line s!"pub const WIRE_FIXED_SIZE: usize = {c.fixedSize};", .blank] :=
    .line (plain_ofList rfl) (.line hsize (.blank .nil))
  exact ((hconst.append h.laid_decodeProcedure).append (.blank .nil)).append h.laid_encodeProcedure

/-- Plain names make plain lines throughout an implementation. -/
theorem laid_implLines (h : PlainNames style c) : Laid Plain (implLines style c) := by
  have hlints : Plain allowedLints := plain_append.mpr ⟨plain_ofList rfl, plain_ofList rfl⟩
  refine .line ?_ (.block ?_ h.laid_implBody (plain_ofList rfl))
  · exact plain_append.mpr ⟨plain_append.mpr ⟨plain_ofList rfl, hlints⟩, plain_ofList rfl⟩
  · exact plain_append.mpr ⟨plain_append.mpr ⟨plain_ofList rfl, plain_identifier h.struct⟩,
      plain_ofList rfl⟩

end PlainNames

end Source

end WireCodec
