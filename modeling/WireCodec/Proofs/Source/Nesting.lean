import WireCodec.Proofs.Settings.Valid
import WireCodec.Proofs.Source.Framing
import WireCodec.Proofs.Source.Identifier

/-!
# Brackets and indentation of generated code

Whatever the steps of a codec are, the brackets of its text nest, and its lines are indented by the
depth at which they are written.  Each step is framed for itself, so no order of steps can spoil it.
-/

namespace WireCodec.Source

/-! ## Steps -/

theorem framed_countLines {field value errorKind : String} (hf : Balanced field)
    (hv : Balanced value) (he : Balanced errorKind) :
    Framed (countLines field value errorKind) := by
  have hmessage : Balanced s!"\"length of '{field}' is out of range\"" := hf.between fun _ => rfl
  have herror := balanced_newError he hmessage
  refine .line ?_ (.append (hf.between fun _ => rfl) hv)
    (.nest (.written (by decide) (fun _ => rfl) (.singleton ?_ (herror.between fun _ => rfl))) .nil)
  · exact starts_ofList (by decide) [_, _, _]
  · exact starts_ofList (by decide) [_, _]

theorem framed_countedReadLines {field : String} (hf : Balanced field) (unit : Nat) :
    Framed (countedReadLines field unit) := by
  have hbytes : Balanced s!"nbytes_{field}" := .append (balanced_ofList fun _ => rfl) hf
  have hmessage : Balanced s!"\"byte length of '{field}' overflows usize\"" :=
    hf.between fun _ => rfl
  have hkind : Balanced "InvalidData" := balanced_ofList fun _ => rfl
  have herror := balanced_newError hkind hmessage
  have hgrow : Framed (block "if buf.len() < end \x7b" [.line "buf.resize(end, 0);"] "\x7d") :=
    .single (starts_ofList (by decide) []) (opens_ofList fun _ => rfl)
      (.written (by decide) (fun _ => rfl) .nil)
  have hfill : Framed [.line "::std::io::Read::read_exact(r, &mut buf[filled..end])?;",
      .line "filled = end;"] :=
    .written (by decide) (fun _ => rfl) (.written (by decide) (fun _ => rfl) .nil)
  unfold countedReadLines
  dsimp only
  generalize newError "InvalidData" _ = error at herror ⊢
  generalize s!"nbytes_{field}" = bytes at hbytes ⊢
  refine .line ?_ ?_ (.single (starts_ofList (by decide) []) (opens_ofList fun _ => rfl)
    (.written (by decide) (fun _ => rfl) (.single ?_ ?_ (.line ?_ ?_ (hgrow.append hfill)))))
  · exact starts_ofList (by decide) [_, _, _, _, _, _, _, _]
  · refine balanced_of_some fun waiting => ?_
    simp only [toString, waitingAfter_append, hbytes _, hf _, balanced_repr unit _, herror _]
    repeat rw [waitingAfter_ofList]
    rfl
  · exact starts_ofList (by decide) [_, _, _]
  · exact .behind (hbytes.between fun _ => rfl) fun _ => rfl
  · exact starts_ofList (by decide) [_, _, _, _]
  · refine balanced_of_some fun waiting => ?_
    simp only [toString, waitingAfter_append, hbytes _, balanced_repr chunkSize _]
    repeat rw [waitingAfter_ofList]
    rfl

/-- The lines of a decoding step are blocks within blocks. -/
theorem framed_decodeLines {step : DecodeStep} (h : ∀ name ∈ step.names, Balanced name) :
    Framed (decodeLines step) := by
  cases step with
  | scratch bytes =>
    refine .singleton (starts_ofList (by decide) [_, _]) ?_
    exact (balanced_repr bytes).between fun _ => rfl
  | count field length =>
    refine framed_countLines (h field (List.mem_cons_self ..)) ?_ (balanced_ofList fun _ => rfl)
    refine balanced_checkedLength fun name hname => ?_
    have hlocal := balanced_localName (h name (List.mem_cons_of_mem _ hname))
    exact hlocal.between fun _ => rfl
  | read size =>
    cases size with
    | fixed bytes =>
      refine .singleton (starts_ofList (by decide) [_, _]) ?_
      exact (balanced_repr bytes).between fun _ => rfl
    | counted field unit => exact framed_countedReadLines (h field (List.mem_singleton_self _)) unit
  | newArray field length elem =>
    have hlocal := balanced_localName (h field (List.mem_cons_self ..))
    have helem : Balanced elem.name := balanced_typeName fun name hname =>
      h name (List.mem_cons_of_mem _ (Option.mem_toList.mpr hname))
    have hbinding : Balanced (if length = 0 then "let" else "let mut") := by
      split <;> exact balanced_ofList fun _ => rfl
    have hstarts : Starts (if length = 0 then "let" else "let mut") := by
      split <;> exact starts_ofList (by decide) []
    refine .singleton (hstarts.extend [_, _, _, _, _, _, _, _]) ?_
    refine balanced_of_some fun waiting => ?_
    simp only [toString, waitingAfter_append, hbinding _, hlocal _, helem _, balanced_repr length _]
    repeat rw [waitingAfter_ofList]
    rfl
  | newSequence field elem =>
    have hfield := h field (List.mem_cons_self ..)
    have hlocal := balanced_localName hfield
    have helem : Balanced elem.name := balanced_typeName fun name hname =>
      h name (List.mem_cons_of_mem _ (Option.mem_toList.mpr hname))
    refine .singleton (starts_ofList (by decide) [_, _, _, _, _]) ?_
    refine balanced_of_some fun waiting => ?_
    simp only [toString, waitingAfter_append, hfield _, hlocal _, helem _]
    repeat rw [waitingAfter_ofList]
    rfl
  | load slot type offset =>
    have hlocal := balanced_localName (h slot.name (List.mem_cons_self ..))
    have halias : ∀ name ∈ type.aliasName, Balanced name := fun name hname =>
      h name (List.mem_cons_of_mem _ (Option.mem_toList.mpr hname))
    have hname := balanced_typeName halias
    cases slot with
    | field field =>
      have hvalue : Balanced (scalarOfBytes type fun index => (offset + index).repr) :=
        balanced_scalarOfBytes (fun index => balanced_repr (offset + index)) halias
      rw [Slot.name] at hlocal
      refine .singleton (starts_ofList (by decide) [_, _, _, _, _, _]) ?_
      refine balanced_of_some fun waiting => ?_
      simp only [waitingAfter_append, hlocal _, hname _, hvalue _, toString]
      repeat rw [waitingAfter_ofList]
      rfl
    | elements field =>
      have hvalue : Balanced (scalarOfBytes type behindPlace) :=
        balanced_scalarOfBytes balanced_behindPlace halias
      have hplace := balanced_elementPlace offset type.size
      refine .single ?_ (.behind (hlocal.between fun _ => rfl) fun _ => rfl)
        (.line ?_ (hplace.between fun _ => rfl) (.singleton ?_ (hvalue.between fun _ => rfl)))
      · exact starts_ofList (by decide) [_, _, _]
      · exact starts_ofList (by decide) [_, _]
      · exact starts_ofList (by decide) [_, _]

/-- The lines that append one scalar. -/
theorem framed_storeBody (type : ScalarType) {value : String} (h : Balanced value) :
    Framed [.line s!"let v: {type.kind.unsigned.name} = {patternOfScalar type value};",
      .line (appendPattern type.kind)] := by
  have hpattern : Balanced (patternOfScalar type value) := balanced_patternOfScalar h
  have hbits : Balanced s!"let v: {type.kind.unsigned.name} = {patternOfScalar type value};" := by
    refine balanced_of_some fun waiting => ?_
    simp only [toString, waitingAfter_append, balanced_kindName _ _, hpattern _]
    repeat rw [waitingAfter_ofList]
    rfl
  have hstarts : Starts (appendPattern type.kind) := by
    unfold appendPattern
    split
    · exact starts_ofList (by decide) []
    · exact starts_ofList (by decide) [_, _]
  exact .line (starts_ofList (by decide) [_, _, _, _]) hbits
    (.singleton hstarts (balanced_appendPattern type.kind))

theorem framed_encodeLines (stores : Bool) {step : EncodeStep}
    (h : ∀ name ∈ step.names, Balanced name) : Framed (encodeLines stores step) := by
  cases step with
  | count field length =>
    refine framed_countLines (h field (List.mem_cons_self ..)) ?_ (balanced_ofList fun _ => rfl)
    refine balanced_checkedLength fun name hname => ?_
    have hown := balanced_ownField (h name (List.mem_cons_of_mem _ hname))
    exact hown.between fun _ => rfl
  | checkCount field =>
    have hfield := h field (List.mem_singleton_self _)
    have hown := balanced_ownField hfield
    have hmessage : Balanced (s!"::std::format!(\"'{field}' holds \x7b\x7d elements, " ++
        "its length expression requires \x7b\x7d\", " ++
        s!"{ownField field}.len(), len_{field})") := by
      refine balanced_of_some fun waiting => ?_
      simp only [toString, waitingAfter_append, hown _, hfield _]
      repeat rw [waitingAfter_ofList]
      rfl
    have hkind : Balanced "InvalidInput" := balanced_ofList fun _ => rfl
    have herror := balanced_newError hkind hmessage
    refine .single (starts_ofList (by decide) [_, _, _, _, _]) ?_
      (.singleton (starts_ofList (by decide) [_, _]) (herror.between fun _ => rfl))
    refine .behind ?_ fun _ => rfl
    refine balanced_of_some fun waiting => ?_
    simp only [toString, waitingAfter_append, hown _, hfield _]
    repeat rw [waitingAfter_ofList]
    rfl
  | reserve fixed counted =>
    have hbinding : Balanced (if stores = true then "let mut buf" else "let buf") := by
      split <;> exact balanced_ofList fun _ => rfl
    have hstarts : Starts (if stores = true then "let mut buf" else "let buf") := by
      split <;> exact starts_ofList (by decide) []
    have hcounted : Balanced (String.join (counted.map fun e =>
        s!".saturating_add(len_{e.1}.saturating_mul({e.2}))")) := by
      refine balanced_join fun part hpart => ?_
      obtain ⟨⟨field, unit⟩, hmem, rfl⟩ := List.mem_map.mp hpart
      have hfield := h field (List.mem_map.mpr ⟨_, hmem, rfl⟩)
      refine balanced_of_some fun waiting => ?_
      simp only [toString, waitingAfter_append, balanced_repr unit _, hfield _]
      repeat rw [waitingAfter_ofList]
      rfl
    have hfixed : Balanced s!"{fixed}usize" :=
      .append (balanced_repr fixed) (balanced_ofList fun _ => rfl)
    have hcapacity := hfixed.append hcounted
    exact .singleton (hstarts.extend [_, _]) (.append
      (hbinding.append (balanced_ofList fun _ => rfl)) (hcapacity.between fun _ => rfl))
  | store slot type =>
    have hown := balanced_ownField (h slot.name (List.mem_cons_self ..))
    cases slot with
    | field field =>
      exact .single (starts_ofList (by decide) []) (opens_ofList fun _ => rfl)
        (framed_storeBody type hown)
    | elements field =>
      have helement : Balanced (if type.kind.isInteger then "*e" else "e") := by
        split <;> exact balanced_ofList fun _ => rfl
      exact .single (starts_ofList (by decide) [_, _, _])
        (.behind (hown.between fun _ => rfl) fun _ => rfl) (framed_storeBody type helement)
  | write => exact .written (by decide) (fun _ => rfl) (.written (by decide) (fun _ => rfl) .nil)

/-! ## Codecs -/

/-- Text without brackets and line ends, as all identifiers and paths are. -/
def Inline (s : String) : Prop := ∀ c ∈ s.toList, isBracket c = false ∧ c ≠ '\n'

instance (s : String) : Decidable (Inline s) := inferInstanceAs (Decidable (∀ c ∈ _, _))

theorem Inline.balanced {s : String} (h : Inline s) : Balanced s :=
  balanced_of_free fun c hc => (h c hc).1

theorem inline_of_isWordChar {s : String} (h : ∀ c ∈ s.toList, Text.isWordChar c = true ∨ c = ':') :
    Inline s := by
  intro c hc
  rcases h c hc with hword | rfl
  · refine ⟨isBracket_eq_false (by decide) hword, ?_⟩
    rintro rfl
    exact absurd hword (by decide)
  · decide

theorem inline_of_isName {name : String} (h : Text.isName name = true) : Inline name :=
  inline_of_isWordChar fun _ hc => .inl (isWordChar_of_isName h hc)

theorem Inline.plain {s : String} (h : Inline s) : Plain s := fun hm => (h _ hm).2 rfl

/-- Names without brackets and line ends, also those that the style chooses. -/
structure InlineNames (style : Style) (c : Codec) : Prop where
  read : Inline style.readName
  write : Inline style.writeName
  derives : ∀ path ∈ style.derives, Inline path
  names : ∀ name ∈ c.names, Inline name

namespace InlineNames

variable {style : Style} {c : Codec}

/-- Names without brackets and line ends are plain. -/
theorem plain (h : InlineNames style c) : PlainNames style c where
  read := h.read.plain
  write := h.write.plain
  derives path hpath := (h.derives path hpath).plain
  names name hname := (h.names name hname).plain

theorem balanced_name (h : InlineNames style c) : Balanced c.name :=
  (h.names c.name (List.mem_cons_self ..)).balanced

theorem framed_structLines (h : InlineNames style c) : Framed (structLines style c) := by
  have hderive : Framed (deriveMarks style) := by
    have hpaths : Balanced (String.intercalate ", " style.derives) :=
      balanced_intercalate (balanced_ofList fun _ => rfl) fun path hpath =>
        (h.derives path hpath).balanced
    unfold deriveMarks
    split
    · exact .nil
    · exact .singleton (starts_ofList (by decide) [_, _]) (hpaths.between fun _ => rfl)
  have hfield : ∀ f ∈ c.fields, Framed [.line (fieldText f)] := by
    intro f hf
    have hname := balanced_identifier
      (h.names f.name (Codec.mem_names_of_field hf (List.mem_cons_self ..))).balanced
    have htype : Balanced f.type.spelling := balanced_spelling fun name halias =>
      (h.names name (Codec.mem_names_of_field hf (List.mem_cons_of_mem _
        (List.mem_append_left _ (Option.mem_toList.mpr halias))))).balanced
    refine .singleton (starts_ofList (by decide) [_, _, _, _]) ?_
    exact ((hname.between fun _ => rfl).append htype).append (balanced_ofList fun _ => rfl)
  have hfields : Framed (c.fields.map fun f => .line (fieldText f)) := by
    have hlines : c.fields.map (fun f => Mark.line (fieldText f)) =
        c.fields.flatMap fun f => [Mark.line (fieldText f)] := List.map_eq_flatMap
    rw [hlines]
    exact .flatMap hfield
  have hname := balanced_identifier h.balanced_name
  exact hderive.append (.single (starts_ofList (by decide) [_, _])
    (.behind (.append (balanced_ofList fun _ => rfl) hname) fun _ => rfl) hfields)

theorem framed_resultLine (h : InlineNames style c) : Framed [resultLine c.fields] := by
  have hinits : ∀ init ∈ c.fields.map (fun f => s!"{identifier f.name}: {localName f.name}"),
      Balanced init := by
    intro init hinit
    obtain ⟨f, hf, rfl⟩ := List.mem_map.mp hinit
    have hname : Balanced f.name :=
      (h.names f.name (Codec.mem_names_of_field hf (List.mem_cons_self ..))).balanced
    exact ((balanced_identifier hname).append (balanced_ofList fun _ => rfl)).append
      (balanced_localName hname)
  have hcomma : Balanced ", " := balanced_ofList fun _ => rfl
  have hlist := balanced_intercalate hcomma hinits
  unfold resultLine
  dsimp only
  split
  · exact .written (by decide) (fun _ => rfl) .nil
  · exact .singleton (starts_ofList (by decide) [_, _]) (hlist.between fun _ => rfl)

/-- The procedure of a decoding is framed, with all its steps inside. -/
theorem framed_decodeProcedure (h : InlineNames style c) : Framed (decodeProcedure style c) := by
  have hreader : Balanced (if c.decode.any DecodeStep.isRead then "r" else "_r") := by
    split <;> exact balanced_ofList fun _ => rfl
  have hsteps : Framed (c.decode.flatMap decodeLines) := .flatMap fun step hstep =>
    framed_decodeLines fun name hname =>
      (h.names name (Codec.mem_names_of_decode hstep hname)).balanced
  refine .line (starts_ofList (by decide) [_, _]) (h.balanced_name.between fun _ => rfl)
    (.single (starts_ofList (by decide) [_, _, _, _, _]) ?_ (hsteps.append h.framed_resultLine))
  refine .behind ?_ fun _ => rfl
  refine balanced_of_some fun waiting => ?_
  simp only [toString, waitingAfter_append, h.read.balanced _, hreader _]
  repeat rw [waitingAfter_ofList]
  rfl

theorem framed_encodeProcedure (h : InlineNames style c) : Framed (encodeProcedure style c) := by
  have hsteps : Framed (c.encode.flatMap (encodeLines (c.encode.any EncodeStep.isStore))) :=
    .flatMap fun step hstep => framed_encodeLines _ fun name hname =>
      (h.names name (Codec.mem_names_of_encode hstep hname)).balanced
  refine .written (by decide) (fun _ => rfl)
    (.single (starts_ofList (by decide) [_, _, _]) ?_ hsteps)
  exact .behind (h.write.balanced.between fun _ => rfl) fun _ => rfl

theorem framed_implLines (h : InlineNames style c) : Framed (implLines style c) := by
  have hlints : Balanced allowedLints :=
    .append (balanced_ofList fun _ => rfl) (balanced_ofList fun _ => rfl)
  have hconst : Framed [.line "/// Bytes occupied by the fixed-size fields.",
      .line s!"pub const WIRE_FIXED_SIZE: usize = {c.fixedSize};", .blank] :=
    .written (by decide) (fun _ => rfl) (.line (starts_ofList (by decide) [_, _])
      ((balanced_repr _).between fun _ => rfl) (.blank .nil))
  have hbody := ((hconst.append h.framed_decodeProcedure).append (.blank .nil)).append
    h.framed_encodeProcedure
  have hname := balanced_identifier h.balanced_name
  exact .line (starts_ofList (by decide) [_, _]) (hlints.between fun _ => rfl)
    (.single (starts_ofList (by decide) [_, _])
      (.behind (.append (balanced_ofList fun _ => rfl) hname) fun _ => rfl) hbody)

end InlineNames

/-- Words are such names, and so are those that valid settings add. -/
theorem inlineNames_of_valid {s : Settings} (h : s.Valid) {c : Codec}
    (hnames : ∀ name ∈ c.names, Text.isName name = true) : InlineNames s.style c where
  read := inline_of_isName h.readName
  write := inline_of_isName h.writeName
  derives path hpath := inline_of_isWordChar fun _ hc => mem_isWordPath (h.derives path hpath) hc
  names name hname := inline_of_isName (hnames name hname)

/-- Brackets nest in the text of any codec, whatever its steps are, and its lines are indented by
the depth at which they are written. -/
theorem codecText_nested {style : Style} {c : Codec} (h : InlineNames style c)
    (withStruct : Bool) :
    Nested (codecText style withStruct c).toList ∧
    WellIndented (structLines style c) ∧ WellIndented (implLines style c) ∧
    Text.split '\n' (codecText style withStruct c) =
      (if withStruct then linesFrom 0 (structLines style c) ++ [""] else []) ++
        linesFrom 0 (implLines style c) ++ [""] := by
  have hstruct := h.framed_structLines.wellIndented h.plain.laid_structLines
  have himpl := h.framed_implLines.wellIndented h.plain.laid_implLines
  have hstructText : Balanced (structText style c) := h.framed_structLines.balanced_layoutFrom 0
  have himplText : Balanced (implText style c) := h.framed_implLines.balanced_layoutFrom 0
  cases withStruct with
  | false => exact ⟨himplText.nested, hstruct, himpl, himpl.lines⟩
  | true =>
    have htext : Balanced (structText style c ++ "\n" ++ implText style c) :=
      (hstructText.append (balanced_ofList fun _ => rfl)).append himplText
    refine ⟨htext.nested, hstruct, himpl, ?_⟩
    show Text.split '\n' (structText style c ++ "\n" ++ implText style c) = _
    have hlines :
        Text.split '\n' (structText style c) = linesFrom 0 (structLines style c) ++ [""] :=
      hstruct.lines
    rw [Text.split_append, hlines, List.append_assoc _ (linesFrom 0 (implLines style c))]
    exact congrArg (_ ++ ·) himpl.lines

/-- Steps that no struct has in this order are written all the same. -/
theorem codecText_nested_shuffled :
    let c : Codec :=
      { name := "Packet"
        fields := [⟨"gen", .sequence ⟨some "Celsius", .f32⟩ (.field "gen")⟩]
        groups := []
        decode := [.load (.elements "gen") ⟨some "Celsius", .f32⟩ 3, .read (.counted "other" 2),
          .count "gen" (.binary .sub (.field "gen") (.const 1)), .scratch 7]
        encode := [.write, .store (.field "other") ⟨none, .u16⟩, .checkCount "gen",
          .reserve 1 [("gen", 4)]]
        fixedSize := 9 }
    InlineNames Settings.standard.style c ∧
    Nested (codecText Settings.standard.style true c).toList ∧
    WellIndented (implLines Settings.standard.style c) := by
  intro c
  have hnames : InlineNames Settings.standard.style c :=
    inlineNames_of_valid Settings.standard_valid (by decide +kernel)
  obtain ⟨hnested, -, himpl, -⟩ := codecText_nested hnames true
  exact ⟨hnames, hnested, himpl⟩

end WireCodec.Source
