import WireCodec.Proofs.Aliases.Renaming
import WireCodec.Proofs.Settings.Valid
import WireCodec.Proofs.Source.File
import WireCodec.Proofs.Source.Identifier

/-!
# How aliases are spelled

A file declares its aliases as identifiers, in raw form where they are keywords, and uses them by
their bare names.  So there is one spelling for both only while no alias that is reached is a keyword;
and since an alias may also be called like a path, a file without keywords is still not always legal.
-/

namespace WireCodec

/-- Other names for aliases that are the same names. -/
theorem Codec.realias_some (c : Codec) : c.realias some = c := by
  have htype (type : ScalarType) : type.realias some = type := by
    obtain ⟨_ | name, kind⟩ := type <;> rfl
  have hfield (f : Field) : f.realias some = f := by
    obtain ⟨name, type⟩ := f
    cases type <;> simp only [Field.realias, WireType.realias, htype]
  have hdecode (step : DecodeStep) : step.realias some = step := by
    cases step <;> simp only [DecodeStep.realias, htype]
  have hencode (step : EncodeStep) : step.realias some = step := by
    cases step <;> simp only [EncodeStep.realias, htype]
  simp only [realias, funext hfield, funext hdecode, funext hencode, List.map_id']

namespace Source

def aliasItem (spelling : String) (kind : ScalarKind) : String :=
  s!"#[allow(dead_code)]\npub type {spelling} = {kind.name};\n"

/-- A file of codecs spells its aliases in one way: they are declared under legal identifiers, and
the sections are those of codecs whose aliases have these identifiers for names. -/
structure File.Spells (f : File) (codecs : List Codec) (spell : String → String) : Prop where
  legal : ∀ e ∈ f.aliasesInOrder, LegalIdentifier (spell e.1)
  declared : ∀ e ∈ f.aliasesInOrder, aliasText e.1 e.2 = aliasItem (spell e.1) e.2
  used : f.sections = codecs.map fun c => f.sectionOf (c.realias fun name => some (spell name))

theorem aliasText_eq_aliasItem {name spelling : String} {kind : ScalarKind} :
    aliasText name kind = aliasItem spelling kind ↔ identifier name = spelling := by
  show aliasItem (identifier name) kind = aliasItem spelling kind ↔ _
  refine ⟨fun h => ?_, fun h => by rw [h]⟩
  exact (String.append_right_inj _).mp
    ((String.append_left_inj _).mp ((String.append_left_inj _).mp ((String.append_left_inj _).mp h)))

/-! ## Sections -/

/-- A section shows how the aliases of its fields are spelled. -/
theorem spell_of_sectionLines {style : Style} {c : Codec} {spell : String → String}
    (hplain : PlainNames style c)
    (hspelled : PlainNames style (c.realias fun name => some (spell name)))
    (h : sectionLines style c = sectionLines style (c.realias fun name => some (spell name)))
    {f : Field} (hf : f ∈ c.fields) {name : String} (halias : f.type.element.aliasName = some name) :
    spell name = name := by
  -- The definitions start alike and have a line for each field.
  have hlines := (List.cons.inj h).2
  rw [hplain.linesFrom_structLines, hspelled.linesFrom_structLines, List.append_assoc,
    List.append_assoc, List.cons_append, List.cons_append, List.append_assoc, List.append_assoc]
    at hlines
  have hfields := (List.cons.inj (List.append_cancel_left hlines)).2
  have hall := (List.append_inj hfields (by simp [Codec.realias])).1
  rw [Codec.realias, List.map_map, List.map_inj_left] at hall
  have hline : fieldText f = fieldText (f.realias fun name => some (spell name)) :=
    (String.append_right_inj _).mp (hall f hf)
  have htype : f.type.spelling = (f.type.realias fun name => some (spell name)).spelling :=
    (String.append_right_inj _).mp ((String.append_left_inj _).mp hline)
  have hname {type : ScalarType} (ha : type.aliasName = some name)
      (heq : type.name = (type.realias fun name => some (spell name)).name) : spell name = name := by
    rw [ScalarType.realias, ScalarType.name, ScalarType.name, ha] at heq
    exact heq.symm
  generalize f.type = type at halias htype
  cases type with
  | scalar type => exact hname halias htype
  | array elem length fits =>
    have hopen := (String.append_left_inj _).mp ((String.append_left_inj _).mp
      ((String.append_left_inj _).mp htype))
    exact hname halias ((String.append_right_inj "[").mp hopen)
  | sequence elem length =>
    exact hname halias ((String.append_right_inj "Vec<").mp ((String.append_left_inj _).mp htype))

/-- Codecs keep plain names when their aliases get plain names. -/
theorem PlainNames.realias {style : Style} {s : StructType} (h : PlainNames style s.compile)
    {spell : String → String}
    (hspell : ∀ f ∈ s.fields, ∀ name, f.type.element.aliasName = some name → Plain (spell name)) :
    PlainNames style (s.compile.realias fun name => some (spell name)) where
  read := h.read
  write := h.write
  derives := h.derives
  names name hname := by
    rw [← StructType.compile_realias] at hname
    rcases StructType.names_compile hname with rfl | ⟨_, hmem, hname⟩
    · exact h.struct
    · obtain ⟨f, hf, rfl⟩ := List.mem_map.mp hmem
      rcases Field.mem_names.mp hname with rfl | halias | hlength
      · exact h.field hf (Field.mem_names.mpr (.inl rfl))
      · rw [Field.realias, WireType.element_realias] at halias
        obtain ⟨a, ha, hspelled⟩ := Option.bind_eq_some_iff.mp halias
        rw [← Option.some.inj hspelled]
        exact hspell f hf a ha
      · rw [Field.realias, WireType.references_realias] at hlength
        exact h.field hf (Field.mem_names.mpr (.inr (.inr hlength)))

theorem plain_of_legal {name : String} (h : LegalIdentifier name) : Plain name :=
  fun hm => absurd (h.isIdentifierChar hm) (by decide)

/-! ## Files -/

section Files

variable {schema : Schema} {settings : Settings} {types : List StructType}
  (hchecked : schema.Checked) (hbound : schema.Bound settings.selection types)
include hchecked hbound

/-- While every alias that is reached can be spelled by its own name, a file spells it so. -/
theorem spells_of_free (hfree : ∀ name, schema.Reaches settings.selection name →
      name ∉ keywords ∧ name ∉ Text.reservedPaths) :
    (File.ofCodecs settings.style true (types.map StructType.compile)).Spells
      (types.map StructType.compile) id where
  legal e he := by
    have hreaches := (mem_aliasesInOrder hbound).mp (List.mem_map.mpr ⟨e, he, rfl⟩)
    exact (legalIdentifier_iff (Schema.isName_of_reaches hchecked hreaches)).mpr (hfree _ hreaches)
  declared e he := by
    have hreaches := (mem_aliasesInOrder hbound).mp (List.mem_map.mpr ⟨e, he, rfl⟩)
    exact aliasText_eq_aliasItem.mpr (identifier_of_not_mem (hfree _ hreaches).1)
  used := by
    refine (sections_ofCodecs _ _ _).trans (List.map_congr_left fun c _ => ?_)
    exact congrArg _ c.realias_some.symm

/-- Where a file spells an alias as it declares it, the alias is no keyword. -/
theorem free_of_spells (hvalid : settings.Valid) {spell : String → String}
    (hspells : (File.ofCodecs settings.style true (types.map StructType.compile)).Spells
      (types.map StructType.compile) spell)
    {name : String} (hreaches : schema.Reaches settings.selection name) :
    name ∉ keywords ∧ name ∉ Text.reservedPaths := by
  have hlegal {a : String} (ha : schema.Reaches settings.selection a) :
      LegalIdentifier (spell a) := by
    obtain ⟨e, he, rfl⟩ := List.mem_map.mp ((mem_aliasesInOrder hbound).mpr ha)
    exact hspells.legal e he
  obtain ⟨s, hs, f, hf, halias⟩ := (Schema.reaches_iff hbound).mp hreaches
  -- The section of a struct that uses the alias shows its own name.
  have hplain : PlainNames settings.style s.compile :=
    hvalid.plainNames fun n hn => Schema.isName_of_mem_names hchecked hbound hs hn
  have hspelled := hplain.realias fun g hg a ha =>
    plain_of_legal (hlegal ((Schema.reaches_iff hbound).mpr ⟨s, hs, g, hg, ha⟩))
  have hsection := hspells.used
  rw [sections_ofCodecs, List.map_inj_left] at hsection
  have htext := hsection s.compile (List.mem_map.mpr ⟨s, hs, rfl⟩)
  rw [File.sectionOf_eq (withStructs_ofCodecs _ _ _), File.sectionOf_eq (withStructs_ofCodecs _ _ _),
    style_ofCodecs] at htext
  have hlines := unlines_injective hplain.plain_sectionLines hspelled.plain_sectionLines htext
  have hname : spell name = name := spell_of_sectionLines hplain hspelled hlines hf halias
  have hspell := hlegal hreaches
  rw [hname] at hspell
  exact (legalIdentifier_iff (Schema.isName_of_reaches hchecked hreaches)).mp hspell

end Files

/-- Of a schema that was read, a generator with valid settings makes a file in which aliases are
spelled alike where they are declared and where they are used, and legally, exactly when no alias
that is reached is a keyword or stands for the enclosing item. -/
theorem exists_spells_iff {format : FileFormat} {text path source : String} {schema : Schema}
    {settings : Settings} {report : Report} (hparse : Schema.parse format text = .ok schema)
    (hvalid : settings.validate = .ok ()) (hstructs : settings.emitStructs = true)
    (hrun : Generator.sourceOf settings path schema = .ok (report, source)) :
    ∃ codecs file, schema.compile settings.selection = .ok codecs ∧
      file = File.ofCodecs settings.style true codecs ∧
      source = file.text ((Path.fileName? path).getD path) ∧
      ((∃ spell, file.Spells codecs spell) ↔
        ∀ name, schema.Reaches settings.selection name →
          name ∉ keywords ∧ name ∉ Text.reservedPaths) := by
  obtain ⟨types, hbound, hcompile, hsource⟩ := Generator.of_sourceOf hrun
  rw [hstructs] at hsource
  have hchecked := Schema.checked_of_parse hparse
  refine ⟨types.map StructType.compile, _, hcompile, rfl, hsource, ?_, ?_⟩
  · rintro ⟨spell, hspells⟩ name hreaches
    exact free_of_spells hchecked hbound (Settings.validate_eq_ok.mp hvalid) hspells hreaches
  · exact fun hfree => ⟨id, spells_of_free hchecked hbound hfree⟩

theorem exists_spells_iff_count :
    ∃ report source, Generator.sourceOf .standard "s.toml"
        (Schema.small "Count" "u16" "Packet" "total") = .ok (report, source) ∧
      ∃ codecs file, (Schema.small "Count" "u16" "Packet" "total").compile .all = .ok codecs ∧
        file = File.ofCodecs Style.standard true codecs ∧ source = file.text "s.toml" ∧
        ∃ spell, file.Spells codecs spell := by
  obtain ⟨codecs, hcompile⟩ : ∃ codecs, (Schema.small "Count" "u16" "Packet" "total").compile
      Settings.standard.selection = .ok codecs := ⟨_, rfl⟩
  have hrun := Generator.sourceOf_of_compile "s.toml" hcompile
  obtain ⟨codecs, file, hcodecs, hfile, hsource, hspells⟩ :=
    exists_spells_iff parse_smallText_count rfl rfl hrun
  refine ⟨_, _, hrun, codecs, file, hcodecs, hfile, hsource, hspells.mpr ?_⟩
  intro name hreaches
  obtain rfl := (Schema.reaches_small rfl).mp hreaches
  decide

theorem parse_smallText_type :
    Schema.parse .toml (Schema.smallText "type" "u8" "Packet" "kind") =
      .ok (Schema.small "type" "u8" "Packet" "kind") := by
  decide +kernel

/-- An alias called `type` has two spellings. -/
theorem not_exists_spells_type :
    ∃ schema codecs, Schema.parse .toml (Schema.smallText "type" "u8" "Packet" "kind") =
        .ok schema ∧ Settings.standard.validate = .ok () ∧
      schema.compile Settings.standard.selection = .ok codecs ∧
      (∃ report, Generator.sourceOf .standard "s.toml" schema =
        .ok (report, (File.ofCodecs Style.standard true codecs).text "s.toml")) ∧
      ¬∃ spell, (File.ofCodecs Style.standard true codecs).Spells codecs spell := by
  obtain ⟨codecs, hcompile⟩ : ∃ codecs, (Schema.small "type" "u8" "Packet" "kind").compile
      Settings.standard.selection = .ok codecs := ⟨_, rfl⟩
  obtain ⟨types, hbound, rfl⟩ := Schema.bound_of_compile hcompile
  refine ⟨_, _, parse_smallText_type, rfl, hcompile,
    ⟨_, Generator.sourceOf_of_compile "s.toml" hcompile⟩, ?_⟩
  rintro ⟨spell, hspells⟩
  have hreaches : (Schema.small "type" "u8" "Packet" "kind").Reaches
      Settings.standard.selection "type" := (Schema.reaches_small rfl).mpr rfl
  have hvalid : Settings.standard.Valid := Settings.validate_eq_ok.mp rfl
  have hfree := free_of_spells (Schema.checked_of_parse parse_smallText_type) hbound hvalid hspells
    hreaches
  exact hfree.1 (by decide)

end Source

end WireCodec
