import Mathlib.Data.List.Nodup
import WireCodec.Proofs.Source.File
import WireCodec.Proofs.Source.Identifier
import WireCodec.Proofs.Settings.Valid

/-!
# Names that a generated file declares

The items of a file are read off its text: a line without indentation that starts as the declaration
of a type declares the word behind.  Each alias that is reached is declared once, and so is each
selected struct, but aliases and structs share their names with each other.
-/

namespace WireCodec.Source

def typeKeywords : List String := ["pub type ", "pub struct "]

/-- The name that a line declares, if it declares a type. -/
def declaredName? (line : String) : Option String :=
  typeKeywords.findSome? fun keyword =>
    (line.toList.dropPrefix? keyword.toList).map fun rest =>
      String.ofList (rest.takeWhile isIdentifierChar)

/-- The names of the types that are declared at the outermost level of a text, in order. -/
def declaredNames (text : String) : List String :=
  (Text.split '\n' text).filterMap declaredName?

/-! ## Lines -/

def aliasLine (name : String) (kind : ScalarKind) : String :=
  s!"pub type {identifier name} = {kind.name};"

/-- The identifier ends at a blank. -/
theorem takeWhile_identifier {name : String} (h : Text.isName name = true) (rest : List Char) :
    ((identifier name).toList ++ ' ' :: rest).takeWhile isIdentifierChar =
      (identifier name).toList := by
  rw [List.takeWhile_append_of_pos fun c hc => isIdentifierChar_identifier h hc]
  simp [show isIdentifierChar ' ' = false from rfl]

/-- The line of an alias declares the alias. -/
theorem declaredName?_aliasLine {name : String} (h : Text.isName name = true) (kind : ScalarKind) :
    declaredName? (aliasLine name kind) = some (identifier name) := by
  have hchars : (aliasLine name kind).toList = "pub type ".toList ++ ((identifier name).toList ++
      ' ' :: ("= ".toList ++ kind.name.toList ++ [';'])) := by
    simp [aliasLine, toString]
  rw [declaredName?, hchars, typeKeywords, List.findSome?_cons,
    List.dropPrefix?_append_of_beq _ (beq_self_eq_true _), Option.map_some,
    takeWhile_identifier h, String.ofList_toList]

theorem declaredName?_struct {name : String} (h : Text.isName name = true) :
    declaredName? ("pub struct " ++ identifier name ++ " \x7b") = some (identifier name) := by
  have hchars : ("pub struct " ++ identifier name ++ " \x7b").toList =
      "pub struct ".toList ++ ((identifier name).toList ++ ' ' :: ['\x7b']) := by simp
  have htype (tail : List Char) :
      ("pub struct ".toList ++ tail).dropPrefix? "pub type ".toList = none := rfl
  rw [declaredName?, hchars, typeKeywords, List.findSome?_cons, htype, Option.map_none,
    List.findSome?_cons, List.dropPrefix?_append_of_beq _ (beq_self_eq_true _), Option.map_some,
    takeWhile_identifier h, String.ofList_toList]

/-- A line that declares a type starts with the first letter of `pub`. -/
theorem declaredName?_eq_none {line : String} (h : line.toList.head? ≠ some 'p') :
    declaredName? line = none := by
  rw [declaredName?, List.findSome?_eq_none_iff]
  intro keyword hkeyword
  rw [Option.map_eq_none_iff, Option.eq_none_iff_forall_ne_some]
  intro rest hrest
  obtain ⟨start, hline, hstart⟩ := List.dropPrefix?_eq_some_iff.mp hrest
  rw [hline, eq_of_beq hstart] at h
  simp only [typeKeywords, List.mem_cons, List.not_mem_nil, or_false] at hkeyword
  rcases hkeyword with rfl | rfl <;> exact h rfl

/-- Nothing that is indented declares a type. -/
theorem declared_indented {good : String → Prop} {marks : List Mark} (h : Laid good marks)
    (depth : Nat) : (linesFrom (depth + 1) marks).filterMap declaredName? = [] := by
  refine List.filterMap_eq_nil_iff.mpr fun l hl => declaredName?_eq_none ?_
  rcases h.of_mem_linesFrom hl with rfl | ⟨text, deeper, -, rfl⟩
  · decide
  · rw [Nat.add_right_comm, indentation, Nat.mul_succ]
    simp [List.replicate_succ]

/-- A block declares what its first and last lines declare. -/
theorem declared_block {good : String → Prop} {body : List Mark} (h : Laid good body)
    (opening closing : String) :
    (linesFrom 0 (block opening body closing)).filterMap declaredName? =
      [opening, closing].filterMap declaredName? := by
  rw [h.linesFrom_block, indentation_zero, String.empty_append, String.empty_append,
    ← List.singleton_append, List.filterMap_append, List.filterMap_append, declared_indented h,
    List.nil_append, ← List.filterMap_append, List.singleton_append]

/-! ## Sections and aliases -/

/-- Of all the lines of a section one declares a name: that of the struct. -/
theorem PlainNames.declared_sectionLines {style : Style} {c : Codec} (h : PlainNames style c)
    (hname : Text.isName c.name = true) :
    (sectionLines style c).filterMap declaredName? = [identifier c.name] := by
  have nothing {line : String} (hline : line.toList.head? ≠ some 'p') (rest : List String) :
      (line :: rest).filterMap declaredName? = rest.filterMap declaredName? := by
    rw [List.filterMap_cons, declaredName?_eq_none hline]
  have hderive : (linesFrom 0 (deriveMarks style)).filterMap declaredName? = [] ∧
      depthAfter 0 (deriveMarks style) = 0 := by
    unfold deriveMarks
    split
    · exact ⟨rfl, rfl⟩
    · refine ⟨(nothing ?_ []).trans rfl, rfl⟩
      simp [indentation_zero]
  -- What is inside the two blocks is indented, so only their first lines count.
  have hstruct : (linesFrom 0 (structLines style c)).filterMap declaredName? =
      [identifier c.name] := by
    show (linesFrom 0 (deriveMarks style ++
      block _ (c.fields.map fun f => .line (fieldText f)) _)).filterMap declaredName? = _
    rw [linesFrom_append, List.filterMap_append, hderive.1, hderive.2, declared_block h.laid_fields,
      List.nil_append, List.filterMap_cons, declaredName?_struct hname]
    rfl
  have himpl : (linesFrom 0 (implLines style c)).filterMap declaredName? = [] := by
    show (_ :: linesFrom 0 (block _ _ _)).filterMap declaredName? = []
    rw [nothing (by simp [indentation_zero]), declared_block h.laid_implBody,
      nothing (by simp), nothing (by simp)]
    rfl
  rw [sectionLines, nothing (by decide), List.filterMap_append, hstruct, nothing (by decide), himpl]
  rfl

/-- The lines of an alias, behind a blank one. -/
def aliasLines (e : String × ScalarKind) : List String :=
  ["", "#[allow(dead_code)]", aliasLine e.1 e.2]

theorem unlines_aliasLines (e : String × ScalarKind) :
    unlines (aliasLines e) = "\n" ++ aliasText e.1 e.2 := by
  have hopen : "#[allow(dead_code)]\npub type " = "#[allow(dead_code)]" ++ "\n" ++ "pub type " := rfl
  have hclose : ";\n" = ";" ++ "\n" := rfl
  show _ = "\n" ++ ("#[allow(dead_code)]\npub type " ++ identifier e.1 ++ " = " ++ e.2.name ++ ";\n")
  rw [hopen, hclose, aliasLines, unlines_cons, unlines_cons, unlines_cons, unlines_nil,
    String.append_empty, String.empty_append, aliasLine]
  simp only [String.append_assoc]
  rfl

theorem plain_aliasLines {e : String × ScalarKind} (h : Text.isName e.1 = true) :
    ∀ l ∈ aliasLines e, Plain l := by
  intro l hl
  simp only [aliasLines, List.mem_cons, List.not_mem_nil, or_false] at hl
  rcases hl with rfl | rfl | rfl
  · exact plain_ofList rfl
  · exact plain_ofList rfl
  · have hname := plain_identifier (plain_of_isName h)
    rw [aliasLine]
    simp only [toString, plain_append, plain_kindName, hname, and_true]
    and_intros <;> exact plain_ofList rfl

theorem declared_aliasLines {e : String × ScalarKind} (h : Text.isName e.1 = true) :
    (aliasLines e).filterMap declaredName? = [identifier e.1] := by
  rw [aliasLines, List.filterMap_cons, declaredName?_eq_none (by decide), List.filterMap_cons,
    declaredName?_eq_none (by decide), List.filterMap_cons, declaredName?_aliasLine h]
  rfl

/-! ## Files -/

/-- The lines of a file behind its header. -/
def itemLines (style : Style) (aliases : List (String × ScalarKind)) (codecs : List Codec) :
    List String :=
  aliases.flatMap aliasLines ++ codecs.flatMap fun c => "" :: sectionLines style c

theorem unlines_flatMap {α : Type} (items : List α) (lines : α → List String) :
    unlines (items.flatMap lines) = String.join (items.map fun item => unlines (lines item)) := by
  induction items with
  | nil => rfl
  | cons item rest ih => rw [List.flatMap_cons, unlines_append, ih, List.map_cons, String.join_cons]

/-- The remark in front of definitions is two lines. -/
theorem File.header_eq {f : File} (hstructs : f.withStructs = true) (source : String) :
    f.header source = "// Code generated by structwire-gen; DO NOT EDIT." ++ "\n" ++
      ("// Source: " ++ source ++ "\n") := by
  have hopen : "// Code generated by structwire-gen; DO NOT EDIT.\n// Source: " =
      "// Code generated by structwire-gen; DO NOT EDIT." ++ "\n" ++ "// Source: " := rfl
  unfold header
  rw [if_pos hstructs]
  show "// Code generated by structwire-gen; DO NOT EDIT.\n// Source: " ++ source ++ "\n" ++ "" = _
  rw [hopen, String.append_empty]
  simp only [String.append_assoc]

theorem File.text_eq {f : File} {codecs : List Codec} (hstructs : f.withStructs = true)
    (hsections : f.sections = codecs.map f.sectionOf) (source : String) :
    f.text source = f.header source ++ unlines (itemLines f.style f.aliasesInOrder codecs) := by
  have haliases : (fun e => unlines (aliasLines e)) =
      fun e => "\n" ++ aliasText e.1 e.2 := funext unlines_aliasLines
  have hcodecs : (fun c => unlines ("" :: sectionLines f.style c)) = ("\n" ++ ·) ∘ f.sectionOf := by
    funext c
    rw [unlines_cons, String.empty_append, Function.comp_apply, sectionOf_eq hstructs]
  rw [itemLines, unlines_append, unlines_flatMap, unlines_flatMap, haliases, hcodecs, text,
    hsections, List.map_map, String.append_assoc]

theorem declaredNames_append (a b : String) :
    declaredNames (a ++ "\n" ++ b) = declaredNames a ++ declaredNames b := by
  rw [declaredNames, Text.split_append, List.filterMap_append, declaredNames, declaredNames]

/-- The names that a text declares are found line by line. -/
theorem declaredNames_unlines {lines : List String} (h : ∀ l ∈ lines, Plain l) :
    declaredNames (unlines lines) = lines.filterMap declaredName? := by
  have hsplit := Text.split_unlines h ""
  rw [String.append_empty] at hsplit
  rw [declaredNames, hsplit, List.filterMap_append]
  exact List.append_nil _

theorem declared_flatMap {α : Type} {items : List α} {lines : α → List String} {name : α → String}
    (h : ∀ item ∈ items, (lines item).filterMap declaredName? = [name item]) :
    (items.flatMap lines).filterMap declaredName? = items.map name := by
  induction items with
  | nil => rfl
  | cons item rest ih =>
    rw [List.flatMap_cons, List.filterMap_append, h item (List.mem_cons_self ..),
      ih fun other hother => h other (List.mem_cons_of_mem _ hother)]
    rfl

/-- Each alias declares its name, and so does each codec. -/
theorem declaredNames_itemLines {style : Style} {aliases : List (String × ScalarKind)}
    {codecs : List Codec} (haliases : ∀ e ∈ aliases, Text.isName e.1 = true)
    (hplain : ∀ c ∈ codecs, PlainNames style c)
    (hnames : ∀ c ∈ codecs, Text.isName c.name = true) :
    declaredNames (unlines (itemLines style aliases codecs)) =
      aliases.map (fun e => identifier e.1) ++ codecs.map fun c => identifier c.name := by
  have hcodecs : ∀ c ∈ codecs,
      ("" :: sectionLines style c).filterMap declaredName? = [identifier c.name] := by
    intro c hc
    rw [List.filterMap_cons, declaredName?_eq_none (by decide)]
    exact (hplain c hc).declared_sectionLines (hnames c hc)
  rw [declaredNames_unlines, itemLines, List.filterMap_append, declared_flatMap hcodecs,
    declared_flatMap fun e he => declared_aliasLines (haliases e he)]
  intro l hl
  rcases List.mem_append.mp hl with hl | hl
  · obtain ⟨e, he, hl⟩ := List.mem_flatMap.mp hl
    exact plain_aliasLines (haliases e he) l hl
  · obtain ⟨c, hc, hl⟩ := List.mem_flatMap.mp hl
    rcases List.mem_cons.mp hl with rfl | hl
    · exact plain_ofList rfl
    · exact (hplain c hc).plain_sectionLines l hl

/-- The remark of a file declares nothing, unless the name of its source has a line end. -/
theorem declaredNames_remark {source : String} (h : Plain source) :
    declaredNames ("// Source: " ++ source) = [] := by
  have hline : Plain ("// Source: " ++ source) := plain_append.mpr ⟨plain_ofList rfl, h⟩
  rw [declaredNames, Text.split_plain hline, List.filterMap_cons, declaredName?_eq_none (by simp)]
  rfl

/-- The file of a schema declares its aliases and the selected structs. -/
theorem declaredNames_of_bound {schema : Schema} {settings : Settings} {types : List StructType}
    (hchecked : schema.Checked) (hvalid : settings.Valid)
    (hbound : schema.Bound settings.selection types) (source : String) :
    declaredNames
        ((File.ofCodecs settings.style true (types.map StructType.compile)).text source) =
      declaredNames ("// Source: " ++ source) ++
        (((File.ofCodecs settings.style true (types.map StructType.compile)).aliasesInOrder.map
            Prod.fst).map identifier ++
          ((schema.selected settings.selection).map StructDecl.name).map identifier) := by
  have hword {s : StructType} (hs : s ∈ types) {name : String} (hname : name ∈ s.compile.names) :=
    Schema.isName_of_mem_names hchecked hbound hs hname
  rw [File.text_eq (withStructs_ofCodecs ..) (sections_ofCodecs ..),
    File.header_eq (withStructs_ofCodecs ..), style_ofCodecs, String.append_assoc,
    declaredNames_append, declaredNames_append, declaredNames_itemLines, ← names_of_bound hbound]
  · simp only [List.map_map]
    rfl
  · intro e he
    have hreaches := (mem_aliasesInOrder hbound).mp (List.mem_map.mpr ⟨e, he, rfl⟩)
    exact Schema.isName_of_reaches hchecked hreaches
  · rw [List.forall_mem_map]
    exact fun s hs => hvalid.plainNames fun name hname => hword hs hname
  · rw [List.forall_mem_map]
    exact fun s hs => hword hs (List.mem_cons_self ..)

/-- Ascending aliases and distinct structs have identifiers of their own, apart from each other's. -/
theorem nodup_identifiers {aliases structs : List String} (hsorted : aliases.Pairwise (· < ·))
    (hdistinct : structs.Nodup) (haliases : ∀ name ∈ aliases, Text.isName name = true)
    (hstructs : ∀ name ∈ structs, Text.isName name = true) :
    (aliases.map identifier ++ structs.map identifier).Nodup ↔ ∀ name ∈ structs, name ∉ aliases := by
  have hnames : ∀ name ∈ aliases ++ structs, Text.isName name = true := fun name hname =>
    (List.mem_append.mp hname).elim (haliases name) (hstructs name)
  have hone : aliases.Nodup := hsorted.imp fun hlt => (String.ne_of_lt hlt)
  have happart : (aliases ++ structs).Nodup ↔ ∀ name ∈ structs, name ∉ aliases := by
    rw [List.nodup_append]
    constructor
    · rintro ⟨-, -, hne⟩ name hs ha
      exact hne name ha name hs rfl
    · exact fun h => ⟨hone, hdistinct, fun a ha s hs heq => h s hs (heq ▸ ha)⟩
  rw [← List.map_append, ← happart]
  exact ⟨List.Nodup.of_map _, List.Nodup.map_on fun a ha b hb hab =>
    identifier_injective (hnames a ha) (hnames b hb) hab⟩

/-- Of a schema that was read, a generator with valid settings makes a file that declares each alias
that is reached, in ascending order, and each selected struct, in the order of the schema.  These
names differ exactly when no selected struct is called like an alias that is reached.  A schema file
whose own name has a line end may bring further names with it. -/
theorem declaredNames_sourceOf {format : FileFormat} {text path source : String} {schema : Schema}
    {settings : Settings} {report : Report} (hparse : Schema.parse format text = .ok schema)
    (hvalid : settings.validate = .ok ()) (hstructs : settings.emitStructs = true)
    (hrun : Generator.sourceOf settings path schema = .ok (report, source)) :
    ∃ aliases : List String, aliases.Pairwise (· < ·) ∧
      (∀ name, name ∈ aliases ↔ schema.Reaches settings.selection name) ∧
      declaredNames source = declaredNames ("// Source: " ++ (Path.fileName? path).getD path) ++
        (aliases.map identifier ++
          (schema.selected settings.selection).map fun s => identifier s.name) ∧
      (Plain ((Path.fileName? path).getD path) →
        ((declaredNames source).Nodup ↔ ∀ s ∈ schema.selected settings.selection,
          ¬schema.Reaches settings.selection s.name)) := by
  obtain ⟨types, hbound, -, hsource⟩ := Generator.of_sourceOf hrun
  rw [hstructs] at hsource
  have hchecked := Schema.checked_of_parse hparse
  have hreaches {name : String} :
      name ∈ (File.ofCodecs settings.style true (types.map StructType.compile)).aliasesInOrder.map
          Prod.fst ↔
        schema.Reaches settings.selection name := mem_aliasesInOrder hbound
  have hdeclared := declaredNames_of_bound hchecked (Settings.validate_eq_ok.mp hvalid) hbound
    ((Path.fileName? path).getD path)
  rw [← hsource] at hdeclared
  have hsorted := (File.ofCodecs settings.style true
    (types.map StructType.compile)).sorted_aliasesInOrder
  refine ⟨_, hsorted, fun _ => hreaches, ?_, fun hpath => ?_⟩
  · rw [hdeclared, List.map_map (l := schema.selected _)]
    rfl
  · have hdistinct : ((schema.selected settings.selection).map StructDecl.name).Nodup :=
      hchecked.distinct.sublist (List.filter_sublist.map _)
    have hnames : ∀ name ∈ (schema.selected settings.selection).map StructDecl.name,
        Text.isName name = true := by
      rw [← names_of_bound hbound, List.forall_mem_map]
      exact fun s hs => Schema.isName_of_mem_names hchecked hbound hs (List.mem_cons_self ..)
    rw [hdeclared, declaredNames_remark hpath, List.nil_append,
      nodup_identifiers hsorted hdistinct (fun _ ha => Schema.isName_of_reaches hchecked
        (hreaches.mp ha)) hnames, List.forall_mem_map]
    exact forall₂_congr fun s _ => not_congr hreaches

theorem declaredNames_sourceOf_count :
    ∃ report source, Generator.sourceOf .standard "s.toml"
        (Schema.small "Count" "u16" "Packet" "total") = .ok (report, source) ∧
      declaredNames source = ["Count", "Packet"] ∧ (declaredNames source).Nodup := by
  obtain ⟨codecs, hcompile⟩ : ∃ codecs, (Schema.small "Count" "u16" "Packet" "total").compile
      Settings.standard.selection = .ok codecs := ⟨_, rfl⟩
  have hrun := Generator.sourceOf_of_compile "s.toml" hcompile
  have hreaches {name : String} : (Schema.small "Count" "u16" "Packet" "total").Reaches
      Settings.standard.selection name ↔ name = "Count" := Schema.reaches_small rfl
  obtain ⟨aliases, hsorted, hmem, hdeclared, hnodup⟩ :=
    declaredNames_sourceOf parse_smallText_count rfl rfl hrun
  have haliases : aliases = ["Count"] := eq_of_pairwise_lt hsorted (List.pairwise_singleton ..)
    fun name => (hmem name).trans (hreaches.trans List.mem_singleton.symm)
  refine ⟨_, _, hrun, ?_, (hnodup (by decide)).mpr fun s hs hs' => ?_⟩
  · rw [hdeclared, haliases, declaredNames_remark (by decide)]
    rfl
  · cases List.mem_singleton.mp hs
    exact absurd (hreaches.mp hs') (by decide)

theorem parse_smallText_packet :
    Schema.parse .toml (Schema.smallText "Packet" "u8" "Packet" "kind") =
      .ok (Schema.small "Packet" "u8" "Packet" "kind") := by
  decide +kernel

/-- An alias and a struct of one name are both declared. -/
theorem declared_twice_packet :
    ∃ schema report source, Schema.parse .toml (Schema.smallText "Packet" "u8" "Packet" "kind") =
        .ok schema ∧ Settings.standard.validate = .ok () ∧
      Generator.sourceOf .standard "s.toml" schema = .ok (report, source) ∧
      declaredNames source = ["Packet", "Packet"] ∧ ¬(declaredNames source).Nodup := by
  have hbound : (Schema.small "Packet" "u8" "Packet" "kind").Bound Settings.standard.selection
      [⟨"Packet", [⟨"kind", .scalar ⟨some "Packet", .u8⟩⟩]⟩] := .cons rfl .nil
  have hcompile : (Schema.small "Packet" "u8" "Packet" "kind").compile
      Settings.standard.selection = .ok ([⟨"Packet", [⟨"kind", .scalar ⟨some "Packet", .u8⟩⟩]⟩].map
        StructType.compile) := rfl
  have hdeclared := declaredNames_of_bound (Schema.checked_of_parse parse_smallText_packet)
    (Settings.validate_eq_ok.mp rfl) hbound ((Path.fileName? "s.toml").getD "s.toml")
  rw [declaredNames_remark (by decide)] at hdeclared
  have htwice {names : List String} (h : names = ["Packet", "Packet"]) :
      names = ["Packet", "Packet"] ∧ ¬names.Nodup := ⟨h, h ▸ by decide⟩
  exact ⟨_, _, _, parse_smallText_packet, rfl, Generator.sourceOf_of_compile "s.toml" hcompile,
    htwice (hdeclared.trans (by decide))⟩

end WireCodec.Source
