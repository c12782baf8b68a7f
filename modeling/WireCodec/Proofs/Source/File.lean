import WireCodec.Generator.Run
import WireCodec.Proofs.Aliases.Reached
import WireCodec.Proofs.Source.Plain
import WireCodec.Source.File

/-!
# What a generated file holds

A file takes every codec, so a generator fails only when its schema does.  Its sections are those of
the codecs in their order, and its aliases are those that occur in the fields of the codecs, in the
order of their names.
-/

namespace WireCodec

namespace Source

def File.ofCodecs (style : Style) (withStructs : Bool) (codecs : List Codec) : File :=
  codecs.foldl File.add (.start style withStructs)

/-- The lines of a section with the definition of its struct. -/
def sectionLines (style : Style) (c : Codec) : List String :=
  "#[allow(dead_code)]" ::
    (linesFrom 0 (structLines style c) ++ "" :: linesFrom 0 (implLines style c))

theorem PlainNames.plain_sectionLines {style : Style} {c : Codec} (h : PlainNames style c) :
    ∀ l ∈ sectionLines style c, Plain l := by
  intro l hl
  simp only [sectionLines, List.mem_cons, List.mem_append] at hl
  rcases hl with rfl | hl | rfl | hl
  · exact plain_ofList rfl
  · exact h.laid_structLines.plain_of_mem hl
  · exact plain_ofList rfl
  · exact h.laid_implLines.plain_of_mem hl

namespace File

theorem sectionOf_eq {f : File} (hstructs : f.withStructs = true) (c : Codec) :
    f.sectionOf c = unlines (sectionLines f.style c) := by
  rw [sectionOf, if_pos hstructs, codecText, if_pos hstructs, structText, implText, layout, layout,
    layoutFrom_eq, layoutFrom_eq, sectionLines, unlines_cons, unlines_append, unlines_cons]
  simp only [String.append_assoc, String.empty_append]
  rfl

/-- Adding codecs keeps the style and puts their sections one behind the other. -/
theorem foldl_add (codecs : List Codec) (f : File) :
    (codecs.foldl add f).style = f.style ∧ (codecs.foldl add f).withStructs = f.withStructs ∧
      (codecs.foldl add f).sections = f.sections ++ codecs.map f.sectionOf := by
  induction codecs generalizing f with
  | nil => exact ⟨rfl, rfl, (List.append_nil _).symm⟩
  | cons c rest ih =>
    obtain ⟨hstyle, hstructs, hsections⟩ := ih (f.add c)
    refine ⟨hstyle, hstructs, hsections.trans ?_⟩
    show (f.sections ++ [f.sectionOf c]) ++ rest.map (f.add c).sectionOf = _
    rw [List.append_assoc]
    rfl

theorem mem_aliases_add {f : File} (hstructs : f.withStructs = true) {c : Codec} {name : String} :
    name ∈ (f.add c).aliases.names ↔
      name ∈ f.aliases.names ∨ ∃ field ∈ c.fields, field.type.element.aliasName = some name := by
  have haliases : (f.add c).aliases =
      (c.fields.filterMap aliasOf).foldl (fun t e => t.set e.1 e.2) f.aliases := by
    rw [add, if_pos hstructs]
  have hfield (field : Field) : (∃ kind, aliasOf field = some (name, kind)) ↔
      field.type.element.aliasName = some name := by
    rw [aliasOf]
    cases field.type.element.aliasName <;> simp
  rw [haliases, NameTable.mem_names_foldl_set, List.mem_map]
  refine or_congr_right ?_
  constructor
  · rintro ⟨⟨_, kind⟩, he, rfl⟩
    obtain ⟨field, hf, halias⟩ := List.mem_filterMap.mp he
    exact ⟨field, hf, (hfield field).mp ⟨kind, halias⟩⟩
  · rintro ⟨field, hf, halias⟩
    obtain ⟨kind, halias⟩ := (hfield field).mpr halias
    exact ⟨(name, kind), List.mem_filterMap.mpr ⟨field, hf, halias⟩, rfl⟩

/-- The aliases of a file are those of the fields of its codecs. -/
theorem mem_aliases_foldl {codecs : List Codec} {f : File} (hstructs : f.withStructs = true)
    {name : String} :
    name ∈ (codecs.foldl add f).aliases.names ↔ name ∈ f.aliases.names ∨
      ∃ c ∈ codecs, ∃ field ∈ c.fields, field.type.element.aliasName = some name := by
  induction codecs generalizing f with
  | nil => simp
  | cons c rest ih =>
    have hadd : (f.add c).withStructs = true := hstructs
    rw [List.foldl_cons, ih hadd, mem_aliases_add hstructs, or_assoc]
    simp only [List.mem_cons, exists_eq_or_imp]

/-- Aliases are listed in ascending order. -/
theorem names_aliasesInOrder (f : File) :
    f.aliasesInOrder.map Prod.fst = (NameSet.ofList f.aliases.names).toList := by
  have hnames : ∀ name ∈ (NameSet.ofList f.aliases.names).toList,
      ∃ kind, f.aliases.get? name = some kind := fun name hname =>
    Option.isSome_iff_exists.mp ((NameTable.isSome_get? _ _).mpr (NameSet.mem_ofList.mp hname))
  rw [aliasesInOrder]
  generalize (NameSet.ofList f.aliases.names).toList = names at hnames
  induction names with
  | nil => rfl
  | cons name rest ih =>
    obtain ⟨kind, hkind⟩ := hnames name (List.mem_cons_self ..)
    rw [List.filterMap_cons, hkind]
    exact congrArg (name :: ·) (ih fun n hn => hnames n (List.mem_cons_of_mem _ hn))

/-- Aliases are declared in the order of their names, each once. -/
theorem sorted_aliasesInOrder (f : File) : (f.aliasesInOrder.map Prod.fst).Pairwise (· < ·) := by
  rw [names_aliasesInOrder]
  exact NameSet.sorted _

end File

section OfCodecs

variable (style : Style) (withStructs : Bool) (codecs : List Codec)

theorem style_ofCodecs : (File.ofCodecs style withStructs codecs).style = style :=
  (File.foldl_add codecs _).1

theorem withStructs_ofCodecs : (File.ofCodecs style withStructs codecs).withStructs = withStructs :=
  (File.foldl_add codecs _).2.1

theorem sections_ofCodecs :
    (File.ofCodecs style withStructs codecs).sections =
      codecs.map (File.ofCodecs style withStructs codecs).sectionOf := by
  refine (File.foldl_add codecs _).2.2.trans ?_
  show codecs.map (File.start style withStructs).sectionOf = _
  refine List.map_congr_left fun c _ => ?_
  rw [File.sectionOf, File.sectionOf, style_ofCodecs, withStructs_ofCodecs]
  rfl

end OfCodecs

/-- A file declares exactly the aliases that the selected structs reach. -/
theorem mem_aliasesInOrder {style : Style} {schema : Schema} {selection : Selection}
    {types : List StructType} (h : schema.Bound selection types) {name : String} :
    name ∈ (File.ofCodecs style true (types.map StructType.compile)).aliasesInOrder.map Prod.fst ↔
      schema.Reaches selection name := by
  rw [File.names_aliasesInOrder, NameSet.mem_ofList, File.ofCodecs, File.mem_aliases_foldl rfl,
    Schema.reaches_iff h]
  constructor
  · rintro (hempty | ⟨c, hc, hfield⟩)
    · cases hempty
    · obtain ⟨s, hs, rfl⟩ := List.mem_map.mp hc
      exact ⟨s, hs, hfield⟩
  · rintro ⟨s, hs, hfield⟩
    exact .inr ⟨s.compile, List.mem_map.mpr ⟨s, hs, rfl⟩, hfield⟩

end Source

theorem offerAll_add (codecs : List Codec) (file : Source.File) :
    offerAll (fun file c => .ok (Source.File.add file c)) file codecs =
      (.ok (), codecs.foldl Source.File.add file) := by
  induction codecs generalizing file with
  | nil => rfl
  | cons c rest ih => exact ih (file.add c)

/-- A generator makes the file of the codecs of the schema, unless these cannot be made. -/
theorem Generator.sourceOf_eq (settings : Settings) (path : String) (schema : Schema) :
    sourceOf settings path schema =
      match schema.compile settings.selection with
      | .error error => .error (.compile path error)
      | .ok codecs => .ok (codecs.map Codec.reportEntry,
          (Source.File.ofCodecs settings.style settings.emitStructs codecs).text
            ((Path.fileName? path).getD path)) := by
  rw [sourceOf]
  cases hcompile : schema.compile settings.selection with
  | error error => rw [deliver_of_error hcompile]
  | ok codecs =>
    rw [deliver_of_ok hcompile, offerAll_add]
    rfl

theorem Generator.sourceOf_of_compile {settings : Settings} (path : String) {schema : Schema}
    {codecs : List Codec} (h : schema.compile settings.selection = .ok codecs) :
    sourceOf settings path schema = .ok (codecs.map Codec.reportEntry,
      (Source.File.ofCodecs settings.style settings.emitStructs codecs).text
        ((Path.fileName? path).getD path)) := by
  rw [sourceOf_eq, h]

/-- Codecs come from structs that were bound. -/
theorem Schema.bound_of_compile {schema : Schema} {selection : Selection} {codecs : List Codec}
    (h : schema.compile selection = .ok codecs) :
    ∃ types, schema.Bound selection types ∧ codecs = types.map StructType.compile := by
  rw [Schema.compile_eq] at h
  split at h
  · obtain ⟨types, htypes, h⟩ := bind_eq_ok.mp h
    split at h
    · cases h
    · cases h
      exact ⟨types, mapM_eq_ok_iff.mp htypes, rfl⟩
  · cases h

/-- A generator that succeeds gives the file of the codecs of the selected structs. -/
theorem Generator.of_sourceOf {settings : Settings} {path : String} {schema : Schema}
    {report : Report} {text : String}
    (h : sourceOf settings path schema = .ok (report, text)) :
    ∃ types, schema.Bound settings.selection types ∧
      schema.compile settings.selection = .ok (types.map StructType.compile) ∧
      text = (Source.File.ofCodecs settings.style settings.emitStructs
        (types.map StructType.compile)).text ((Path.fileName? path).getD path) := by
  rw [sourceOf_eq] at h
  split at h
  · cases h
  · rename_i codecs hcompile
    obtain ⟨types, hbound, rfl⟩ := Schema.bound_of_compile hcompile
    cases h
    exact ⟨types, hbound, hcompile, rfl⟩

end WireCodec
