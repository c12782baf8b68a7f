import WireCodec.Proofs.Source.File

/-!
# What a generated file consists of

A file is a remark, an item for each alias that is carried by a field, and a section for each codec,
in this order and without anything else.  Since the name of an alias settles what it stands for, all
fields that carry it agree with its item.
-/

namespace WireCodec

/-- The codecs of structs are what their types compile to. -/
theorem Schema.compileStruct_eq_ok {schema : Schema} {decl : StructDecl} {c : Codec} :
    schema.compileStruct decl = .ok c ↔
      ∃ s, StructType.bind schema.aliases decl = .ok s ∧ c = s.compile := by
  rw [compileStruct, bind_eq_ok]
  exact exists_congr fun s => and_congr_right fun _ => ⟨fun h => by cases h; rfl, fun h => h ▸ rfl⟩

/-- The codecs of a schema are those of its selected structs, in order. -/
theorem Schema.compile_eq_ok {schema : Schema} {selection : Selection} {codecs : List Codec}
    (h : schema.compile selection = .ok codecs) :
    List.Forall₂ (fun decl c => schema.compileStruct decl = .ok c) (schema.selected selection)
      codecs := by
  obtain ⟨types, hbound, rfl⟩ := bound_of_compile h
  rw [List.forall₂_map_right_iff]
  exact hbound.imp fun decl s hs => compileStruct_eq_ok.mpr ⟨s, hs, rfl⟩

namespace Source

/-- The aliases that the fields of codecs carry, each once, with what they stand for in every field
that carries them. -/
structure Carries (codecs : List Codec) (aliases : List (String × ScalarKind)) : Prop where
  ascending : (aliases.map Prod.fst).Pairwise (· < ·)
  carried : ∀ e ∈ aliases, ∃ c ∈ codecs, ∃ f ∈ c.fields, f.type.element.aliasName = some e.1
  complete : ∀ c ∈ codecs, ∀ f ∈ c.fields, ∀ name, f.type.element.aliasName = some name →
    (name, f.type.element.kind) ∈ aliases

namespace File

theorem mem_aliasesInOrder_iff {f : File} {name : String} {kind : ScalarKind} :
    (name, kind) ∈ f.aliasesInOrder ↔ f.aliases.get? name = some kind := by
  rw [aliasesInOrder, List.mem_filterMap]
  constructor
  · rintro ⟨other, -, h⟩
    obtain ⟨found, hfound, h⟩ := Option.map_eq_some_iff.mp h
    cases h
    exact hfound
  · intro h
    refine ⟨name, NameSet.mem_ofList.mpr ((NameTable.isSome_get? _ _).mp ?_), ?_⟩
    · rw [h]
      rfl
    · rw [h]
      rfl

/-- A file knows of its aliases what is true of all that it was given. -/
theorem get?_foldl_add (good : String → ScalarKind → Prop) {codecs : List Codec} {f : File}
    (hf : ∀ name kind, f.aliases.get? name = some kind → good name kind)
    (hcodecs : ∀ c ∈ codecs, ∀ field ∈ c.fields, ∀ name,
      field.type.element.aliasName = some name → good name field.type.element.kind)
    {name : String} {kind : ScalarKind}
    (h : (codecs.foldl add f).aliases.get? name = some kind) : good name kind := by
  induction codecs generalizing f with
  | nil => exact hf name kind h
  | cons c rest ih =>
    refine ih ?_ (fun d hd => hcodecs d (List.mem_cons_of_mem c hd)) h
    intro other found hfound
    rw [add] at hfound
    dsimp only at hfound
    split at hfound
    · refine NameTable.get?_foldl_set hf (fun e he => ?_) hfound
      obtain ⟨field, hfield, halias⟩ := List.mem_filterMap.mp he
      obtain ⟨carried, hcarried, rfl⟩ := Option.map_eq_some_iff.mp halias
      exact hcodecs c (List.mem_cons_self ..) field hfield carried hcarried
    · exact hf other found hfound

end File

section OfCodecs

variable {style : Style} {schema : Schema} {selection : Selection} {codecs : List Codec}

/-- A field that carries an alias was declared by it, and has the kind that the alias stands for. -/
theorem resolve_of_carried
    (h : List.Forall₂ (fun decl c => schema.compileStruct decl = .ok c) (schema.selected selection)
      codecs)
    {c : Codec} (hc : c ∈ codecs) {f : Field} (hf : f ∈ c.fields) {name : String}
    (halias : f.type.element.aliasName = some name) :
    schema.aliases.resolve name = .ok ⟨some name, f.type.element.kind⟩ := by
  obtain ⟨decl, -, hdecl⟩ := exists_left_of_mem h hc
  obtain ⟨s, hbind, rfl⟩ := Schema.compileStruct_eq_ok.mp hdecl
  obtain ⟨fieldDecl, -, hkeeps⟩ := exists_left_of_mem (StructType.keeps_of_bind hbind).2 hf
  have hresolve : schema.aliases.resolve fieldDecl.type.leaf =
      .ok ⟨some name, f.type.element.kind⟩ := by
    rw [hkeeps.element, ← halias]
  obtain ⟨hleaf, -⟩ := AliasTable.alias_of_resolve hresolve
  rwa [← hleaf] at hresolve

/-- A file carries each alias that its codecs use, with one kind. -/
theorem carries_ofCodecs
    (h : List.Forall₂ (fun decl c => schema.compileStruct decl = .ok c) (schema.selected selection)
      codecs) : Carries codecs (File.ofCodecs style true codecs).aliasesInOrder where
  ascending := File.sorted_aliasesInOrder _
  carried e he := by
    have hname : e.1 ∈ (File.ofCodecs style true codecs).aliases.names := by
      rw [← NameTable.isSome_get?, File.mem_aliasesInOrder_iff.mp he]
      rfl
    exact ((File.mem_aliases_foldl rfl).mp hname).resolve_left List.not_mem_nil
  complete c hc f hf name halias := by
    have hname : name ∈ (File.ofCodecs style true codecs).aliases.names :=
      (File.mem_aliases_foldl rfl).mpr (.inr ⟨c, hc, f, hf, halias⟩)
    obtain ⟨kind, hkind⟩ := Option.isSome_iff_exists.mp ((NameTable.isSome_get? _ _).mpr hname)
    -- Whichever field came last, the kind is the one that the name stands for.
    have hresolve : schema.aliases.resolve name = .ok ⟨some name, kind⟩ :=
      File.get?_foldl_add (fun name kind => schema.aliases.resolve name = .ok ⟨some name, kind⟩)
        (fun _ _ hempty => by cases hempty)
        (fun d hd g hg a ha => resolve_of_carried h hd hg ha) hkind
    rw [resolve_of_carried h hc hf halias] at hresolve
    cases hresolve
    exact File.mem_aliasesInOrder_iff.mpr hkind

end OfCodecs

/-! ## Text -/

/-- The remark in front of every file. -/
def remark (source : String) : String :=
  "// Code generated by structwire-gen; DO NOT EDIT.\n// Source: " ++ source ++ "\n"

/-- What the remark says beyond that in front of blocks alone. -/
def bareRemark : String :=
  "//\n// Impl blocks only: include!() this file where the structs are defined.\n"

def definedText (style : Style) (source : String) (aliases : List (String × ScalarKind))
    (codecs : List Codec) : String :=
  remark source ++ String.join (aliases.map fun e => "\n" ++ aliasText e.1 e.2) ++
    String.join (codecs.map fun c =>
      "\n" ++ ("#[allow(dead_code)]\n" ++ (structText style c ++ "\n" ++ implText style c)))

/-- The text of a file that leaves the definitions to others. -/
def bareText (style : Style) (source : String) (codecs : List Codec) : String :=
  remark source ++ bareRemark ++ String.join (codecs.map fun c => "\n" ++ implText style c)

/-- The lines that stand in front of every file. -/
theorem File.header_eq_ite (f : File) (source : String) :
    f.header source = remark source ++ if f.withStructs then "" else bareRemark := by
  unfold header remark bareRemark
  simp only [toString]

/-- With structs, a file is its header, its aliases and its sections. -/
theorem text_ofCodecs_true (style : Style) (codecs : List Codec) (source : String) :
    (File.ofCodecs style true codecs).text source =
      definedText style source (File.ofCodecs style true codecs).aliasesInOrder codecs := by
  have hsection : ("\n" ++ ·) ∘ (File.ofCodecs style true codecs).sectionOf = fun c =>
      "\n" ++ ("#[allow(dead_code)]\n" ++ (structText style c ++ "\n" ++ implText style c)) := by
    funext c
    rw [Function.comp_apply, File.sectionOf, withStructs_ofCodecs, style_ofCodecs, if_pos rfl,
      codecText, if_pos rfl]
  rw [File.text, File.header_eq_ite, withStructs_ofCodecs, if_pos rfl, String.append_empty,
    sections_ofCodecs, List.map_map, hsection, definedText]

/-- A file without definitions keeps no aliases. -/
theorem aliases_ofCodecs_false (style : Style) (codecs : List Codec) :
    (File.ofCodecs style false codecs).aliases = .empty := by
  have key (f : File) (hf : f.withStructs = false) :
      (codecs.foldl File.add f).aliases = f.aliases := by
    induction codecs generalizing f with
    | nil => rfl
    | cons c rest ih =>
      rw [List.foldl_cons, ih (f.add c) hf, File.add, hf, if_neg Bool.false_ne_true]
  exact key (.start style false) rfl

theorem text_ofCodecs_false (style : Style) (codecs : List Codec) (source : String) :
    (File.ofCodecs style false codecs).text source = bareText style source codecs := by
  have hsection : ("\n" ++ ·) ∘ (File.ofCodecs style false codecs).sectionOf = fun c =>
      "\n" ++ implText style c := by
    funext c
    rw [Function.comp_apply, File.sectionOf, withStructs_ofCodecs, style_ofCodecs,
      if_neg Bool.false_ne_true, codecText, if_neg Bool.false_ne_true, String.empty_append]
  have haliases : (File.ofCodecs style false codecs).aliasesInOrder = [] := by
    rw [File.aliasesInOrder, aliases_ofCodecs_false]
    rfl
  rw [File.text, File.header_eq_ite, withStructs_ofCodecs, if_neg Bool.false_ne_true, haliases,
    List.map_nil, String.join_nil, String.append_empty, sections_ofCodecs, List.map_map, hsection,
    bareText]

/-- A delivery into a file makes it hold what was reached and nothing else.  With definitions these
are the aliases that the fields of the selected structs carry, in ascending order and each with the
kind that it has in all these fields, and then each selected struct with its block, in the order of
the schema; without definitions these are the blocks alone. -/
theorem text_of_deliver {schema : Schema} {selection : Selection} {style : Style}
    {withStructs : Bool} {report : Report} {file : File}
    (hrun : schema.deliver selection (fun file c => .ok (file.add c)) (.start style withStructs) =
      (.ok report, file)) :
    ∃ codecs, List.Forall₂ (fun decl c => schema.compileStruct decl = .ok c)
        (schema.selected selection) codecs ∧
      (withStructs = true → ∃ aliases, Carries codecs aliases ∧
        ∀ source, file.text source = definedText style source aliases codecs) ∧
      (withStructs = false → ∀ source, file.text source = bareText style source codecs) := by
  cases hcompile : schema.compile selection with
  | error error =>
    rw [deliver_of_error hcompile] at hrun
    cases hrun
  | ok codecs =>
    rw [deliver_of_ok hcompile, offerAll_add] at hrun
    have hfile : File.ofCodecs style withStructs codecs = file := congrArg Prod.snd hrun
    have hcodecs := Schema.compile_eq_ok hcompile
    subst hfile
    refine ⟨codecs, hcodecs, ?_, ?_⟩
    · rintro rfl
      exact ⟨_, carries_ofCodecs hcodecs, text_ofCodecs_true style codecs⟩
    · rintro rfl
      exact text_ofCodecs_false style codecs

/-- An alias of an alias, both in use, and an alias that only a struct of no interest uses. -/
def weather : Schema where
  aliases := .ofList [("Temp", "Celsius"), ("Celsius", "f32"), ("Unused", "u8")]
  structs :=
    [⟨"Idle", [⟨"x", .named "Unused", none⟩]⟩,
      ⟨"Sample", [⟨"t", .named "Temp", none⟩, ⟨"past", .array (.named "Celsius") 2, none⟩]⟩]

theorem text_of_deliver_weather :
    ∃ report file, weather.deliver (.only (.ofList ["Sample"]))
        (fun file c => .ok (File.add file c)) (.start .standard true) = (.ok report, file) ∧
      ∃ codecs aliases, codecs.map Codec.name = ["Sample"] ∧
        aliases.map Prod.fst = ["Celsius", "Temp"] ∧ ("Temp", .f32) ∈ aliases ∧
        file.text "w.toml" = definedText .standard "w.toml" aliases codecs := by
  obtain ⟨codecs, hcompile⟩ : ∃ codecs, weather.compile (.only (.ofList ["Sample"])) = .ok codecs :=
    ⟨_, rfl⟩
  have hrun : weather.deliver (.only (.ofList ["Sample"])) (fun file c => .ok (File.add file c))
      (.start .standard true) = _ := deliver_of_ok hcompile
  rw [offerAll_add] at hrun
  obtain ⟨others, hothers, hdefined, -⟩ := text_of_deliver hrun
  obtain ⟨aliases, hcarries, htext⟩ := hdefined rfl
  obtain rfl : others = codecs := Except.ok.inj
    ((mapM_eq_ok_iff.mpr hothers).symm.trans (mapM_eq_ok_iff.mpr (Schema.compile_eq_ok hcompile)))
  cases hcompile
  have htemp : ("Temp", ScalarKind.f32) ∈ aliases := hcarries.complete _ (List.mem_singleton_self _)
    ⟨"t", .scalar ⟨some "Temp", .f32⟩⟩ (List.mem_cons_self ..) "Temp" rfl
  have hcelsius : ("Celsius", ScalarKind.f32) ∈ aliases :=
    hcarries.complete _ (List.mem_singleton_self _)
      ⟨"past", .array ⟨some "Celsius", .f32⟩ 2 (by decide)⟩ (by decide) "Celsius" rfl
  refine ⟨_, _, hrun, _, aliases, rfl, ?_, htemp, htext _⟩
  refine eq_of_pairwise_lt hcarries.ascending (by decide) fun name => ⟨fun hname => ?_, ?_⟩
  · obtain ⟨e, he, rfl⟩ := List.mem_map.mp hname
    obtain ⟨c, hc, f, hf, halias⟩ := hcarries.carried e he
    cases List.mem_singleton.mp hc
    rcases List.mem_cons.mp hf with rfl | hf
    · rw [← Option.some.inj halias]
      decide
    · cases List.mem_singleton.mp hf
      rw [← Option.some.inj halias]
      decide
  · intro hname
    rcases List.mem_cons.mp hname with rfl | hname
    · exact List.mem_map.mpr ⟨_, hcelsius, rfl⟩
    · cases List.mem_singleton.mp hname
      exact List.mem_map.mpr ⟨_, htemp, rfl⟩

end Source

end WireCodec
