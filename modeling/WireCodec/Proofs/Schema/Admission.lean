import WireCodec.Proofs.Batch.Delivery
import WireCodec.Schema.Entry

/-!
# Admitted schema files

Which contents of a schema file make a schema, said of the content alone, and what the schema keeps
of it.  No two structs of such a schema have the same name, so a delivery of named structs reports
each of them once.
-/

namespace WireCodec

/-! ## Names -/

/-- A name of letters, digits and underscores that does not start with a digit and is more than an
underscore. -/
structure PlainName (s : String) : Prop where
  spelled : ∃ first rest, s.toList = first :: rest ∧ (first = '_' ∨ first.isAlpha = true) ∧
    ∀ c ∈ rest, c = '_' ∨ c.isAlphanum = true
  more : s ≠ "_"

theorem isName_iff {s : String} : Text.isName s = true ↔ PlainName s := by
  have hword := isWord_iff (s := s.toList)
  rw [Text.isName, Bool.and_eq_true, hword, bne_iff_ne]
  exact ⟨fun h => ⟨h.1, h.2⟩, fun h => ⟨h.spelled, h.more⟩⟩

/-! ## What becomes of entries -/

/-- The field that an entry declares. -/
structure FieldEntry.Declares (entry : FieldEntry) (decl : FieldDecl) : Prop where
  plain : PlainName entry.name
  name : decl.name = entry.name
  type : TypeExpr.parse entry.type = .ok decl.type
  length : decl.length = entry.length

/-- The struct that an entry declares, with its fields in order. -/
structure StructEntry.Declares (entry : StructEntry) (decl : StructDecl) : Prop where
  plain : PlainName entry.name
  name : decl.name = entry.name
  fields : List.Forall₂ FieldEntry.Declares entry.fields decl.fields

namespace SchemaFile

/-- The schema that a file declares, with its structs in order and its aliases trimmed. -/
structure Declares (file : SchemaFile) (schema : Schema) : Prop where
  aliases : ∀ name, schema.aliases.get? name = (file.aliases.get? name).map Text.trimmed
  structs : List.Forall₂ StructEntry.Declares file.structs schema.structs

/-- A file that makes a schema. -/
structure Admissible (file : SchemaFile) : Prop where
  aliases : ∀ e ∈ file.aliases.entries, PlainName e.1 ∧ PlainName (Text.trimmed e.2)
  structs : ∀ s ∈ file.structs, PlainName s.name
  distinct : (file.structs.map StructEntry.name).Nodup
  fields : ∀ s ∈ file.structs, ∀ f ∈ s.fields,
    PlainName f.name ∧ ∃ type, TypeExpr.parse f.type = .ok type

/-! ## Aliases -/

theorem checkAlias_eq_ok {name target : String} {entry : String × String} :
    checkAlias name target = .ok entry ↔
      (PlainName name ∧ PlainName (Text.trimmed target)) ∧ entry = (name, Text.trimmed target) := by
  rw [checkAlias, ← isName_iff, ← isName_iff]
  cases Text.isName name <;> cases Text.isName (Text.trimmed target) <;> simp [eq_comm]

/-- The table of an alias table's names in order, each with its target trimmed. -/
def trimmedAliases (aliases : NameTable String) : AliasTable :=
  .ofList ((NameSet.ofList aliases.names).toList.map fun name =>
    (name, Text.trimmed ((aliases.get? name).getD "")))

/-- A table of aliases is admitted if every alias is, and is kept with trimmed targets. -/
theorem checkAliases_eq_ok {entries : NameTable String} {aliases : AliasTable} :
    checkAliases entries = .ok aliases ↔
      (∀ e ∈ entries.entries, PlainName e.1 ∧ PlainName (Text.trimmed e.2)) ∧
        aliases = trimmedAliases entries := by
  have hsource {name : String} :
      name ∈ (NameSet.ofList entries.names).toList ↔ ∃ e ∈ entries.entries, e.1 = name := by
    rw [NameSet.mem_ofList, NameTable.names, List.mem_map]
  have hfound {e : String × String} (he : e ∈ entries.entries) :
      (entries.get? e.1).getD "" = e.2 := by
    rw [NameTable.get?_of_mem he, Option.getD_some]
  constructor
  · intro h
    obtain ⟨checked, hchecked, h⟩ := bind_eq_ok.mp h
    have hrelated := mapM_eq_ok_iff.mp hchecked
    refine ⟨fun e he => ?_, ?_⟩
    · obtain ⟨entry, -, hentry⟩ := exists_right_of_mem hrelated (hsource.mpr ⟨e, he, rfl⟩)
      rw [hfound he] at hentry
      exact (checkAlias_eq_ok.mp hentry).1
    · have hlist : checked = (NameSet.ofList entries.names).toList.map fun name =>
          (name, Text.trimmed ((entries.get? name).getD "")) := by
        rw [← List.forall₂_eq_eq_eq, List.forall₂_map_right_iff]
        exact hrelated.flip.imp fun entry name hentry => (checkAlias_eq_ok.mp hentry).2
      rw [trimmedAliases, ← hlist]
      exact (Except.ok.inj h).symm
  · rintro ⟨hplain, rfl⟩
    refine bind_eq_ok.mpr ⟨_, mapM_eq_ok fun name hname => ?_, rfl⟩
    obtain ⟨e, he, rfl⟩ := hsource.mp hname
    refine checkAlias_eq_ok.mpr ⟨?_, rfl⟩
    rw [hfound he]
    exact hplain e he

theorem get?_trimmedAliases (aliases : NameTable String) (name : String) :
    (trimmedAliases aliases).get? name = (aliases.get? name).map Text.trimmed := by
  have hnames : ((NameSet.ofList aliases.names).toList.map fun name =>
      (name, Text.trimmed ((aliases.get? name).getD ""))).map Prod.fst =
        (NameSet.ofList aliases.names).toList := by
    rw [List.map_map]
    exact List.map_id _
  rw [trimmedAliases, NameTable.get?_ofList fun name => Text.trimmed ((aliases.get? name).getD ""),
    hnames]
  · split
    · rename_i hname
      rw [NameSet.mem_ofList] at hname
      obtain ⟨target, htarget⟩ :=
        Option.isSome_iff_exists.mp ((NameTable.isSome_get? _ _).mpr hname)
      rw [htarget]
      rfl
    · rename_i hname
      rw [NameSet.mem_ofList] at hname
      rw [NameTable.get?_eq_none.mpr hname]
      rfl
  · intro e he
    obtain ⟨other, -, rfl⟩ := List.mem_map.mp he
    rfl

/-! ## Structs -/

/-- A field is admitted as just what its entry declares. -/
theorem checkField_eq_ok {owner : String} {field : FieldEntry} {decl : FieldDecl} :
    checkField owner field = .ok decl ↔ field.Declares decl := by
  constructor
  · intro h
    unfold checkField at h
    split at h
    · cases h
    · rename_i hname
      split at h
      · rename_i type htype
        cases h
        exact ⟨isName_iff.mp (by simpa using hname), rfl, htype, rfl⟩
      · cases h
  · rintro ⟨plain, hname, htype, hlength⟩
    cases decl
    cases hname
    cases hlength
    rw [checkField, isName_iff.mpr plain, htype]
    rfl

theorem checkFields_eq_ok {owner : String} {fields : List FieldEntry} {decls : List FieldDecl} :
    fields.mapM (checkField owner) = .ok decls ↔ List.Forall₂ FieldEntry.Declares fields decls := by
  rw [mapM_eq_ok_iff]
  exact ⟨fun h => h.imp fun _ _ => checkField_eq_ok.mp,
    fun h => h.imp fun _ _ => checkField_eq_ok.mpr⟩

/-- The checks of a struct in their order. -/
theorem checkStructs_cons (earlier : List StructDecl) (s : StructEntry) (rest : List StructEntry) :
    checkStructs earlier (s :: rest) =
      if Text.isName s.name then
        if earlier.any (·.name = s.name) then .error (.repeatedStruct s.name)
        else s.fields.mapM (checkField s.name) >>= fun fields =>
          checkStructs (earlier ++ [⟨s.name, fields⟩]) rest
      else .error (.badStructName s.name) := by
  rw [checkStructs]
  cases Text.isName s.name <;> cases earlier.any (·.name = s.name) <;> rfl

/-- A struct may follow others when none of them has its name. -/
theorem nodup_names_snoc {earlier : List StructDecl} {s : StructDecl} :
    ((earlier ++ [s]).map StructDecl.name).Nodup ↔
      (earlier.map StructDecl.name).Nodup ∧ ¬earlier.any (·.name = s.name) = true := by
  have hany : earlier.any (·.name = s.name) = true ↔ s.name ∈ earlier.map StructDecl.name := by
    simp only [List.any_eq_true, decide_eq_true_eq, List.mem_map]
  rw [hany, List.map_append, List.map_cons, List.map_nil, List.nodup_append]
  constructor
  · rintro ⟨hearlier, -, hapart⟩
    exact ⟨hearlier, fun hmem => hapart _ hmem _ (List.mem_singleton_self _) rfl⟩
  · rintro ⟨hearlier, hfresh⟩
    refine ⟨hearlier, by simp, ?_⟩
    rintro name hname _ hlast rfl
    exact hfresh (List.mem_singleton.mp hlast ▸ hname)

/-- Structs are admitted behind others when no name comes twice. -/
theorem checkStructs_eq_ok {entries : List StructEntry} {earlier all : List StructDecl}
    (hearlier : (earlier.map StructDecl.name).Nodup) :
    checkStructs earlier entries = .ok all ↔ ∃ later, all = earlier ++ later ∧
      (all.map StructDecl.name).Nodup ∧ List.Forall₂ StructEntry.Declares entries later := by
  induction entries generalizing earlier with
  | nil =>
    rw [checkStructs]
    constructor
    · intro h
      cases h
      exact ⟨[], (List.append_nil _).symm, hearlier, .nil⟩
    · rintro ⟨later, rfl, -, hlater⟩
      cases hlater
      rw [List.append_nil]
  | cons s rest ih =>
    rw [checkStructs_cons]
    constructor
    · intro h
      split at h
      · rename_i hname
        split at h
        · cases h
        · rename_i hfresh
          obtain ⟨fields, hfields, h⟩ := bind_eq_ok.mp h
          have hnext := nodup_names_snoc (s := ⟨s.name, fields⟩).mpr ⟨hearlier, hfresh⟩
          obtain ⟨later, rfl, hall, hlater⟩ := (ih hnext).mp h
          refine ⟨⟨s.name, fields⟩ :: later, by simp, hall, .cons ?_ hlater⟩
          exact ⟨isName_iff.mp hname, rfl, checkFields_eq_ok.mp hfields⟩
      · cases h
    · rintro ⟨later, rfl, hall, hlater⟩
      cases hlater with
      | @cons _ decl _ later hdecl hlater =>
        obtain ⟨name, fields⟩ := decl
        obtain ⟨plain, hname, hfields⟩ := hdecl
        obtain rfl : name = s.name := hname
        rw [List.append_cons] at hall
        have hnext : ((earlier ++ [StructDecl.mk s.name fields]).map StructDecl.name).Nodup := by
          rw [List.map_append] at hall
          exact (List.nodup_append.mp hall).1
        have hfresh := (nodup_names_snoc.mp hnext).2
        rw [if_pos (isName_iff.mpr plain), if_neg hfresh, checkFields_eq_ok.mpr hfields, ok_bind]
        exact (ih hnext).mpr ⟨later, List.append_cons .., List.append_cons .. ▸ hall, hlater⟩

/-! ## Schemas -/

theorem names_declares {entries : List StructEntry} {decls : List StructDecl}
    (h : List.Forall₂ StructEntry.Declares entries decls) :
    decls.map StructDecl.name = entries.map StructEntry.name := by
  induction h with
  | nil => rfl
  | cons hdecl _ ih => rw [List.map_cons, List.map_cons, hdecl.name, ih]

/-- The checks of a file succeed together. -/
theorem toSchema_eq_ok {file : SchemaFile} {schema : Schema} :
    file.toSchema = .ok schema ↔
      (∀ e ∈ file.aliases.entries, PlainName e.1 ∧ PlainName (Text.trimmed e.2)) ∧
        schema.aliases = trimmedAliases file.aliases ∧ schema.names.Nodup ∧
        List.Forall₂ StructEntry.Declares file.structs schema.structs := by
  have hnone : (([] : List StructDecl).map StructDecl.name).Nodup := List.nodup_nil
  constructor
  · intro h
    obtain ⟨aliases, haliases, h⟩ := bind_eq_ok.mp h
    obtain ⟨structs, hstructs, h⟩ := bind_eq_ok.mp h
    cases h
    obtain ⟨hplain, rfl⟩ := checkAliases_eq_ok.mp haliases
    obtain ⟨later, rfl, hdistinct, hlater⟩ := (checkStructs_eq_ok hnone).mp hstructs
    exact ⟨hplain, rfl, hdistinct, hlater⟩
  · rintro ⟨hplain, haliases, hdistinct, hstructs⟩
    refine bind_eq_ok.mpr ⟨_, checkAliases_eq_ok.mpr ⟨hplain, rfl⟩, bind_eq_ok.mpr ⟨_,
      (checkStructs_eq_ok hnone).mpr ⟨_, rfl, hdistinct, hstructs⟩, ?_⟩⟩
    rw [← haliases]
    rfl

theorem Admissible.exists_declares {file : SchemaFile} (h : file.Admissible) :
    ∃ decls, List.Forall₂ StructEntry.Declares file.structs decls := by
  refine exists_forall₂ fun s hs => ?_
  obtain ⟨fields, hfields⟩ : ∃ decls, List.Forall₂ FieldEntry.Declares s.fields decls := by
    refine exists_forall₂ fun f hf => ?_
    obtain ⟨plain, type, htype⟩ := h.fields s hs f hf
    exact ⟨⟨f.name, type, f.length⟩, plain, rfl, htype, rfl⟩
  exact ⟨⟨s.name, fields⟩, h.structs s hs, rfl, hfields⟩

/-- A file makes a schema exactly if it is admissible. -/
theorem exists_toSchema_iff {file : SchemaFile} :
    (∃ schema, file.toSchema = .ok schema) ↔ file.Admissible := by
  constructor
  · rintro ⟨schema, h⟩
    obtain ⟨hplain, -, hdistinct, hstructs⟩ := toSchema_eq_ok.mp h
    refine ⟨hplain, fun s hs => ?_, ?_, fun s hs f hf => ?_⟩
    · obtain ⟨decl, -, hdecl⟩ := exists_right_of_mem hstructs hs
      exact hdecl.plain
    · rw [← names_declares hstructs]
      exact hdistinct
    · obtain ⟨decl, -, hdecl⟩ := exists_right_of_mem hstructs hs
      obtain ⟨field, -, hfield⟩ := exists_right_of_mem hdecl.fields hf
      exact ⟨hfield.plain, _, hfield.type⟩
  · intro h
    obtain ⟨decls, hdecls⟩ := h.exists_declares
    have hdistinct : (decls.map StructDecl.name).Nodup := by
      rw [names_declares hdecls]
      exact h.distinct
    exact ⟨⟨trimmedAliases file.aliases, decls⟩,
      toSchema_eq_ok.mpr ⟨h.aliases, rfl, hdistinct, hdecls⟩⟩

/-- The schema is the one that the file declares. -/
theorem declares_of_toSchema {file : SchemaFile} {schema : Schema}
    (h : file.toSchema = .ok schema) : file.Declares schema := by
  obtain ⟨-, haliases, -, hstructs⟩ := toSchema_eq_ok.mp h
  refine ⟨fun name => ?_, hstructs⟩
  rw [haliases, get?_trimmedAliases]

end SchemaFile

instance {α : Type} [DecidableEq α] : DecidableEq (NameTable α) := fun s t =>
  decidable_of_iff (s.entries = t.entries) ⟨NameTable.ext, congrArg _⟩

deriving instance DecidableEq for Schema

/-! ## Reports -/

section Reports

variable {schema : Schema} {selection : Selection} {σ : Type} {take : σ → Codec → Except String σ}
  {state taken : σ} {report : Report}

/-- A report names the selected structs, and all that were asked for are there. -/
theorem Schema.names_of_report
    (h : schema.deliver selection take state = (.ok report, taken)) :
    (∀ name, ¬schema.Lacks selection name) ∧
      report.map ReportEntry.name = (schema.selected selection).map StructDecl.name := by
  have hdelivered := delivered_deliver schema selection take state
  rw [h] at hdelivered
  cases hdelivered with
  | handedOver present some bound took =>
    refine ⟨present, ?_⟩
    rw [List.map_map, ← names_of_bound bound]
    rfl

/-- When no two structs have the same name, a report of named structs has each of the names once. -/
theorem Schema.count_report {names : NameSet} (distinct : schema.names.Nodup)
    (h : schema.deliver (.only names) take state = (.ok report, taken)) (name : String) :
    (report.map ReportEntry.name).count name = if name ∈ names.toList then 1 else 0 := by
  obtain ⟨present, hnames⟩ := names_of_report h
  have hselected : (schema.selected (.only names)).map StructDecl.name =
      schema.names.filter names.contains := by
    rw [Schema.selected, Schema.names, List.filter_map]
    rfl
  have hnodup : (schema.names.filter names.contains).Nodup := distinct.filter _
  rw [hnames, hselected, hnodup.count]
  refine if_congr ?_ rfl rfl
  rw [List.mem_filter, NameSet.contains, List.contains_iff_mem, and_iff_right_iff_imp]
  intro hname
  by_contra habsent
  refine present name ⟨hname, fun s hs hsame => habsent ?_⟩
  exact List.mem_map.mpr ⟨s, hs, hsame⟩

end Reports

namespace SchemaFile

/-- A file makes a schema exactly when its names are plain, its aliases lead to plain names, no two
of its structs have the same name, and its types can be read.  The schema keeps the structs and the
fields in order.  A delivery of structs that were asked for by name reports each of them once and no
other, in the order of the schema. -/
theorem toSchema_iff_admissible (file : SchemaFile) :
    ((∃ schema, file.toSchema = .ok schema) ↔ file.Admissible) ∧
    ∀ schema, file.toSchema = .ok schema → file.Declares schema ∧
      ∀ (names : NameSet) (σ : Type) (take : σ → Codec → Except String σ) (state taken : σ)
        (report : Report), schema.deliver (.only names) take state = (.ok report, taken) →
        (report.map ReportEntry.name).Sublist schema.names ∧
          ∀ name, (report.map ReportEntry.name).count name =
            if name ∈ names.toList then 1 else 0 := by
  refine ⟨exists_toSchema_iff, fun schema hschema => ⟨declares_of_toSchema hschema, ?_⟩⟩
  intro names σ take state taken report hdeliver
  obtain ⟨-, -, distinct, -⟩ := toSchema_eq_ok.mp hschema
  refine ⟨?_, Schema.count_report distinct hdeliver⟩
  rw [(Schema.names_of_report hdeliver).2]
  exact (List.filter_sublist ..).map _

/-- A file with an alias of an alias, blanks around a target and in a type, and a struct that cannot
be compiled. -/
def stationFile : SchemaFile where
  aliases := .ofList [("Temp", " f32\t"), ("Air", "Temp")]
  structs :=
    [⟨"Idle", [⟨"x", "usize", none⟩]⟩,
      ⟨"Sample", [⟨"n", "u8", none⟩, ⟨"past", " Vec< Air >", some "2 * n"⟩]⟩, ⟨"End", []⟩]

def station : Schema where
  aliases := .ofList [("Air", "Temp"), ("Temp", "f32")]
  structs :=
    [⟨"Idle", [⟨"x", .named "usize", none⟩]⟩,
      ⟨"Sample", [⟨"n", .named "u8", none⟩, ⟨"past", .sequence (.named "Air"), some "2 * n"⟩]⟩,
      ⟨"End", []⟩]

theorem toSchema_iff_admissible_station :
    stationFile.toSchema = .ok station ∧ stationFile.Admissible ∧ stationFile.Declares station ∧
      ∃ report, station.deliver (.only (.ofList ["End", "Sample"])) (fun n _ => .ok (n + 1)) 0 =
          (.ok report, 2) ∧
        (report.map ReportEntry.name).Sublist station.names ∧
        (report.map ReportEntry.name).count "Sample" = 1 ∧
        (report.map ReportEntry.name).count "Idle" = 0 := by
  obtain ⟨hadmissible, hschema⟩ := toSchema_iff_admissible stationFile
  have hread : stationFile.toSchema = .ok station := by decide +kernel
  obtain ⟨hdeclares, hreport⟩ := hschema station hread
  refine ⟨hread, hadmissible.mp ⟨station, hread⟩, hdeclares, _, rfl, ?_⟩
  obtain ⟨hsublist, hcount⟩ :=
    hreport (.ofList ["End", "Sample"]) Nat (fun n _ => .ok (n + 1)) 0 2 _ rfl
  exact ⟨hsublist, hcount "Sample", hcount "Idle"⟩

end SchemaFile

end WireCodec
