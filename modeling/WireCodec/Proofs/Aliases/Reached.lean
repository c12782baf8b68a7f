import WireCodec.Proofs.Schema.Parsed
import WireCodec.Proofs.Source.Names

/-!
# Aliases that are reached

A struct type keeps the alias that a field is declared with, and no other.  So the aliases that stand
in the codecs of a delivery are those at the core of a field of a selected struct, and all the names
in such a codec are names of the schema.
-/

namespace WireCodec

/-- A type that is known by an alias is known by the name that was asked for. -/
theorem AliasTable.alias_of_resolve {aliases : AliasTable} {name a : String} {kind : ScalarKind}
    (h : aliases.resolve name = .ok ⟨some a, kind⟩) : a = name ∧ name ∈ aliases.names := by
  have follow_alias (steps : Nat) (current : String) {type : ScalarType}
      (hfollow : aliases.follow name steps current = .ok type) :
      type.aliasName = some name ∧ (aliases.get? current).isSome = true := by
    induction steps generalizing current with
    | zero => cases hfollow
    | succ steps ih =>
      rw [follow] at hfollow
      split at hfollow
      · cases hfollow
      · rename_i next hnext
        rw [hnext]
        split at hfollow
        · cases hfollow
          exact ⟨rfl, rfl⟩
        · exact ⟨(ih next hfollow).1, rfl⟩
        · cases hfollow
  unfold resolve at h
  split at h
  · cases h
  · obtain ⟨halias, hfound⟩ := follow_alias _ _ h
    exact ⟨Option.some.inj halias, (NameTable.isSome_get? aliases name).mp hfound⟩
  · cases h

/-- A field has the scalar that the name at the core of its type leads to. -/
theorem WireType.Classified.element {aliases : AliasTable} {type : TypeExpr} {length : Option String}
    {wire : WireType} (h : Classified aliases type length wire) :
    aliases.resolve type.leaf = .ok wire.element := by
  cases h with
  | scalar leaf => exact leaf
  | array leaf fits => exact leaf
  | sequence leaf counts => exact leaf

namespace StructType

/-- What a checked field keeps of its declaration. -/
structure Keeps (aliases : AliasTable) (decl : FieldDecl) (field : Field) : Prop where
  identifier : Text.isIdentifier field.name = true
  element : aliases.resolve decl.type.leaf = .ok field.type.element

/-- Binding a field keeps its name and the alias that it is declared by. -/
theorem keeps_of_bindField {aliases : AliasTable} {earlier : List Field} {decl : FieldDecl}
    {field : Field} (h : bindField aliases earlier decl = .ok field) : Keeps aliases decl field := by
  obtain ⟨hidentifier, -, type, htype, -, rfl⟩ := bindField_eq_ok.mp h
  exact ⟨isIdentifier_iff.mpr hidentifier, htype.element⟩

theorem keeps_of_bindFields {aliases : AliasTable} {struct : String} {decls : List FieldDecl}
    {earlier all : List Field} (h : bindFields aliases struct earlier decls = .ok all) :
    ∃ fields, all = earlier ++ fields ∧ List.Forall₂ (Keeps aliases) decls fields := by
  induction decls generalizing earlier with
  | nil =>
    cases h
    exact ⟨[], (List.append_nil _).symm, .nil⟩
  | cons decl rest ih =>
    rw [bindFields] at h
    split at h
    · rename_i field hfield
      obtain ⟨fields, rfl, hrest⟩ := ih h
      exact ⟨field :: fields, by simp, .cons (keeps_of_bindField hfield) hrest⟩
    · cases h

theorem keeps_of_bind {aliases : AliasTable} {decl : StructDecl} {s : StructType}
    (h : bind aliases decl = .ok s) :
    Text.isIdentifier s.name = true ∧ List.Forall₂ (Keeps aliases) decl.fields s.fields := by
  unfold bind at h
  split at h
  · rename_i hname
    obtain ⟨fields, hfields, h⟩ := bind_eq_ok.mp h
    cases h
    obtain ⟨kept, rfl, hkept⟩ := keeps_of_bindFields hfields
    exact ⟨hname, hkept⟩
  · cases h

/-- Every name in the codec of a declared struct is a name. -/
theorem isName_of_mem_names {aliases : AliasTable} {decl : StructDecl} {s : StructType}
    (haliases : ∀ name ∈ aliases.names, Text.isName name = true) (h : bind aliases decl = .ok s)
    {name : String} (hname : name ∈ s.compile.names) : Text.isName name = true := by
  have of_identifier {name : String} (h : Text.isIdentifier name = true) :
      Text.isName name = true := by
    rw [Text.isIdentifier, Bool.and_eq_true] at h
    exact h.1
  obtain ⟨hstruct, hfields⟩ := keeps_of_bind h
  have hfield {f : Field} (hf : f ∈ s.fields) : Text.isName f.name = true := by
    obtain ⟨decl, -, hkeeps⟩ := exists_left_of_mem hfields hf
    exact of_identifier hkeeps.identifier
  rcases names_compile hname with rfl | ⟨f, hf, hname⟩
  · exact of_identifier hstruct
  · rcases Field.mem_names.mp hname with rfl | halias | hlength
    · exact hfield hf
    · obtain ⟨decl, -, hkeeps⟩ := exists_left_of_mem hfields hf
      have hresolve : aliases.resolve decl.type.leaf = .ok ⟨some name, f.type.element.kind⟩ := by
        rw [hkeeps.element, ← halias]
      obtain ⟨rfl, hmem⟩ := AliasTable.alias_of_resolve hresolve
      exact haliases _ hmem
    · have hcounter := (inOrder_of_bind h).mem_names hf hlength
      obtain ⟨g, hg, rfl⟩ := List.mem_map.mp hcounter
      exact hfield hg

end StructType

namespace Schema

/-- A selected struct has a field that is declared by an alias. -/
def Reaches (schema : Schema) (selection : Selection) (name : String) : Prop :=
  ∃ s ∈ schema.selected selection, ∃ f ∈ s.fields, ∃ kind,
    schema.aliases.resolve f.type.leaf = .ok ⟨some name, kind⟩

theorem reaches_small {name target owner field : String} {kind : ScalarKind}
    (h : (small name target owner field).aliases.resolve name = .ok ⟨some name, kind⟩)
    {other : String} : (small name target owner field).Reaches .all other ↔ other = name := by
  constructor
  · rintro ⟨s, hs, f, hf, kind, hresolve⟩
    cases List.mem_singleton.mp hs
    cases List.mem_singleton.mp hf
    exact (AliasTable.alias_of_resolve hresolve).1
  · rintro rfl
    exact ⟨_, List.mem_singleton_self _, _, List.mem_singleton_self _, kind, h⟩

variable {schema : Schema} {selection : Selection} {types : List StructType}

/-- The selected structs are those whose types are delivered. -/
abbrev Bound (schema : Schema) (selection : Selection) (types : List StructType) : Prop :=
  List.Forall₂ (fun s type => StructType.bind schema.aliases s = .ok type)
    (schema.selected selection) types

/-- The aliases that are reached are those that the bound fields still carry. -/
theorem reaches_iff (h : schema.Bound selection types) {name : String} :
    schema.Reaches selection name ↔
      ∃ s ∈ types, ∃ f ∈ s.fields, f.type.element.aliasName = some name := by
  constructor
  · rintro ⟨decl, hdecl, fieldDecl, hfieldDecl, kind, hresolve⟩
    obtain ⟨s, hs, hbind⟩ := exists_right_of_mem h hdecl
    obtain ⟨f, hf, hkeeps⟩ := exists_right_of_mem (StructType.keeps_of_bind hbind).2 hfieldDecl
    rw [hkeeps.element] at hresolve
    exact ⟨s, hs, f, hf, by rw [Except.ok.inj hresolve]⟩
  · rintro ⟨s, hs, f, hf, halias⟩
    obtain ⟨decl, hdecl, hbind⟩ := exists_left_of_mem h hs
    obtain ⟨fieldDecl, hfieldDecl, hkeeps⟩ :=
      exists_left_of_mem (StructType.keeps_of_bind hbind).2 hf
    refine ⟨decl, hdecl, fieldDecl, hfieldDecl, f.type.element.kind, ?_⟩
    rw [hkeeps.element, ← halias]

/-- Every name in a codec that is delivered is a name. -/
theorem isName_of_mem_names (hchecked : schema.Checked) (h : schema.Bound selection types)
    {s : StructType} (hs : s ∈ types) {name : String} (hname : name ∈ s.compile.names) :
    Text.isName name = true := by
  obtain ⟨decl, -, hbind⟩ := exists_left_of_mem h hs
  exact StructType.isName_of_mem_names hchecked.aliases hbind hname

theorem isName_of_reaches (hchecked : schema.Checked) {name : String}
    (h : schema.Reaches selection name) : Text.isName name = true := by
  obtain ⟨s, -, f, -, kind, hresolve⟩ := h
  obtain ⟨rfl, hmem⟩ := AliasTable.alias_of_resolve hresolve
  exact hchecked.aliases _ hmem

end Schema

end WireCodec
