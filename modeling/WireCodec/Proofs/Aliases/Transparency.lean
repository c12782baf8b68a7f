import WireCodec.Proofs.Aliases.Renaming
import WireCodec.Proofs.Schema.WellFormed

/-!
# Declarations without aliases

Where a declaration writes an alias it may as well write the kind that the alias leads to.  The
declaration is then accepted under every table of aliases, since the name of a kind always stands for
the kind, and the codec is that of the original without the names of aliases.
-/

namespace WireCodec

/-- The name of the kind that a name leads to; a name that leads to none stays. -/
def AliasTable.kindName (aliases : AliasTable) (name : String) : String :=
  match aliases.resolve name with
  | .ok type => type.kind.name
  | .error _ => name

def TypeExpr.mapLeaf (f : String → String) : TypeExpr → TypeExpr
  | named name => named (f name)
  | array elem length => array (elem.mapLeaf f) length
  | sequence elem => sequence (elem.mapLeaf f)

/-- The declaration with every type led back to its kind. -/
def FieldDecl.unaliased (aliases : AliasTable) (decl : FieldDecl) : FieldDecl :=
  { decl with type := decl.type.mapLeaf aliases.kindName }

def StructDecl.unaliased (aliases : AliasTable) (decl : StructDecl) : StructDecl :=
  { decl with fields := decl.fields.map (FieldDecl.unaliased aliases) }

abbrev noAlias : String → Option String := fun _ => none

theorem ScalarType.realias_noAlias (type : ScalarType) : type.realias noAlias = ⟨none, type.kind⟩ := by
  obtain ⟨_ | name, kind⟩ := type <;> rfl

/-- The name of a kind leads to that kind in every table. -/
theorem AliasTable.resolve_kindName {aliases : AliasTable} (others : AliasTable) {name : String}
    {type : ScalarType} (h : aliases.resolve name = .ok type) :
    others.resolve (aliases.kindName name) = .ok (type.realias noAlias) := by
  rw [kindName, h, resolve_name, ScalarType.realias_noAlias]

variable {aliases : AliasTable} (others : AliasTable)

/-- A type that is led back to its kind means the same, but for the name of the alias. -/
theorem WireType.Classified.unaliased {type : TypeExpr} {length : Option String} {wire : WireType}
    (h : Classified aliases type length wire) :
    Classified others (type.mapLeaf aliases.kindName) length (wire.realias noAlias) := by
  cases h with
  | scalar leaf => exact .scalar (AliasTable.resolve_kindName others leaf)
  | array leaf fits => exact .array (AliasTable.resolve_kindName others leaf) fits
  | sequence leaf counts => exact .sequence (AliasTable.resolve_kindName others leaf) counts

namespace StructType

theorem checkReference_realias {rename : String → Option String} {earlier : List Field}
    {name : String} (h : checkReference earlier name = .ok ()) :
    checkReference (earlier.map (Field.realias rename)) name = .ok () := by
  unfold checkReference at h ⊢
  rw [Field.find?_realias]
  cases hfind : Field.find? name earlier with
  | none =>
    rw [hfind] at h
    cases h
  | some field =>
    simp only [hfind, Option.map_some, Field.realias, WireType.countsElements_realias] at h ⊢
    split at h
    · exact if_pos ‹_›
    · cases h

/-- A field that binds also binds without its alias, to the same field but for that name. -/
theorem bindField_unaliased {earlier : List Field} {decl : FieldDecl} {field : Field}
    (h : bindField aliases earlier decl = .ok field) :
    bindField others (earlier.map (Field.realias noAlias)) (decl.unaliased aliases) =
      .ok (field.realias noAlias) := by
  obtain ⟨hidentifier, hfresh, type, htype, hrefs, rfl⟩ := bindField_eq_ok.mp h
  have hnames : (earlier.map (Field.realias noAlias)).map Field.name = earlier.map Field.name := by
    rw [List.map_map]
    rfl
  refine bindField_eq_ok.mpr ⟨hidentifier, ?_, type.realias noAlias, htype.unaliased others,
    fun name hname => ?_, rfl⟩
  · rw [hnames]
    exact hfresh
  · rw [WireType.references_realias] at hname
    exact checkReference_realias (hrefs name hname)

theorem bindFields_unaliased {struct : String} {decls : List FieldDecl} {earlier fields : List Field}
    (h : bindFields aliases struct earlier decls = .ok fields) :
    bindFields others struct (earlier.map (Field.realias noAlias))
      (decls.map (FieldDecl.unaliased aliases)) = .ok (fields.map (Field.realias noAlias)) := by
  induction decls generalizing earlier with
  | nil =>
    cases h
    rfl
  | cons decl rest ih =>
    rw [bindFields] at h
    split at h
    · rename_i field hfield
      have hrest := ih h
      rw [List.map_append, List.map_singleton] at hrest
      rw [List.map_cons, bindFields, bindField_unaliased others hfield]
      exact hrest
    · cases h

theorem bind_unaliased {decl : StructDecl} {s : StructType} (h : bind aliases decl = .ok s) :
    bind others (decl.unaliased aliases) = .ok (s.realias noAlias) := by
  unfold bind at h
  split at h
  · rename_i hname
    obtain ⟨fields, hfields, h⟩ := bind_eq_ok.mp h
    cases h
    have hunaliased := bindFields_unaliased others hfields
    rw [List.map_nil] at hunaliased
    rw [bind, if_pos (show Text.isIdentifier (decl.unaliased aliases).name = true from hname)]
    exact bind_eq_ok.mpr ⟨_, hunaliased, rfl⟩
  · cases h

/-- Aliases do not show on the wire.  Led back to kinds, an accepted struct is accepted under every
table, has the same groups and the same steps but for the names of aliases, and decodes and encodes
everything alike, faults and the bytes that are left included. -/
theorem aliases_transparent (aliases : AliasTable) (decl : StructDecl) (s : StructType)
    (hbind : bind aliases decl = .ok s) (others : AliasTable) :
    ∃ t, bind others (decl.unaliased aliases) = .ok t ∧
      t.compile.groups = s.compile.groups ∧
      t.compile.fixedSize = s.compile.fixedSize ∧
      t.compile.isFixedSize = s.compile.isFixedSize ∧
      t.compile.decode = s.compile.decode.map (DecodeStep.realias noAlias) ∧
      t.compile.encode = s.compile.encode.map (EncodeStep.realias noAlias) ∧
      (∀ input, t.compile.run input = s.compile.run input) ∧
      ∀ record output, t.compile.encodeTo record output = s.compile.encodeTo record output := by
  refine ⟨s.realias noAlias, bind_unaliased others hbind, ?_⟩
  rw [compile_realias]
  exact ⟨rfl, rfl, rfl, rfl, rfl, Codec.run_realias noAlias s.compile,
    Codec.encodeTo_realias noAlias s.compile⟩

theorem aliases_transparent_telemetry :
    bind telemetryAliases telemetryDecl = .ok telemetry ∧
    telemetryDecl.unaliased telemetryAliases ≠ telemetryDecl ∧
    ∃ t, bind .empty (telemetryDecl.unaliased telemetryAliases) = .ok t ∧
      t.compile.decode ≠ telemetry.compile.decode ∧
      ∀ input, t.compile.run input = telemetry.compile.run input := by
  obtain ⟨t, hbind, -, -, -, hdecode, -, hrun, -⟩ :=
    aliases_transparent telemetryAliases telemetryDecl telemetry bind_telemetry .empty
  refine ⟨bind_telemetry, by decide, t, hbind, ?_, hrun⟩
  rw [hdecode]
  decide

end StructType

end WireCodec
