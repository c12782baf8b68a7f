import WireCodec.Proofs.Except
import WireCodec.Proofs.Length.Evaluation
import WireCodec.Record.Value
import WireCodec.Schema.StructType

/-!
# The order of fields

A struct type that a declaration gives has no name twice, and its lengths only ask for unsigned
integers in front of them.  So a length has the same value in every record that agrees on the fields
in front of it.
-/

namespace WireCodec

/-- Every name that the length of a type asks for is that of an unsigned integer among the fields. -/
def StructType.CountedIn (earlier : List Field) (type : WireType) : Prop :=
  ∀ name ∈ references type, ∃ g ∈ earlier, g.name = name ∧ g.type.countsElements = true

/-- Fields that may stand behind others: every name is new, and every length is counted in front of
it. -/
inductive InOrder : List Field → List Field → Prop where
  | nil {earlier : List Field} : InOrder earlier []
  | cons {earlier rest : List Field} {field : Field}
    (fresh : field.name ∉ earlier.map Field.name)
    (counted : StructType.CountedIn earlier field.type)
    (later : InOrder (earlier ++ [field]) rest) : InOrder earlier (field :: rest)

/-- Where no name comes twice, every field is the one that is found by its name. -/
theorem Field.find?_of_mem {fields : List Field} (hdistinct : (fields.map Field.name).Nodup)
    {field : Field} (hf : field ∈ fields) : Field.find? field.name fields = some field := by
  induction fields with
  | nil => cases hf
  | cons g rest ih =>
    rw [List.map_cons, List.nodup_cons] at hdistinct
    rw [Field.find?, List.find?_cons]
    rcases List.mem_cons.mp hf with rfl | hf
    · simp
    · have hne : g.name ≠ field.name := fun e =>
        hdistinct.1 (e ▸ List.mem_map.mpr ⟨field, hf, rfl⟩)
      rw [decide_eq_false hne]
      exact ih hdistinct.2 hf

namespace InOrder

theorem nodup_names {earlier fields : List Field} (h : InOrder earlier fields)
    (he : (earlier.map Field.name).Nodup) : ((earlier ++ fields).map Field.name).Nodup := by
  induction h with
  | nil => simpa using he
  | @cons earlier rest field fresh counted later ih =>
    have hnext : ((earlier ++ [field]).map Field.name).Nodup := by
      rw [List.map_append, List.nodup_append]
      refine ⟨he, by simp, ?_⟩
      intro name hname other hother
      rw [List.map_singleton, List.mem_singleton] at hother
      rw [hother]
      exact fun e => fresh (e ▸ hname)
    simpa using ih hnext

/-- Fields in order may be split anywhere: the second part is in order behind the first. -/
theorem split {earlier a b : List Field} (h : InOrder earlier (a ++ b)) :
    InOrder earlier a ∧ InOrder (earlier ++ a) b := by
  induction a generalizing earlier with
  | nil => exact ⟨.nil, by rwa [List.append_nil]⟩
  | cons field rest ih =>
    cases h with
    | cons fresh counted later =>
      obtain ⟨hrest, hb⟩ := ih later
      exact ⟨.cons fresh counted hrest, by rwa [List.append_assoc] at hb⟩

/-- Every field is the one that is found by its name. -/
theorem find?_eq {fields : List Field} (h : InOrder [] fields) {field : Field}
    (hf : field ∈ fields) : Field.find? field.name fields = some field :=
  Field.find?_of_mem (h.nodup_names List.nodup_nil) hf

end InOrder

namespace StructType

theorem mem_of_checkReference {earlier : List Field} {name : String}
    (h : checkReference earlier name = .ok ()) :
    ∃ g ∈ earlier, g.name = name ∧ g.type.countsElements = true := by
  unfold checkReference at h
  split at h
  · cases h
  · rename_i g hg
    have hname := List.find?_some hg
    split at h
    · rename_i hcounts
      exact ⟨g, List.mem_of_find?_eq_some hg, of_decide_eq_true hname, hcounts⟩
    · cases h

/-- The checks of a field in their order. -/
theorem bindField_eq (aliases : AliasTable) (earlier : List Field) (decl : FieldDecl) :
    bindField aliases earlier decl =
      if Text.isIdentifier decl.name then
        if earlier.any (·.name = decl.name) then .error .duplicateField
        else WireType.classify aliases decl.type decl.length >>= fun type =>
          (references type).forM (checkReference earlier) >>= fun _ => .ok ⟨decl.name, type⟩
      else .error .badFieldName := by
  unfold bindField
  cases Text.isIdentifier decl.name <;> cases earlier.any (·.name = decl.name) <;> rfl

theorem of_bindField {aliases : AliasTable} {earlier : List Field} {decl : FieldDecl} {field : Field}
    (h : bindField aliases earlier decl = .ok field) :
    field.name ∉ earlier.map Field.name ∧ CountedIn earlier field.type := by
  rw [bindField_eq] at h
  split at h
  · split at h
    · cases h
    · rename_i hfresh
      obtain ⟨type, -, h⟩ := bind_eq_ok.mp h
      obtain ⟨⟨⟩, hrefs, h⟩ := bind_eq_ok.mp h
      cases h
      refine ⟨fun hmem => hfresh ?_, fun name hname => ?_⟩
      · obtain ⟨g, hg, hname⟩ := List.mem_map.mp hmem
        exact List.any_eq_true.mpr ⟨g, hg, decide_eq_true hname⟩
      · exact mem_of_checkReference (forM_eq_ok hrefs name hname)
  · cases h

/-- Fields that are bound are in order. -/
theorem inOrder_of_bindFields {aliases : AliasTable} {struct : String} {decls : List FieldDecl}
    {earlier all : List Field} (h : bindFields aliases struct earlier decls = .ok all) :
    ∃ fields, all = earlier ++ fields ∧ InOrder earlier fields := by
  induction decls generalizing earlier with
  | nil =>
    cases h
    exact ⟨[], by simp, .nil⟩
  | cons decl rest ih =>
    rw [bindFields] at h
    split at h
    · rename_i field hfield
      obtain ⟨fields, rfl, horder⟩ := ih h
      obtain ⟨hfresh, hcounted⟩ := of_bindField hfield
      exact ⟨field :: fields, by simp, .cons hfresh hcounted horder⟩
    · cases h

/-- What a declaration gives has its fields in order. -/
theorem inOrder_of_bind {aliases : AliasTable} {decl : StructDecl} {s : StructType}
    (h : bind aliases decl = .ok s) : InOrder [] s.fields := by
  unfold bind at h
  split at h
  · obtain ⟨all, hall, h⟩ := bind_eq_ok.mp h
    cases h
    obtain ⟨fields, rfl, horder⟩ := inOrder_of_bindFields hall
    simpa using horder
  · cases h

end StructType

/-! ## Values of the fields in front -/

section Fresh

variable {earlier : List Field} {field : Field} (fresh : field.name ∉ earlier.map Field.name)
include fresh

theorem names_set_of_fresh {before : Record} (hbefore : before.names = earlier.map Field.name)
    (value : Value) :
    (before.set field.name value).names = (earlier ++ [field]).map Field.name := by
  rw [NameTable.names_set, hbefore, if_neg fresh, List.map_append, List.map_singleton]

/-- A value for a new field leaves those of the fields in front alone. -/
theorem get?_set_of_fresh {g : Field} (hg : g ∈ earlier) (before : Record) (value : Value) :
    (before.set field.name value).get? g.name = before.get? g.name := by
  have hne : g.name ≠ field.name := fun e => fresh (e ▸ List.mem_map.mpr ⟨g, hg, rfl⟩)
  rw [NameTable.get?_set, if_neg hne]

end Fresh

/-- A length has the same value in records that agree on the fields that may count. -/
theorem eval_count?_congr {earlier : List Field} {field : Field} {elem : ScalarType}
    {length : LengthExpr} (htype : field.type = .sequence elem length)
    (hcounted : StructType.CountedIn earlier field.type) {r t : Record}
    (h : ∀ g ∈ earlier, g.type.countsElements = true → r.get? g.name = t.get? g.name) :
    length.eval (Record.count? r) = length.eval (Record.count? t) := by
  apply LengthExpr.eval_congr
  intro name hname
  rw [StructType.CountedIn, htype] at hcounted
  obtain ⟨g, hg, rfl, hcounts⟩ := hcounted name hname
  rw [Record.count?, Record.count?, h g hg hcounts]

/-! ## A telemetry packet -/

/-- A packet with a field of every shape: a counter behind an alias, a float, two sequences in a
row, an array without elements. -/
def telemetryDecl : StructDecl where
  name := "Telemetry"
  fields :=
    [⟨"count", .named "Count", none⟩, ⟨"scale", .named "f32", none⟩,
      ⟨"samples", .sequence (.named "i16"), some "count * 2 - 1"⟩,
      ⟨"marks", .sequence (.named "u64"), some "count - 1"⟩,
      ⟨"pad", .array (.named "u64") 0, none⟩, ⟨"tag", .array (.named "u8") 2, none⟩]

def telemetryAliases : AliasTable := .ofList [("Count", "u8")]

def telemetry : StructType where
  name := "Telemetry"
  fields :=
    [⟨"count", .scalar ⟨some "Count", .u8⟩⟩, ⟨"scale", .scalar ⟨none, .f32⟩⟩,
      ⟨"samples", .sequence ⟨none, .i16⟩
        (.binary .sub (.binary .mul (.field "count") (.const 2)) (.const 1))⟩,
      ⟨"marks", .sequence ⟨none, .u64⟩ (.binary .sub (.field "count") (.const 1))⟩,
      ⟨"pad", .array ⟨none, .u64⟩ 0 (by decide)⟩, ⟨"tag", .array ⟨none, .u8⟩ 2 (by decide)⟩]

theorem bind_telemetry : StructType.bind telemetryAliases telemetryDecl = .ok telemetry := by rfl

/-- One sample, no mark, and a scale that is not a number and has a payload. -/
def telemetryRecord : Record := .ofList
  [("count", .scalar (.ofBits .u8 1)), ("scale", .scalar (.ofBits .f32 0x7fc00001)),
    ("samples", .sequence [.scalar (.ofBits .i16 0xffff)]), ("marks", .sequence []),
    ("pad", .array []), ("tag", .array [.scalar (.ofBits .u8 7), .scalar (.ofBits .u8 8)])]

def telemetryBytes : List UInt8 := [1, 1, 0, 192, 127, 255, 255, 7, 8]

end WireCodec
