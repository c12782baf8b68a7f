import WireCodec.Proofs.Schema.Order
import WireCodec.Procedure.Codec

/-!
# The names in a codec

Which names a codec brings into generated code: that of the struct, those of its fields, and in
types and steps also those of aliases and of the fields that lengths ask for.  Compiling adds none
to those of the struct type.
-/

namespace WireCodec

def WireType.names (type : WireType) : List String :=
  type.element.aliasName.toList ++ StructType.references type

def Field.names (field : Field) : List String := field.name :: field.type.names

def DecodeStep.names : DecodeStep → List String
  | .scratch _ | .read (.fixed _) => []
  | .count field length => field :: length.fields
  | .read (.counted field _) => [field]
  | .newArray field _ elem | .newSequence field elem => field :: elem.aliasName.toList
  | .load slot type _ => slot.name :: type.aliasName.toList

def EncodeStep.names : EncodeStep → List String
  | .count field length => field :: length.fields
  | .checkCount field => [field]
  | .reserve _ counted => counted.map Prod.fst
  | .store slot type => slot.name :: type.aliasName.toList
  | .write => []

def Codec.names (c : Codec) : List String :=
  c.name :: (c.fields.flatMap Field.names ++ c.decode.flatMap DecodeStep.names ++
    c.encode.flatMap EncodeStep.names)

namespace Codec

variable {c : Codec} {name : String}

theorem mem_names_of_field {f : Field} (hf : f ∈ c.fields) (h : name ∈ f.names) : name ∈ c.names :=
  List.mem_cons_of_mem _ (List.mem_append_left _ (List.mem_append_left _
    (List.mem_flatMap.mpr ⟨f, hf, h⟩)))

theorem mem_names_of_decode {step : DecodeStep} (hstep : step ∈ c.decode) (h : name ∈ step.names) :
    name ∈ c.names :=
  List.mem_cons_of_mem _ (List.mem_append_left _ (List.mem_append_right _
    (List.mem_flatMap.mpr ⟨step, hstep, h⟩)))

theorem mem_names_of_encode {step : EncodeStep} (hstep : step ∈ c.encode) (h : name ∈ step.names) :
    name ∈ c.names :=
  List.mem_cons_of_mem _ (List.mem_append_right _ (List.mem_flatMap.mpr ⟨step, hstep, h⟩))

end Codec

/-- A field brings its own name, that of its alias, and those that its length asks for. -/
theorem Field.mem_names {field : Field} {name : String} :
    name ∈ field.names ↔ name = field.name ∨ field.type.element.aliasName = some name ∨
      name ∈ StructType.references field.type := by
  rw [names, List.mem_cons, WireType.names, List.mem_append, Option.mem_toList]

namespace StructType

/-- The steps of a field name nothing but what the field names. -/
theorem names_decodeField {offset : Nat} {field : Field} {name : String}
    (h : name ∈ (decodeField offset field).flatMap DecodeStep.names) : name ∈ field.names := by
  rw [Field.mem_names]
  obtain ⟨fieldName, type⟩ := field
  cases type with
  | scalar type =>
    simp only [decodeField, List.flatMap_cons, List.flatMap_nil, List.append_nil, DecodeStep.names,
      Slot.name, List.mem_cons, Option.mem_toList] at h
    exact h.imp_right .inl
  | array elem length fits =>
    have hstep : name = fieldName ∨ elem.aliasName = some name := by
      simp only [decodeField] at h
      split at h <;>
        simpa only [List.flatMap_cons, List.flatMap_nil, List.append_nil, DecodeStep.names,
          Slot.name, List.mem_append, List.mem_cons, Option.mem_toList, or_self] using h
    exact hstep.imp_right .inl
  | sequence elem length =>
    simp only [decodeField, List.flatMap_cons, List.flatMap_nil, DecodeStep.names, Slot.name,
      List.mem_append, List.mem_cons, List.not_mem_nil, or_false, Option.mem_toList] at h
    show name = fieldName ∨ elem.aliasName = some name ∨ name ∈ length.fields
    grind

theorem names_decodeFields {offset : Nat} {fields : List Field} {name : String}
    (h : name ∈ (decodeFields offset fields).flatMap DecodeStep.names) :
    ∃ f ∈ fields, name ∈ f.names := by
  induction fields generalizing offset with
  | nil => cases h
  | cons field rest ih =>
    rw [decodeFields, List.flatMap_append, List.mem_append] at h
    rcases h with h | h
    · exact ⟨field, List.mem_cons_self .., names_decodeField h⟩
    · obtain ⟨f, hf, hname⟩ := ih h
      exact ⟨f, List.mem_cons_of_mem _ hf, hname⟩

theorem names_decodeGroup {fields : List Field} {g : Group} {name : String}
    (h : name ∈ (decodeGroup fields g).flatMap DecodeStep.names) :
    ∃ f ∈ fields, name ∈ f.names := by
  have hextent : (decodeExtent g.extent).flatMap DecodeStep.names = [] := by
    unfold decodeExtent
    split <;> rfl
  rw [decodeGroup, List.flatMap_append, hextent, List.nil_append] at h
  obtain ⟨f, hf, hname⟩ := names_decodeFields h
  exact ⟨f, List.mem_of_mem_drop (List.mem_of_mem_take hf), hname⟩

/-- The steps of a decoding name nothing but what the fields name. -/
theorem names_decodeSteps {fields : List Field} {groups : List Group} {name : String}
    (h : name ∈ (decodeSteps fields groups).flatMap DecodeStep.names) :
    ∃ f ∈ fields, name ∈ f.names := by
  rw [decodeSteps, List.flatMap_append, List.mem_append] at h
  rcases h with h | h
  · split at h <;> cases h
  · rw [List.flatMap_assoc] at h
    obtain ⟨g, -, h⟩ := List.mem_flatMap.mp h
    exact names_decodeGroup h

theorem names_countSteps {field : Field} {name : String}
    (h : name ∈ (countSteps field).flatMap EncodeStep.names) : name ∈ field.names := by
  obtain ⟨fieldName, type⟩ := field
  cases type with
  | sequence elem length =>
    simp only [countSteps, EncodeStep.names, List.flatMap_cons, List.flatMap_nil,
      List.mem_append, List.mem_cons, List.not_mem_nil, or_false] at h
    show name ∈ fieldName :: (elem.aliasName.toList ++ length.fields)
    rw [List.mem_cons, List.mem_append]
    grind
  | _ => cases h

theorem name_countedUnit {field : Field} {e : String × Nat} (h : countedUnit field = some e) :
    e.1 = field.name := by
  obtain ⟨fieldName, type⟩ := field
  cases type with
  | sequence elem length =>
    cases h
    rfl
  | _ => cases h

theorem names_storeStep {field : Field} {name : String} (h : name ∈ (storeStep field).names) :
    name ∈ field.names := by
  have hslot : name ∈ field.name :: field.type.element.aliasName.toList := by
    unfold storeStep at h
    dsimp only at h
    split at h <;> exact h
  rcases List.mem_cons.mp hslot with rfl | halias
  · exact List.mem_cons_self ..
  · exact List.mem_cons_of_mem _ (List.mem_append_left _ halias)

theorem names_encodeSteps {fields : List Field} {groups : List Group} {name : String}
    (h : name ∈ (encodeSteps fields groups).flatMap EncodeStep.names) :
    ∃ f ∈ fields, name ∈ f.names := by
  simp only [encodeSteps, List.flatMap_append, List.mem_append, List.flatMap_cons,
    List.flatMap_nil, List.append_nil, List.flatMap_assoc, List.flatMap_map] at h
  -- The names of the counts, of what is reserved, of what is stored, and of the write, which has none.
  rcases h with ((h | h) | h) | h
  · obtain ⟨f, hf, h⟩ := List.mem_flatMap.mp h
    exact ⟨f, hf, names_countSteps h⟩
  · obtain ⟨e, he, rfl⟩ := List.mem_map.mp h
    obtain ⟨f, hf, hunit⟩ := List.mem_filterMap.mp he
    rw [name_countedUnit hunit]
    exact ⟨f, hf, List.mem_cons_self ..⟩
  · obtain ⟨f, hf, h⟩ := List.mem_flatMap.mp h
    exact ⟨f, hf, names_storeStep h⟩
  · cases h

/-- A codec has the names of its struct type and no others. -/
theorem names_compile {s : StructType} {name : String} (h : name ∈ s.compile.names) :
    name = s.name ∨ ∃ f ∈ s.fields, name ∈ f.names := by
  rcases List.mem_cons.mp h with h | h
  · exact .inl h
  · rw [List.mem_append, List.mem_append] at h
    rcases h with (h | h) | h
    · exact .inr (List.mem_flatMap.mp h)
    · exact .inr (names_decodeSteps h)
    · exact .inr (names_encodeSteps h)

/-- A length that may stand behind fields asks for their names only. -/
theorem CountedIn.mem_names {earlier : List Field} {type : WireType} (h : CountedIn earlier type)
    {name : String} (hname : name ∈ references type) : name ∈ earlier.map Field.name := by
  obtain ⟨g, hg, rfl, -⟩ := h name hname
  exact List.mem_map.mpr ⟨g, hg, rfl⟩

end StructType

/-- Lengths ask for names of fields. -/
theorem InOrder.mem_names {earlier fields : List Field} (h : InOrder earlier fields) {f : Field}
    (hf : f ∈ fields) {name : String} (hname : name ∈ StructType.references f.type) :
    name ∈ (earlier ++ fields).map Field.name := by
  induction h with
  | nil => cases hf
  | @cons earlier rest field fresh counted later ih =>
    rcases List.mem_cons.mp hf with rfl | hf
    · rw [List.map_append]
      exact List.mem_append_left _ (counted.mem_names hname)
    · rw [List.append_cons]
      exact ih hf

end WireCodec
