import WireCodec.Run.Decode
import WireCodec.Run.Encode

/-!
# Other names for aliases

Aliases stand in struct types and in steps only to be spelled in generated code.  So a struct type
whose aliases get other names, or none, has the same groups, and its codec differs from that of the
given one in these names alone.  No step looks at them when it is carried out: `run_realias` and
`encodeTo_realias`.
-/

namespace WireCodec

variable (rename : String → Option String)

/-- Gives an alias another name, or none. -/
def ScalarType.realias (type : ScalarType) : ScalarType where
  aliasName := type.aliasName.bind rename
  kind := type.kind

def WireType.realias : WireType → WireType
  | .scalar type => .scalar (type.realias rename)
  | .array elem length fits => .array (elem.realias rename) length fits
  | .sequence elem length => .sequence (elem.realias rename) length

def Field.realias (field : Field) : Field where
  name := field.name
  type := field.type.realias rename

def StructType.realias (s : StructType) : StructType where
  name := s.name
  fields := s.fields.map (Field.realias rename)

def DecodeStep.realias : DecodeStep → DecodeStep
  | .newArray field length elem => .newArray field length (elem.realias rename)
  | .newSequence field elem => .newSequence field (elem.realias rename)
  | .load slot type offset => .load slot (type.realias rename) offset
  | step => step

def EncodeStep.realias : EncodeStep → EncodeStep
  | .store slot type => .store slot (type.realias rename)
  | step => step

def Codec.realias (c : Codec) : Codec where
  name := c.name
  fields := c.fields.map (Field.realias rename)
  groups := c.groups
  decode := c.decode.map (DecodeStep.realias rename)
  encode := c.encode.map (EncodeStep.realias rename)
  fixedSize := c.fixedSize

/-! ## Struct types -/

namespace WireType

@[simp] theorem size?_realias (type : WireType) : (type.realias rename).size? = type.size? := by
  cases type <;> rfl

@[simp] theorem countsElements_realias (type : WireType) :
    (type.realias rename).countsElements = type.countsElements := by
  cases type <;> rfl

theorem element_realias (type : WireType) :
    (type.realias rename).element = type.element.realias rename := by
  cases type <;> rfl

@[simp] theorem references_realias (type : WireType) :
    StructType.references (type.realias rename) = StructType.references type := by
  cases type <;> rfl

end WireType

theorem Field.find?_realias (name : String) (fields : List Field) :
    Field.find? name (fields.map (Field.realias rename)) =
      (Field.find? name fields).map (Field.realias rename) := by
  rw [Field.find?, List.find?_map]
  rfl

theorem Group.ofFieldsFrom_realias (start index bytes : Nat) (fields : List Field) :
    ofFieldsFrom start index bytes (fields.map (Field.realias rename)) =
      ofFieldsFrom start index bytes fields := by
  induction fields generalizing start index bytes with
  | nil => rfl
  | cons field rest ih =>
    have hsize : (field.realias rename).type.size? = field.type.size? :=
      WireType.size?_realias rename field.type
    rw [List.map_cons, ofFieldsFrom, ofFieldsFrom, hsize]
    split <;> rw [ih]

/-- Groups are made from sizes, so other names of aliases give the same groups. -/
theorem Group.ofFields_realias (fields : List Field) :
    ofFields (fields.map (Field.realias rename)) = ofFields fields :=
  ofFieldsFrom_realias rename 0 0 0 fields

/-! ## Steps -/

namespace StructType

theorem decodeField_realias (offset : Nat) (field : Field) :
    decodeField offset (field.realias rename) =
      (decodeField offset field).map (DecodeStep.realias rename) := by
  obtain ⟨name, type⟩ := field
  cases type with
  | scalar type => rfl
  | array elem length fits =>
    simp only [decodeField, Field.realias, WireType.realias]
    split <;> rfl
  | sequence elem length => rfl

theorem decodeFields_realias (offset : Nat) (fields : List Field) :
    decodeFields offset (fields.map (Field.realias rename)) =
      (decodeFields offset fields).map (DecodeStep.realias rename) := by
  induction fields generalizing offset with
  | nil => rfl
  | cons field rest ih =>
    have hsize : (field.realias rename).type.size? = field.type.size? :=
      WireType.size?_realias rename field.type
    rw [List.map_cons, decodeFields, decodeFields, decodeField_realias, hsize, ih, List.map_append]

theorem decodeGroup_realias (fields : List Field) (g : Group) :
    decodeGroup (fields.map (Field.realias rename)) g =
      (decodeGroup fields g).map (DecodeStep.realias rename) := by
  have hslice : g.slice (fields.map (Field.realias rename)) =
      (g.slice fields).map (Field.realias rename) := by
    rw [Group.slice, Group.slice, List.map_take, List.map_drop]
  have hextent (extent : Extent) :
      (decodeExtent extent).map (DecodeStep.realias rename) = decodeExtent extent := by
    unfold decodeExtent
    split <;> rfl
  rw [decodeGroup, decodeGroup, hslice, decodeFields_realias, List.map_append, hextent]

/-- Renaming before the decoding steps are made, or after, is the same. -/
theorem decodeSteps_realias (fields : List Field) (groups : List Group) :
    decodeSteps (fields.map (Field.realias rename)) groups =
      (decodeSteps fields groups).map (DecodeStep.realias rename) := by
  have hgroups : groups.flatMap (decodeGroup (fields.map (Field.realias rename))) =
      (groups.flatMap (decodeGroup fields)).map (DecodeStep.realias rename) := by
    rw [List.map_flatMap]
    exact congrArg groups.flatMap (funext (decodeGroup_realias rename fields))
  rw [decodeSteps, decodeSteps, List.map_append, hgroups]
  split <;> rfl

theorem countSteps_realias (field : Field) :
    countSteps (field.realias rename) = (countSteps field).map (EncodeStep.realias rename) := by
  obtain ⟨name, type⟩ := field
  cases type <;> rfl

theorem countedUnit_realias (field : Field) :
    countedUnit (field.realias rename) = countedUnit field := by
  obtain ⟨name, type⟩ := field
  cases type <;> rfl

theorem storeStep_realias (field : Field) :
    storeStep (field.realias rename) = (storeStep field).realias rename := by
  obtain ⟨name, type⟩ := field
  cases type <;> rfl

theorem encodeSteps_realias (fields : List Field) (groups : List Group) :
    encodeSteps (fields.map (Field.realias rename)) groups =
      (encodeSteps fields groups).map (EncodeStep.realias rename) := by
  have hcounts : (fields.map (Field.realias rename)).flatMap countSteps =
      (fields.flatMap countSteps).map (EncodeStep.realias rename) := by
    rw [List.flatMap_map, List.map_flatMap]
    exact congrArg fields.flatMap (funext (countSteps_realias rename))
  have hunits : (fields.map (Field.realias rename)).filterMap countedUnit =
      fields.filterMap countedUnit := by
    rw [List.filterMap_map]
    exact congrArg (List.filterMap · fields) (funext (countedUnit_realias rename))
  have hstores : (fields.map (Field.realias rename)).map storeStep =
      (fields.map storeStep).map (EncodeStep.realias rename) := by
    rw [List.map_map, List.map_map]
    exact List.map_congr_left fun field _ => storeStep_realias rename field
  simp only [encodeSteps, List.map_append, hcounts, hunits, hstores]
  rfl

/-- Compiling commutes with renaming. -/
theorem compile_realias (s : StructType) :
    (s.realias rename).compile = s.compile.realias rename := by
  show Codec.mk _ _ _ _ _ _ = Codec.mk _ _ _ _ _ _
  rw [show (s.realias rename).fields = s.fields.map (Field.realias rename) from rfl,
    Group.ofFields_realias, decodeSteps_realias, encodeSteps_realias]
  rfl

end StructType

/-! ## Runs -/

namespace DecodeState

/-- A step asks a type for its kind only. -/
theorem step_realias (s : DecodeState) (d : DecodeStep) : s.step (d.realias rename) = s.step d := by
  cases d with
  | load slot type offset => cases slot <;> rfl
  | _ => rfl

/-- Renamed steps do what the steps did: no run looks at the name of an alias. -/
theorem steps_realias (s : DecodeState) (list : List DecodeStep) :
    s.steps (list.map (DecodeStep.realias rename)) = s.steps list := by
  rw [steps, List.foldlM_map]
  exact congrArg (fun f => list.foldlM f s)
    (funext fun t => funext fun d => step_realias rename t d)

end DecodeState

namespace Codec

/-- A decoding does not depend on the names of aliases. -/
theorem run_realias (c : Codec) (input : List UInt8) : (c.realias rename).run input = c.run input := by
  have hresults (s : DecodeState) :
      (c.fields.map (Field.realias rename)).mapM s.result = c.fields.mapM s.result := by
    rw [List.mapM_map]
    rfl
  simp only [run, realias, DecodeState.steps_realias, hresults]

theorem fixedCount?_realias (c : Codec) (field : String) :
    (c.realias rename).fixedCount? field = c.fixedCount? field := by
  have hfield : (c.realias rename).field? field = (c.field? field).map (Field.realias rename) :=
    Field.find?_realias rename field c.fields
  rw [fixedCount?, fixedCount?, hfield]
  cases c.field? field with
  | none => rfl
  | some found =>
    obtain ⟨name, type⟩ := found
    cases type <;> rfl

theorem slotBytes_realias (c : Codec) (record : Record) (type : ScalarType) (slot : Slot) :
    (c.realias rename).slotBytes record (type.realias rename) slot =
      c.slotBytes record type slot := by
  cases slot with
  | field name => rfl
  | elements name =>
    simp only [slotBytes, fixedCount?_realias]
    rfl

/-- A renamed step of an encoding does what the step did. -/
theorem encodeStep_realias (c : Codec) (record : Record) (s : EncodeState) (e : EncodeStep) :
    (c.realias rename).encodeStep record s (e.realias rename) = c.encodeStep record s e := by
  cases e with
  | store slot type => simp only [encodeStep, EncodeStep.realias, slotBytes_realias]
  | _ => rfl

/-- An encoding does not depend on the names of aliases. -/
theorem encodeTo_realias (c : Codec) (record : Record) (output : Output) :
    (c.realias rename).encodeTo record output = c.encodeTo record output := by
  have hsteps (s : EncodeState) :
      (c.encode.map (EncodeStep.realias rename)).foldlM ((c.realias rename).encodeStep record) s =
        c.encode.foldlM (c.encodeStep record) s := by
    rw [List.foldlM_map]
    exact congrArg (fun f => c.encode.foldlM f s)
      (funext fun t => funext fun e => encodeStep_realias rename c record t e)
  rw [encodeTo, encodeTo, show (c.realias rename).encode =
    c.encode.map (EncodeStep.realias rename) from rfl, hsteps]

end Codec

end WireCodec
