import WireCodec.Proofs.Except
import WireCodec.Record.Value
import WireCodec.Run.Error
import WireCodec.Schema.StructType

/-!
# What a record has to provide

`Record.Provides` says when a record has what a field asks for, and `Record.bytesOf` which bytes it
then stands for.  `countFault?` and `storeFault?` find what is wrong otherwise.  Nothing here depends
on the steps of an encoding.
-/

namespace WireCodec

/-! ## Bytes -/

namespace Value

/-- The bit pattern of a scalar, its lowest byte first. -/
def scalarBytes : Value → List UInt8
  | .scalar x => lowBytes x.kind.size x.bits
  | _ => []

/-- The bytes of a scalar, or those of the elements one behind the other. -/
def wireBytes : Value → List UInt8
  | .scalar x => lowBytes x.kind.size x.bits
  | .array elements | .sequence elements => elements.flatMap scalarBytes

end Value

namespace Record

def bytesOf (record : Record) (field : Field) : List UInt8 :=
  match record.get? field.name with
  | some value => value.wireBytes
  | none => []

/-- The number of bytes of the elements that the length of a sequence counts; none for other
fields. -/
def sequenceBytes (record : Record) (field : Field) : Nat :=
  match field.type with
  | .sequence elem length =>
    match length.eval (Record.count? record) with
    | .ok count => count.toNat * elem.size
    | .error _ => 0
  | _ => 0

/-! ## Requirements -/

/-- The record has a collection of these scalars, all of one kind.  It may be an array or a
sequence. -/
def Collects (record : Record) (name : String) (kind : ScalarKind) (xs : List Scalar) : Prop :=
  ∃ value, record.get? name = some value ∧ value.elements? = some (xs.map .scalar) ∧
    ∀ x ∈ xs, x.kind = kind

/-- The record has what a field asks for. -/
def Provides (record : Record) (field : Field) : Prop :=
  match field.type with
  | .scalar type => ∃ x, record.get? field.name = some (.scalar x) ∧ x.kind = type.kind
  | .array elem length _ => ∃ xs, record.Collects field.name elem.kind xs ∧ xs.length = length
  | .sequence elem length => ∃ count xs, length.eval (Record.count? record) = .ok count ∧
      record.Collects field.name elem.kind xs ∧ xs.length = count.toNat

/-! ## Faults -/

def kindFault? (name : String) (kind : ScalarKind) (value : Value) : Option CodecError :=
  if value.kind? = some kind then none else some (.wrongKind name kind.name value.describe)

def lengthFault? (name : String) (length : Nat) (elements : List Value) : Option CodecError :=
  if elements.length = length then none else some (.wrongCount name length elements.length)

/-- No value, a value that is no collection, or a fault of the elements. -/
def collectionFault? (record : Record) (name : String) (fault : List Value → Option CodecError) :
    Option CodecError :=
  match record.get? name with
  | none => some (.missingField name)
  | some value =>
    match value.elements? with
    | none => some (.wrongKind name "array or sequence" value.describe)
    | some elements => fault elements

/-- What is wrong with the number of elements of a sequence. -/
def countFault? (record : Record) (field : Field) : Option CodecError :=
  match field.type with
  | .sequence _ length =>
    match length.eval (Record.count? record) with
    | .error cause => some (.length field.name (.evaluation cause))
    | .ok count => record.collectionFault? field.name (lengthFault? field.name count.toNat)
  | _ => none

/-- What is wrong with the value of a field. -/
def storeFault? (record : Record) (field : Field) : Option CodecError :=
  match field.type with
  | .scalar type =>
    match record.get? field.name with
    | none => some (.missingField field.name)
    | some value => kindFault? field.name type.kind value
  | .array elem length _ => record.collectionFault? field.name fun elements =>
      (lengthFault? field.name length elements).or
        (elements.findSome? (kindFault? field.name elem.kind))
  | .sequence elem _ => record.collectionFault? field.name fun elements =>
      elements.findSome? (kindFault? field.name elem.kind)

/-! ## Records without a fault -/

theorem kindFault?_eq_none {name : String} {kind : ScalarKind} {value : Value} :
    kindFault? name kind value = none ↔ ∃ x, value = .scalar x ∧ x.kind = kind := by
  cases value with
  | scalar x => simp [kindFault?, Value.kind?]
  | array elements => simp [kindFault?, Value.kind?]
  | sequence elements => simp [kindFault?, Value.kind?]

theorem findSome?_kindFault?_eq_none {name : String} {kind : ScalarKind} {elements : List Value} :
    elements.findSome? (kindFault? name kind) = none ↔
      ∃ xs : List Scalar, elements = xs.map .scalar ∧ ∀ x ∈ xs, x.kind = kind := by
  induction elements with
  | nil => exact iff_of_true rfl ⟨[], rfl, by simp⟩
  | cons value rest ih =>
    rw [List.findSome?_cons]
    constructor
    · intro h
      cases hvalue : kindFault? name kind value with
      | some e => rw [hvalue] at h; cases h
      | none =>
        rw [hvalue] at h
        obtain ⟨x, rfl, hx⟩ := kindFault?_eq_none.mp hvalue
        obtain ⟨xs, rfl, hxs⟩ := ih.mp h
        exact ⟨x :: xs, rfl, by simpa [hx] using hxs⟩
    · rintro ⟨xs, hxs, hkinds⟩
      cases xs with
      | nil => cases hxs
      | cons x xs =>
        cases hxs
        have hx : kindFault? name kind (.scalar x) = none :=
          kindFault?_eq_none.mpr ⟨x, rfl, hkinds x (List.mem_cons_self ..)⟩
        rw [hx]
        exact ih.mpr ⟨xs, rfl, fun y hy => hkinds y (List.mem_cons_of_mem _ hy)⟩

theorem lengthFault?_eq_none {name : String} {length : Nat} {elements : List Value} :
    lengthFault? name length elements = none ↔ elements.length = length := by
  simp [lengthFault?]

theorem collectionFault?_eq_none {record : Record} {name : String}
    {fault : List Value → Option CodecError} :
    record.collectionFault? name fault = none ↔
      ∃ value elements, record.get? name = some value ∧ value.elements? = some elements ∧
        fault elements = none := by
  unfold collectionFault?
  cases record.get? name with
  | none => simp
  | some value =>
    cases helements : value.elements? with
    | none => simp [helements]
    | some elements => simp [helements]

/-- A record provides a field exactly when nothing is wrong with it. -/
theorem provides_iff {record : Record} {field : Field} :
    record.Provides field ↔ record.countFault? field = none ∧ record.storeFault? field = none := by
  unfold Provides countFault? storeFault?
  cases field.type with
  | scalar type =>
    cases hvalue : record.get? field.name with
    | none => simp
    | some value => simp [kindFault?_eq_none]
  | array elem length fits =>
    simp only [true_and, collectionFault?_eq_none, Option.or_eq_none_iff, lengthFault?_eq_none,
      findSome?_kindFault?_eq_none, Collects]
    constructor
    · rintro ⟨xs, ⟨value, hvalue, helements, hkinds⟩, hlength⟩
      exact ⟨value, _, hvalue, helements, by rw [List.length_map, hlength], xs, rfl, hkinds⟩
    · rintro ⟨value, elements, hvalue, helements, hlength, xs, rfl, hkinds⟩
      exact ⟨xs, ⟨value, hvalue, helements, hkinds⟩, by rw [← hlength, List.length_map]⟩
  | sequence elem length =>
    cases heval : length.eval (Record.count? record) with
    | error cause => simp [heval]
    | ok count =>
      simp only [heval, collectionFault?_eq_none, lengthFault?_eq_none, findSome?_kindFault?_eq_none,
        Collects]
      constructor
      · rintro ⟨_, xs, hcount, ⟨value, hvalue, helements, hkinds⟩, hlength⟩
        cases hcount
        exact ⟨⟨value, _, hvalue, helements, by rw [List.length_map, hlength]⟩,
          value, _, hvalue, helements, xs, rfl, hkinds⟩
      · rintro ⟨⟨value, elements, hvalue, helements, hlength⟩, other, _, hother, hscalars, xs, rfl,
          hkinds⟩
        rw [hvalue, Option.some.injEq] at hother
        subst hother
        rw [helements, Option.some.injEq] at hscalars
        subst hscalars
        exact ⟨count, xs, rfl, ⟨value, hvalue, helements, hkinds⟩, by
          rw [← hlength, List.length_map]⟩

end Record

/-- The first thing that is wrong with a record.  The counts of all sequences come before the values
of all fields. -/
def StructType.firstFault? (s : StructType) (record : Record) : Option CodecError :=
  (s.fields.findSome? record.countFault?).or (s.fields.findSome? record.storeFault?)

/-- The bytes that a record has for the fields of a struct, one behind the other. -/
def StructType.wireBytes (s : StructType) (record : Record) : List UInt8 :=
  s.fields.flatMap record.bytesOf

/-- A record is without fault exactly if it provides every field. -/
theorem StructType.firstFault?_eq_none {s : StructType} {record : Record} :
    s.firstFault? record = none ↔ ∀ field ∈ s.fields, record.Provides field := by
  rw [firstFault?, Option.or_eq_none_iff, List.findSome?_eq_none_iff, List.findSome?_eq_none_iff]
  constructor
  · rintro ⟨hcounts, hstores⟩ field hfield
    exact Record.provides_iff.mpr ⟨hcounts field hfield, hstores field hfield⟩
  · intro h
    exact ⟨fun field hfield => (Record.provides_iff.mp (h field hfield)).1,
      fun field hfield => (Record.provides_iff.mp (h field hfield)).2⟩

end WireCodec
