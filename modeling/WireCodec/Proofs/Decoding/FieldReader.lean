import WireCodec.Proofs.Schema.Order
import WireCodec.Run.Error

/-!
# Reading field by field

The plain meaning of the bytes of a record: its fields one behind the other, each scalar read on its
own, and a sequence counted from the fields in front of it.  There are no groups, no scratch buffer
and no offsets here, so this reader is what a decoding by steps is measured against.
-/

namespace WireCodec

/-! ## The reader -/

def readScalar (kind : ScalarKind) (input : List UInt8) : Except CodecError (Scalar × List UInt8) :=
  if kind.size ≤ input.length then
    .ok (Scalar.ofBytes kind (input.take kind.size), input.drop kind.size)
  else .error .endOfInput

def readScalars (kind : ScalarKind) :
    Nat → List UInt8 → Except CodecError (List Scalar × List UInt8)
  | 0, input => .ok ([], input)
  | count + 1, input => do
    let (x, input) ← readScalar kind input
    let (xs, input) ← readScalars kind count input
    return (x :: xs, input)

/-- The value of a field, when the fields in front of it have the values given. -/
def readValue (before : Record) (field : Field) (input : List UInt8) :
    Except CodecError (Value × List UInt8) :=
  match field.type with
  | .scalar type => do
    let (x, input) ← readScalar type.kind input
    return (.scalar x, input)
  | .array elem length _ => do
    let (xs, input) ← readScalars elem.kind length input
    return (.array (xs.map .scalar), input)
  | .sequence elem length =>
    match length.eval (Record.count? before) with
    | .error cause => .error (.length field.name (.evaluation cause))
    | .ok count =>
      if count.toNat * elem.size < wordLimit then do
        let (xs, input) ← readScalars elem.kind count.toNat input
        return (.sequence (xs.map .scalar), input)
      else .error (.length field.name .bytesOverflow)

/-- The values of fields, read one after another and added to those of the fields in front. -/
def readFields (before : Record) : List Field → List UInt8 → Except CodecError (Record × List UInt8)
  | [], input => .ok (before, input)
  | field :: rest, input => do
    let (value, input) ← readValue before field input
    readFields (before.set field.name value) rest input

/-- The record at the front of some bytes, and the bytes behind it. -/
def StructType.readRecord (s : StructType) (input : List UInt8) :
    Except CodecError (Record × List UInt8) :=
  readFields .empty s.fields input

section Types

variable {field : Field} (before : Record) (input : List UInt8)

theorem readValue_scalar {type : ScalarType} (htype : field.type = .scalar type) :
    readValue before field input =
      readScalar type.kind input >>= fun read => .ok (.scalar read.1, read.2) := by
  rw [readValue, htype]
  rfl

theorem readValue_array {elem : ScalarType} {length : Nat} {fits : elem.size * length < wordLimit}
    (htype : field.type = .array elem length fits) :
    readValue before field input =
      readScalars elem.kind length input >>= fun read => .ok (.array (read.1.map .scalar), read.2) := by
  rw [readValue, htype]
  rfl

theorem readValue_sequence {elem : ScalarType} {length : LengthExpr}
    (htype : field.type = .sequence elem length) :
    readValue before field input =
      match length.eval (Record.count? before) with
      | .error cause => .error (.length field.name (.evaluation cause))
      | .ok count =>
        if count.toNat * elem.size < wordLimit then
          readScalars elem.kind count.toNat input >>= fun read =>
            .ok (.sequence (read.1.map .scalar), read.2)
        else .error (.length field.name .bytesOverflow) := by
  rw [readValue, htype]
  rfl

end Types

/-! ## Scalars in a row -/

/-- The scalars that stand one behind the other in some bytes. -/
def scalarsAt (kind : ScalarKind) (count : Nat) (input : List UInt8) : List Scalar :=
  (List.range count).map fun i =>
    Scalar.ofBytes kind ((input.drop (i * kind.size)).take kind.size)

theorem scalarsAt_succ (kind : ScalarKind) (count : Nat) (input : List UInt8) :
    scalarsAt kind (count + 1) input =
      Scalar.ofBytes kind (input.take kind.size) :: scalarsAt kind count (input.drop kind.size) := by
  have hnext (i : Nat) : (i + 1) * kind.size = kind.size + i * kind.size := by
    rw [Nat.succ_mul, Nat.add_comm]
  rw [scalarsAt, List.range_succ_eq_map, List.map_cons, List.map_map, Nat.zero_mul, List.drop_zero]
  simp only [scalarsAt, Function.comp_def, Nat.succ_eq_add_one, hnext, List.drop_drop]

theorem readScalars_of_le {kind : ScalarKind} {count : Nat} {input : List UInt8}
    (h : count * kind.size ≤ input.length) :
    readScalars kind count input = .ok (scalarsAt kind count input, input.drop (count * kind.size)) := by
  induction count generalizing input with
  | zero => rw [readScalars, Nat.zero_mul, List.drop_zero]; rfl
  | succ count ih =>
    rw [Nat.succ_mul] at h
    have hrest : count * kind.size ≤ (input.drop kind.size).length := by
      rw [List.length_drop]
      omega
    have hnext : (count + 1) * kind.size = kind.size + count * kind.size := by
      rw [Nat.succ_mul, Nat.add_comm]
    rw [readScalars, readScalar, if_pos (by omega)]
    simp only [ok_bind, ih hrest]
    rw [scalarsAt_succ, hnext, ← List.drop_drop]
    rfl

/-- With too few bytes for all the scalars, none of them counts as read. -/
theorem readScalars_of_lt {kind : ScalarKind} {count : Nat} {input : List UInt8}
    (h : input.length < count * kind.size) : readScalars kind count input = .error .endOfInput := by
  induction count generalizing input with
  | zero => omega
  | succ count ih =>
    rw [Nat.succ_mul] at h
    rw [readScalars, readScalar]
    by_cases hle : kind.size ≤ input.length
    · have hrest : (input.drop kind.size).length < count * kind.size := by
        rw [List.length_drop]
        omega
      simp only [if_pos hle, ok_bind, ih hrest, error_bind]
    · rw [if_neg hle, error_bind]

/-! ## Fields of known size -/

/-- A field of known size takes so many bytes, whatever they are. -/
theorem readValue_of_le {field : Field} {size : Nat} (hsize : field.type.size? = some size)
    {input : List UInt8} (h : size ≤ input.length) (before : Record) :
    ∃ value, readValue before field input = .ok (value, input.drop size) := by
  cases htype : field.type with
  | scalar type =>
    rw [htype] at hsize
    cases hsize
    have hle : type.kind.size ≤ input.length := h
    exact ⟨_, by rw [readValue_scalar before input htype, readScalar, if_pos hle, ok_bind]; rfl⟩
  | array elem length fits =>
    rw [htype] at hsize
    cases hsize
    rw [Nat.mul_comm] at h ⊢
    exact ⟨_, by rw [readValue_array before input htype, readScalars_of_le h, ok_bind]; rfl⟩
  | sequence elem length =>
    rw [htype] at hsize
    cases hsize

/-- A field of known size is not read from fewer bytes. -/
theorem readValue_of_lt {field : Field} {size : Nat} (hsize : field.type.size? = some size)
    {input : List UInt8} (h : input.length < size) (before : Record) :
    readValue before field input = .error .endOfInput := by
  cases htype : field.type with
  | scalar type =>
    rw [htype] at hsize
    cases hsize
    have hneg : ¬ type.kind.size ≤ input.length := Nat.not_le.mpr h
    rw [readValue_scalar before input htype, readScalar, if_neg hneg, error_bind]
  | array elem length fits =>
    rw [htype] at hsize
    cases hsize
    rw [Nat.mul_comm] at h
    rw [readValue_array before input htype, readScalars_of_lt h, error_bind]
  | sequence elem length =>
    rw [htype] at hsize
    cases hsize

/-- The bytes that fields of known size take together. -/
def runSize : List Field → Nat
  | [] => 0
  | field :: rest => field.type.size?.getD 0 + runSize rest

theorem runSize_append (a b : List Field) : runSize (a ++ b) = runSize a + runSize b := by
  induction a with
  | nil => rw [List.nil_append, runSize, Nat.zero_add]
  | cons field rest ih => rw [List.cons_append, runSize, runSize, ih, Nat.add_assoc]

theorem readFields_of_lt {run : List Field} (hrun : ∀ f ∈ run, f.type.size?.isSome)
    {input : List UInt8} (h : input.length < runSize run) (before : Record) :
    readFields before run input = .error .endOfInput := by
  induction run generalizing before input with
  | nil => exact absurd h (Nat.not_lt_zero _)
  | cons field rest ih =>
    obtain ⟨size, hsize⟩ := Option.isSome_iff_exists.mp (hrun field (List.mem_cons_self ..))
    rw [runSize, hsize, Option.getD_some] at h
    rw [readFields]
    by_cases hle : size ≤ input.length
    · obtain ⟨value, hvalue⟩ := readValue_of_le hsize hle before
      rw [hvalue, ok_bind]
      refine ih (fun f hf => hrun f (List.mem_cons_of_mem _ hf)) ?_ _
      rw [List.length_drop]
      omega
    · rw [readValue_of_lt hsize (by omega), error_bind]

/-! ## Bytes behind a record -/

theorem readScalar_append {kind : ScalarKind} {input rest : List UInt8} {x : Scalar}
    (h : readScalar kind input = .ok (x, rest)) (more : List UInt8) :
    readScalar kind (input ++ more) = .ok (x, rest ++ more) := by
  unfold readScalar at h ⊢
  split at h
  · rename_i hle
    cases h
    rw [if_pos (by rw [List.length_append]; omega), List.take_append_of_le_length hle,
      List.drop_append_of_le_length hle]
  · cases h

theorem readScalars_append {kind : ScalarKind} {count : Nat} {input rest : List UInt8}
    {xs : List Scalar} (h : readScalars kind count input = .ok (xs, rest)) (more : List UInt8) :
    readScalars kind count (input ++ more) = .ok (xs, rest ++ more) := by
  induction count generalizing input xs with
  | zero => cases h; rfl
  | succ count ih =>
    rw [readScalars] at h ⊢
    obtain ⟨⟨x, middle⟩, hx, h⟩ := bind_eq_ok.mp h
    obtain ⟨⟨ys, last⟩, hys, h⟩ := bind_eq_ok.mp h
    cases h
    simp only [readScalar_append hx more, ok_bind, ih hys]
    rfl

/-- Scalars in a row are settled by the bytes they take. -/
theorem scalarsAt_take {kind : ScalarKind} {count : Nat} {input : List UInt8}
    (h : count * kind.size ≤ input.length) :
    scalarsAt kind count (input.take (count * kind.size)) = scalarsAt kind count input := by
  have hlength : count * kind.size ≤ (input.take (count * kind.size)).length := by
    rw [List.length_take]
    omega
  have hmore := readScalars_append (readScalars_of_le hlength) (input.drop (count * kind.size))
  rw [List.take_append_drop, readScalars_of_le h] at hmore
  exact (Prod.mk.inj (Except.ok.inj hmore)).1.symm

/-- More bytes behind a value change nothing about it. -/
theorem readValue_append {before : Record} {field : Field} {input rest : List UInt8} {value : Value}
    (h : readValue before field input = .ok (value, rest)) (more : List UInt8) :
    readValue before field (input ++ more) = .ok (value, rest ++ more) := by
  cases htype : field.type with
  | scalar type =>
    rw [readValue_scalar _ _ htype] at h ⊢
    obtain ⟨⟨x, last⟩, hx, h⟩ := bind_eq_ok.mp h
    cases h
    rw [readScalar_append hx more, ok_bind]
  | array elem length fits =>
    rw [readValue_array _ _ htype] at h ⊢
    obtain ⟨⟨xs, last⟩, hxs, h⟩ := bind_eq_ok.mp h
    cases h
    rw [readScalars_append hxs more, ok_bind]
  | sequence elem length =>
    rw [readValue_sequence _ _ htype] at h ⊢
    split at h
    · cases h
    · split at h
      · rename_i hfits
        obtain ⟨⟨xs, last⟩, hxs, h⟩ := bind_eq_ok.mp h
        cases h
        rw [if_pos hfits, readScalars_append hxs more, ok_bind]
      · cases h

/-- What stands behind a record does not matter to it. -/
theorem readFields_append {before record : Record} {fields : List Field} {input rest : List UInt8}
    (h : readFields before fields input = .ok (record, rest)) (more : List UInt8) :
    readFields before fields (input ++ more) = .ok (record, rest ++ more) := by
  induction fields generalizing before input with
  | nil => cases h; rfl
  | cons field fields ih =>
    rw [readFields] at h ⊢
    obtain ⟨⟨value, middle⟩, hvalue, h⟩ := bind_eq_ok.mp h
    simp only [readValue_append hvalue more, ok_bind]
    exact ih h

/-- Fields are read in two parts, the second behind the values of the first. -/
theorem readFields_fields_append (before : Record) (a b : List Field) (input : List UInt8) :
    readFields before (a ++ b) input =
      readFields before a input >>= fun read => readFields read.1 b read.2 := by
  induction a generalizing before input with
  | nil => rfl
  | cons field rest ih =>
    rw [List.cons_append, readFields, readFields]
    cases readValue before field input with
    | error e => rfl
    | ok read => exact ih _ _

/-! ## Failures -/

theorem readScalars_error {kind : ScalarKind} {count : Nat} {input : List UInt8} {error : CodecError}
    (h : readScalars kind count input = .error error) : error = .endOfInput := by
  by_cases hle : count * kind.size ≤ input.length
  · rw [readScalars_of_le hle] at h
    cases h
  · rw [readScalars_of_lt (Nat.not_le.mp hle)] at h
    exact (Except.error.inj h).symm

/-- A field is read in full, or the input ends, or the length of the field cannot be used. -/
theorem readValue_error {before : Record} {field : Field} {input : List UInt8} {error : CodecError}
    (h : readValue before field input = .error error) :
    error = .endOfInput ∨ error = .length field.name .bytesOverflow ∨
      ∃ cause, error = .length field.name (.evaluation cause) := by
  cases htype : field.type with
  | scalar type =>
    rw [readValue_scalar _ _ htype, readScalar] at h
    split at h
    · cases h
    · exact .inl (Except.error.inj h).symm
  | array elem length fits =>
    rw [readValue_array _ _ htype] at h
    rcases bind_eq_error.mp h with h | ⟨read, -, h⟩
    · exact .inl (readScalars_error h)
    · cases h
  | sequence elem length =>
    rw [readValue_sequence _ _ htype] at h
    split at h
    · exact .inr (.inr ⟨_, (Except.error.inj h).symm⟩)
    · split at h
      · rcases bind_eq_error.mp h with h | ⟨read, -, h⟩
        · exact .inl (readScalars_error h)
        · cases h
      · exact .inr (.inl (Except.error.inj h).symm)

/-- The reader fails at the end of the input, or at a length that has no value or is too large. -/
theorem readFields_error {before : Record} {fields : List Field} {input : List UInt8}
    {error : CodecError} (h : readFields before fields input = .error error) :
    error = .endOfInput ∨ ∃ field ∈ fields, error = .length field.name .bytesOverflow ∨
      ∃ cause, error = .length field.name (.evaluation cause) := by
  induction fields generalizing before input with
  | nil => cases h
  | cons field rest ih =>
    rw [readFields] at h
    rcases bind_eq_error.mp h with h | ⟨read, -, h⟩
    · exact (readValue_error h).imp_right fun hlength => ⟨field, List.mem_cons_self .., hlength⟩
    · exact (ih h).imp_right fun ⟨g, hg, hlength⟩ => ⟨g, List.mem_cons_of_mem _ hg, hlength⟩

/-- A field of known size is only ever stopped by the end of the input. -/
theorem readValue_error_of_known {field : Field} {size : Nat} (hsize : field.type.size? = some size)
    {before : Record} {input : List UInt8} {error : CodecError}
    (h : readValue before field input = .error error) : error = .endOfInput := by
  by_cases hle : size ≤ input.length
  · obtain ⟨value, hvalue⟩ := readValue_of_le hsize hle before
    rw [hvalue] at h
    cases h
  · rw [readValue_of_lt hsize (Nat.not_le.mp hle)] at h
    exact (Except.error.inj h).symm

/-- Only the length of a sequence can be at fault. -/
theorem readFields_error_length {before : Record} {fields : List Field} {input : List UInt8}
    {name : String} {fault : LengthFault}
    (h : readFields before fields input = .error (.length name fault)) :
    ∃ field ∈ fields, field.name = name ∧ ∃ elem length, field.type = .sequence elem length := by
  induction fields generalizing before input with
  | nil => cases h
  | cons field rest ih =>
    rw [readFields] at h
    rcases bind_eq_error.mp h with h | ⟨read, -, h⟩
    · refine ⟨field, List.mem_cons_self .., ?_, ?_⟩
      · rcases readValue_error h with h | h | ⟨cause, h⟩ <;> cases h <;> rfl
      · cases htype : field.type with
        | scalar type =>
          have hsize : field.type.size? = some type.size := by rw [htype]; rfl
          cases readValue_error_of_known hsize h
        | array elem length fits =>
          have hsize : field.type.size? = some (elem.size * length) := by rw [htype]; rfl
          cases readValue_error_of_known hsize h
        | sequence elem length => exact ⟨elem, length, rfl⟩
    · obtain ⟨g, hg, hrest⟩ := ih h
      exact ⟨g, List.mem_cons_of_mem _ hg, hrest⟩

/-! ## The record read -/

theorem readFields_names {earlier fields : List Field} (horder : InOrder earlier fields)
    {before record : Record} (hbefore : before.names = earlier.map Field.name)
    {input rest : List UInt8} (h : readFields before fields input = .ok (record, rest)) :
    record.names = (earlier ++ fields).map Field.name := by
  induction horder generalizing before input with
  | nil =>
    cases h
    rw [hbefore, List.append_nil]
  | @cons earlier fields field fresh _ _ ih =>
    rw [readFields] at h
    obtain ⟨⟨value, middle⟩, _, h⟩ := bind_eq_ok.mp h
    rw [ih (names_set_of_fresh fresh hbefore value) h, List.append_assoc, List.singleton_append]

end WireCodec
