import WireCodec.Proofs.Decoding.Steps
import WireCodec.Proofs.Layout.Steps

/-!
# Decoding by groups reads field by field

`Reads` says of a list of steps that it does what reading certain fields one after another does:
the same values, the same bytes left, the same error.  It holds of the steps of a fixed group and of
those of a sequence, and it is kept by appending, so it holds of everything that is compiled.
-/

namespace WireCodec

open StructType

/-- What a run of steps came to, apart from the sizes of its reads. -/
def DecodeState.outcome :
    Except DecodeFailure DecodeState → Except CodecError (Record × List UInt8)
  | .ok s => .ok (s.values, s.input)
  | .error failure => .error failure.error

def Codec.decodeRecord (c : Codec) (input : List UInt8) : Except CodecError (Record × List UInt8) :=
  match c.run input with
  | .ok decoded => .ok (decoded.record, decoded.rest)
  | .error failure => .error failure.error

/-- Steps that do, from every state, what reading the fields one after another does. -/
def Reads (steps : List DecodeStep) (fields : List Field) : Prop :=
  ∀ s : DecodeState, DecodeState.outcome (s.steps steps) = readFields s.values fields s.input

theorem Reads.nil : Reads [] [] := fun _ => rfl

theorem Reads.append {a b : List DecodeStep} {xs ys : List Field} (ha : Reads a xs)
    (hb : Reads b ys) : Reads (a ++ b) (xs ++ ys) := by
  intro s
  rw [DecodeState.steps_append, readFields_fields_append, ← ha s]
  cases s.steps a with
  | error failure => rfl
  | ok t => exact hb t

theorem reads_scratch (bytes : Nat) : Reads [.scratch bytes] [] := fun _ => rfl

/-! ## Fields of known size -/

/-- The steps of a field of known size find in the buffer what reading finds at the same place. -/
theorem steps_decodeField {field : Field} {size : Nat} (hsize : field.type.size? = some size)
    {s : DecodeState} {data : List UInt8} (hs : s.scratch.Holds data) {offset : Nat}
    (h : offset + size ≤ data.length) :
    ∃ value,
      readValue s.values field (data.drop offset) = .ok (value, data.drop (offset + size)) ∧
      s.steps (decodeField offset field) = .ok (s.setValue field.name value) := by
  have hrest : size ≤ (data.drop offset).length := by
    rw [List.length_drop]
    omega
  cases htype : field.type with
  | scalar type =>
    rw [htype] at hsize
    cases hsize
    have hle : type.kind.size ≤ (data.drop offset).length := hrest
    have hload := DecodeState.loadScalar_of_holds hs field.name type.kind h
    refine ⟨.scalar (Scalar.ofBytes type.kind ((data.drop offset).take type.kind.size)), ?_, ?_⟩
    · rw [readValue_scalar _ _ htype, readScalar, if_pos hle, List.drop_drop, ok_bind]
      rfl
    · rw [decodeField_scalar htype, DecodeState.steps_cons, DecodeState.step, hload]
      rfl
  | array elem length fits =>
    rw [htype] at hsize
    cases hsize
    rw [Nat.mul_comm] at h hrest ⊢
    refine ⟨.array ((scalarsAt elem.kind length (data.drop offset)).map .scalar), ?_, ?_⟩
    · rw [readValue_array _ _ htype, readScalars_of_le hrest, List.drop_drop, ok_bind]
      rfl
    · rw [decodeField_array htype, DecodeState.steps_cons, DecodeState.step, ok_bind]
      by_cases hpos : 0 < length
      · have hlength : offset + (List.replicate length
            (Value.scalar (.zero elem.kind))).length * elem.size ≤ data.length := by
          rwa [List.length_replicate]
        rw [if_pos hpos, DecodeState.steps_cons,
          DecodeState.step_load_elements hs field.name rfl elem hlength, List.length_replicate]
        rfl
      · have hzero : length = 0 := by omega
        rw [if_neg hpos, hzero]
        rfl
  | sequence elem length =>
    rw [htype] at hsize
    cases hsize

/-- Loading a run from the scratch buffer is reading its fields from the bytes held there. -/
theorem steps_decodeFields {run : List Field} (hrun : ∀ f ∈ run, f.type.size?.isSome)
    {s : DecodeState} {data : List UInt8} (hs : s.scratch.Holds data) {offset : Nat}
    (h : offset + runSize run ≤ data.length) :
    ∃ values,
      readFields s.values run (data.drop offset) =
        .ok (values, data.drop (offset + runSize run)) ∧
      s.steps (decodeFields offset run) = .ok { s with values } := by
  induction run generalizing s offset with
  | nil => exact ⟨s.values, rfl, rfl⟩
  | cons field rest ih =>
    obtain ⟨size, hsize⟩ := Option.isSome_iff_exists.mp (hrun field (List.mem_cons_self ..))
    rw [runSize, hsize, Option.getD_some] at h ⊢
    have hfirst : offset + size ≤ data.length := by omega
    have hlater : offset + size + runSize rest ≤ data.length := by omega
    obtain ⟨value, hread, hsteps⟩ := steps_decodeField hsize hs hfirst
    obtain ⟨values, hreads, hrest⟩ := ih (fun f hf => hrun f (List.mem_cons_of_mem _ hf))
      (s := s.setValue field.name value) hs hlater
    refine ⟨values, ?_, ?_⟩
    · rw [readFields, hread, ok_bind, ← Nat.add_assoc]
      exact hreads
    · rw [decodeFields, hsize, Option.getD_some, DecodeState.steps_append, hsteps, ok_bind]
      exact hrest

/-- One read of a whole run, and loads from it, read the fields of the run. -/
theorem reads_run {run : List Field} (hrun : ∀ f ∈ run, f.type.size?.isSome) :
    Reads (decodeExtent (.fixed (runSize run)) ++ decodeFields 0 run) run := by
  intro s
  have hnil := s.scratch.holds_nil
  by_cases hzero : runSize run = 0
  · -- There is no read, so the loads find everything in no bytes at all.
    have hlength : 0 + runSize run ≤ ([] : List UInt8).length := by
      rw [hzero]
      exact Nat.le_refl 0
    obtain ⟨values, hread, hsteps⟩ := steps_decodeFields hrun hnil hlength
    have hinput := readFields_append hread s.input
    rw [List.drop_nil, List.drop_nil, List.nil_append] at hinput
    rw [hzero, decodeExtent, List.nil_append, hsteps, hinput]
    rfl
  · have hpos : 0 < runSize run := Nat.pos_of_ne_zero hzero
    rw [decodeExtent_of_pos hpos, List.singleton_append, DecodeState.steps_cons, DecodeState.step]
    by_cases hle : runSize run ≤ s.input.length
    · obtain ⟨reads, scratch, hinto, hholds⟩ := DecodeState.readInto_of_le hnil hle
      have hlength : 0 + runSize run ≤ (s.input.take (runSize run)).length := by
        rw [List.length_take]
        omega
      rw [List.nil_append] at hholds
      obtain ⟨values, hread, hsteps⟩ := steps_decodeFields hrun
        (s := { s with input := s.input.drop (runSize run), reads, scratch }) hholds hlength
      have hinput := readFields_append hread (s.input.drop (runSize run))
      have hend : (s.input.take (runSize run)).drop (0 + runSize run) = [] := by
        rw [Nat.zero_add]
        exact List.drop_eq_nil_of_le (List.length_take_le ..)
      rw [hend, List.drop_zero, List.take_append_drop, List.nil_append] at hinput
      rw [hinput]
      show DecodeState.outcome (s.readInto 0 (runSize run) >>= _) = _
      rw [show s.readInto 0 (runSize run) = _ from hinto, ok_bind, hsteps]
      rfl
    · have hlt : s.input.length < runSize run := Nat.not_le.mp hle
      rw [DecodeState.readInto_of_lt hlt, readFields_of_lt hrun hlt]
      rfl

/-! ## Sequences -/

/-- Making a sequence and loading it from the bytes just read gives the scalars in those bytes. -/
theorem steps_fillSequence {s : DecodeState} {data : List UInt8} (hs : s.scratch.Holds data)
    {field : String} {count : Nat} (hcount : s.counts.get? field = some count) {elem : ScalarType}
    (h : count * elem.size ≤ data.length) :
    s.steps [.newSequence field elem, .load (.elements field) elem 0] =
      .ok (s.setValue field (.sequence ((scalarsAt elem.kind count data).map .scalar))) := by
  have hlength : 0 + (List.replicate count (Value.scalar (.zero elem.kind))).length * elem.size ≤
      data.length := by
    rwa [List.length_replicate, Nat.zero_add]
  rw [DecodeState.steps_cons, DecodeState.step, DecodeState.countOf, hcount]
  show DecodeState.steps (s.setValue field _) [_] = _
  rw [DecodeState.steps_cons, DecodeState.step_load_elements hs field rfl elem hlength,
    List.length_replicate]
  rfl

/-- A counted sequence is read chunk by chunk and loaded as the scalars that stand there. -/
theorem outcome_readSequence {s : DecodeState} {field : String} {count : Nat}
    (hcount : s.counts.get? field = some count) (elem : ScalarType) :
    DecodeState.outcome (s.steps [.read (.counted field elem.size), .newSequence field elem,
      .load (.elements field) elem 0]) =
    if count * elem.size < wordLimit then
      readScalars elem.kind count s.input >>= fun read =>
        .ok (s.values.set field (.sequence (read.1.map .scalar)), read.2)
    else .error (.length field .bytesOverflow) := by
  rw [DecodeState.steps_cons, DecodeState.step, DecodeState.countOf, hcount]
  simp only [ok_bind]
  by_cases hfits : count * elem.size < wordLimit
  · rw [if_pos hfits, if_pos hfits]
    by_cases hle : count * elem.size ≤ s.input.length
    · obtain ⟨reads, scratch, hread, hholds⟩ := DecodeState.readChunks_of_le
        s.scratch.holds_nil (Nat.zero_le (count * elem.size)) hle
      rw [List.length_nil, Nat.sub_zero] at hread
      rw [List.length_nil, Nat.sub_zero, List.nil_append] at hholds
      have hlength : count * elem.size ≤ (s.input.take (count * elem.size)).length := by
        rw [List.length_take]
        omega
      have hfill := steps_fillSequence
        (s := { s with input := s.input.drop (count * elem.size), reads, scratch })
        hholds hcount hlength
      have htake : scalarsAt elem.kind count (s.input.take (count * elem.size)) =
          scalarsAt elem.kind count s.input := scalarsAt_take hle
      rw [hread, ok_bind, hfill, readScalars_of_le hle, htake]
      rfl
    · have hlt : s.input.length < count * elem.size := Nat.not_le.mp hle
      obtain ⟨reads, hread⟩ := DecodeState.readChunks_of_lt (Nat.zero_le (count * elem.size)) hlt
      rw [hread, readScalars_of_lt hlt]
      rfl
  · rw [if_neg hfits, if_neg hfits]
    rfl

/-- Counting, reading, making and loading a sequence is reading it. -/
theorem reads_sequence {field : Field} {elem : ScalarType} {length : LengthExpr}
    (htype : field.type = .sequence elem length) : Reads (decodeField 0 field) [field] := by
  intro s
  rw [readFields, readValue_sequence _ _ htype, decodeField_sequence htype, DecodeState.steps_cons,
    DecodeState.step]
  cases heval : length.eval (Record.count? s.values) with
  | error cause => rfl
  | ok count =>
    have hcount := NameTable.get?_set_self s.counts field.name count.toNat
    have hread := outcome_readSequence
      (s := { s with counts := s.counts.set field.name count.toNat }) hcount elem
    simp only [ok_bind, hread]
    split
    · cases readScalars elem.kind count.toNat s.input <;> rfl
    · rfl

/-! ## Groups -/

/-- The steps of a group read the fields of the group. -/
theorem reads_decodeGroup {fields : List Field} {g : Group} (hcut : g.CutFrom fields) :
    Reads (decodeGroup fields g) (g.slice fields) := by
  cases hcut with
  | run known extent =>
    rw [decodeGroup, extent]
    exact reads_run known
  | sequence slice type extent =>
    rw [decodeGroup_sequence slice extent, slice]
    exact reads_sequence type

theorem reads_decodeSteps (fields : List Field) :
    Reads (decodeSteps fields (Group.ofFields fields)) fields :=
  decodeSteps_closed Reads .nil .append reads_scratch fun _ hcut => reads_decodeGroup hcut

/-! ## Records -/

/-- When all fields have values, the record is the table of these. -/
theorem mapM_result (s : DecodeState) {fields : List Field}
    (h : s.values.names = fields.map Field.name) :
    fields.mapM s.result = .ok s.values.entries := by
  have hresult : ∀ field ∈ fields,
      s.result field = .ok (field.name, (s.values.get? field.name).getD default) := by
    intro field hfield
    have hsome : (s.values.get? field.name).isSome = true := by
      rw [NameTable.isSome_get?, h]
      exact List.mem_map.mpr ⟨field, hfield, rfl⟩
    obtain ⟨value, hvalue⟩ := Option.isSome_iff_exists.mp hsome
    rw [DecodeState.result, hvalue, Option.getD_some]
  rw [mapM_eq_ok hresult, ← NameTable.map_get?_names, h, List.map_map]
  rfl

/-- Decoding by steps comes to the record, the bytes left or the error that reading fields comes
to. -/
theorem decodeRecord_of_inOrder {s : StructType} (horder : InOrder [] s.fields)
    (input : List UInt8) : s.compile.decodeRecord input = s.readRecord input := by
  have hreads := reads_decodeSteps s.fields (DecodeState.start input)
  have hdecode : s.compile.decode = decodeSteps s.fields (Group.ofFields s.fields) := rfl
  rw [Codec.decodeRecord, Codec.run, StructType.readRecord, hdecode]
  cases hsteps : (DecodeState.start input).steps
      (decodeSteps s.fields (Group.ofFields s.fields)) with
  | error failure =>
    rw [hsteps] at hreads
    exact hreads
  | ok t =>
    rw [hsteps] at hreads
    have hnames := readFields_names horder rfl hreads.symm
    have hresult : s.compile.fields.mapM t.result = .ok t.values.entries := mapM_result t hnames
    rw [ok_bind, hresult, ok_bind]
    show Except.ok (NameTable.ofList t.values.entries, t.input) = _
    rw [NameTable.ofList_entries]
    exact hreads

theorem decodeRecord_eq_ok {c : Codec} {input : List UInt8} {record : Record} {rest : List UInt8} :
    c.decodeRecord input = .ok (record, rest) ↔ ∃ reads, c.run input = .ok ⟨record, rest, reads⟩ := by
  rw [Codec.decodeRecord]
  cases c.run input with
  | error failure => simp
  | ok decoded =>
    constructor
    · intro h
      cases h
      exact ⟨decoded.reads, rfl⟩
    · rintro ⟨reads, h⟩
      cases h
      rfl

theorem decodeRecord_eq_error {c : Codec} {input : List UInt8} {error : CodecError} :
    c.decodeRecord input = .error error ↔ ∃ reads, c.run input = .error ⟨error, reads⟩ := by
  rw [Codec.decodeRecord]
  cases c.run input with
  | ok decoded => simp
  | error failure =>
    constructor
    · intro h
      cases h
      exact ⟨failure.reads, rfl⟩
    · rintro ⟨reads, h⟩
      cases h
      rfl

/-- A compiled struct decodes what reading its fields one after another reads: the same record and
the same bytes left, or the same error.  The error is an end of the input or the length of a
sequence. -/
theorem run_eq_readRecord {aliases : AliasTable} {decl : StructDecl} {s : StructType}
    (hbind : StructType.bind aliases decl = .ok s) (input : List UInt8) :
    (∀ record rest, (∃ reads, s.compile.run input = .ok ⟨record, rest, reads⟩) ↔
      s.readRecord input = .ok (record, rest)) ∧
    (∀ error, (∃ reads, s.compile.run input = .error ⟨error, reads⟩) ↔
      s.readRecord input = .error error) ∧
    ∀ error, s.readRecord input = .error error → error = .endOfInput ∨
      ∃ field ∈ s.fields, error = .length field.name .bytesOverflow ∨
        ∃ cause, error = .length field.name (.evaluation cause) := by
  have hdecode := decodeRecord_of_inOrder (inOrder_of_bind hbind) input
  refine ⟨fun record rest => ?_, fun error => ?_, fun error h => readFields_error h⟩
  · rw [← hdecode, decodeRecord_eq_ok]
  · rw [← hdecode, decodeRecord_eq_error]

theorem run_eq_readRecord_telemetry :
    (∃ reads, telemetry.compile.run (telemetryBytes ++ [9]) =
      .ok ⟨telemetryRecord, [9], reads⟩) ∧
    ∃ reads, telemetry.compile.run telemetryBytes.dropLast = .error ⟨.endOfInput, reads⟩ :=
  have hfull := run_eq_readRecord bind_telemetry (telemetryBytes ++ [9])
  have hshort := run_eq_readRecord bind_telemetry telemetryBytes.dropLast
  ⟨(hfull.1 telemetryRecord [9]).mpr rfl, (hshort.2.1 .endOfInput).mpr rfl⟩

end WireCodec
