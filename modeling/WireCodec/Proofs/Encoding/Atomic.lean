import WireCodec.Proofs.Scope.Compiled

/-!
# What reaches an output

An encoding collects bytes in its buffer as long as anything can be wrong with the record.  Its last
step alone turns to the output, and hands all of them over at once.
-/

namespace WireCodec

open StructType Record

/-! ## Errors of records -/

/-- The errors for which a record is to blame, and not the output. -/
inductive CodecError.OfRecord : CodecError → Prop where
  | missing (name : String) : OfRecord (.missingField name)
  | kind (field expected found : String) : OfRecord (.wrongKind field expected found)
  | count (field : String) (expected found : Nat) : OfRecord (.wrongCount field expected found)
  | length (field : String) (cause : EvalError) : OfRecord (.length field (.evaluation cause))

section Faults

variable {record : Record} {name : String} {error : CodecError}

theorem ofRecord_of_kindFault? {kind : ScalarKind} {value : Value}
    (h : kindFault? name kind value = some error) : error.OfRecord := by
  unfold kindFault? at h
  split at h
  · cases h
  · cases h
    exact .kind ..

theorem ofRecord_of_lengthFault? {length : Nat} {elements : List Value}
    (h : lengthFault? name length elements = some error) : error.OfRecord := by
  unfold lengthFault? at h
  split at h
  · cases h
  · cases h
    exact .count ..

theorem ofRecord_of_elements {kind : ScalarKind} {elements : List Value}
    (h : elements.findSome? (kindFault? name kind) = some error) : error.OfRecord := by
  obtain ⟨value, -, hvalue⟩ := List.exists_of_findSome?_eq_some h
  exact ofRecord_of_kindFault? hvalue

theorem ofRecord_of_collectionFault? {fault : List Value → Option CodecError}
    (hfault : ∀ elements, fault elements = some error → error.OfRecord)
    (h : record.collectionFault? name fault = some error) : error.OfRecord := by
  unfold collectionFault? at h
  split at h
  · cases h
    exact .missing name
  · split at h
    · cases h
      exact .kind ..
    · exact hfault _ h

theorem ofRecord_of_countFault? {field : Field} (h : record.countFault? field = some error) :
    error.OfRecord := by
  unfold countFault? at h
  split at h
  · split at h
    · cases h
      exact .length ..
    · exact ofRecord_of_collectionFault? (fun _ => ofRecord_of_lengthFault?) h
  · cases h

theorem ofRecord_of_storeFault? {field : Field} (h : record.storeFault? field = some error) :
    error.OfRecord := by
  unfold storeFault? at h
  split at h
  · split at h
    · cases h
      exact .missing _
    · exact ofRecord_of_kindFault? h
  · apply ofRecord_of_collectionFault? _ h
    intro elements helements
    rcases Option.or_eq_some_iff.mp helements with h | ⟨-, h⟩
    · exact ofRecord_of_lengthFault? h
    · exact ofRecord_of_elements h
  · exact ofRecord_of_collectionFault? (fun _ => ofRecord_of_elements) h

/-- The first fault of a record is its own, never that of the output. -/
theorem ofRecord_of_firstFault? {s : StructType} (h : s.firstFault? record = some error) :
    error.OfRecord := by
  rcases Option.or_eq_some_iff.mp h with h | ⟨-, h⟩
  · obtain ⟨field, -, hfield⟩ := List.exists_of_findSome?_eq_some h
    exact ofRecord_of_countFault? hfield
  · obtain ⟨field, -, hfield⟩ := List.exists_of_findSome?_eq_some h
    exact ofRecord_of_storeFault? hfield

end Faults

/-! ## Steps in front of the write -/

section Steps

variable (c : Codec) (record : Record)

theorem countOf_keeps (s : EncodeState) (field : String) :
    Ends (s.countOf field) (fun _ => True) (·.output = s.output) := by
  unfold EncodeState.countOf
  split
  · trivial
  · exact rfl

theorem roomFor_keeps (s : EncodeState) (bytes : Nat) (counted : List (String × Nat)) :
    Ends (s.roomFor bytes counted) (fun _ => True) (·.output = s.output) := by
  induction counted generalizing bytes with
  | nil => trivial
  | cons e rest ih => exact (countOf_keeps s e.1).bind fun count _ => ih _

/-- No step but the write touches the output, also when it fails. -/
theorem encodeStep_keeps {step : EncodeStep} (h : step ≠ .write) (s : EncodeState) :
    Ends (c.encodeStep record s step) (·.output = s.output) (·.output = s.output) := by
  -- A failure carries the output of the state in front of it, which no other step changes.
  cases step with
  | count field length =>
    rw [Codec.encodeStep]
    split <;> exact rfl
  | checkCount field =>
    rw [Codec.encodeStep]
    refine (countOf_keeps s field).bind fun expected _ => ?_
    split
    · exact rfl
    · split <;> exact rfl
  | reserve fixed counted =>
    exact (roomFor_keeps s fixed counted).bind fun reserved _ => rfl
  | store slot type =>
    rw [Codec.encodeStep]
    split <;> exact rfl
  | write => exact absurd rfl h

/-- Steps without a write leave the output as it was. -/
theorem encodeSteps_keep {steps : List EncodeStep} (h : .write ∉ steps) (s : EncodeState) :
    Ends (steps.foldlM (c.encodeStep record) s) (·.output = s.output) (·.output = s.output) := by
  refine Ends.foldlM ?_ rfl
  intro t step hstep ht
  have hne : step ≠ .write := fun e => h (e ▸ hstep)
  rw [← ht]
  exact encodeStep_keeps c record hne t

end Steps

/-- The write stands at the end of an encoding and nowhere else. -/
theorem write_not_mem_front {fields : List Field} {groups : List Group}
    {front rest : List EncodeStep} (h : encodeSteps fields groups = front ++ rest)
    (hrest : rest ≠ []) : .write ∉ front := by
  obtain ⟨before, hbefore, hnot⟩ := EncodeStep.write_last fields groups
  have hfront : front <+: before ++ [.write] := ⟨rest, by rw [← hbefore, h]⟩
  -- Either the front is everything, and nothing is left behind it, or it ends before the write.
  rcases List.prefix_concat_iff.mp hfront with heq | hle
  · rw [hbefore, ← heq] at h
    exact absurd (List.self_eq_append_right.mp h) hrest
  · exact fun hmem => hnot (hle.subset hmem)

/-! ## The write -/

/-- The bytes that there is room for. -/
def Output.accepted (o : Output) (bytes : List UInt8) : List UInt8 :=
  match o.room with
  | none => bytes
  | some room => bytes.take room

theorem Output.accepted_prefix (o : Output) (bytes : List UInt8) : o.accepted bytes <+: bytes := by
  unfold accepted
  split
  · exact List.prefix_rfl
  · exact List.take_prefix ..

/-- One write: the bytes there is room for, and whether that was all. -/
theorem Output.write_eq (o : Output) (bytes : List UInt8) :
    o.write bytes = (decide (o.accepted bytes = bytes),
      ⟨o.room.map (· - bytes.length), o.received ++ o.accepted bytes,
        o.writes ++ [bytes.length]⟩) := by
  unfold write accepted
  cases o.room with
  | none => simp
  | some room =>
    -- The front of the bytes is all of them exactly when there is room for all of them.
    have hall : bytes.take room = bytes ↔ bytes.length ≤ room := by
      constructor
      · intro h
        have hlength := congrArg List.length h
        rw [List.length_take] at hlength
        omega
      · exact List.take_of_length_le
    simp only [hall, Option.map_some]

/-- Nothing reaches the output in front of the last step.  If anything is wrong with the record, the
encoding ends there and the output is as it was; otherwise the bytes of the record are written at
once, and a write that fails has put the front of them into the output. -/
theorem encodeTo_atomic {aliases : AliasTable} {decl : StructDecl} {s : StructType}
    (hbind : StructType.bind aliases decl = .ok s) (record : Record) (output : Output) :
    (∀ front rest, s.compile.encode = front ++ rest → rest ≠ [] →
      Ends (front.foldlM (s.compile.encodeStep record) ⟨.empty, 0, [], output⟩)
        (·.output = output) (·.output = output)) ∧
    ((∃ error, error.OfRecord ∧ s.firstFault? record = some error ∧
        s.compile.encodeRecord record = .error error ∧
        s.compile.encodeTo record output = .error ⟨error, output⟩) ∨
      ∃ bytes written, s.compile.encodeRecord record = .ok bytes ∧ bytes = s.wireBytes record ∧
        written.writes = output.writes ++ [bytes.length] ∧
        written.received = output.received ++ output.accepted bytes ∧
        output.accepted bytes <+: bytes ∧
        ((output.accepted bytes = bytes ∧ ∃ reserved,
            s.compile.encodeTo record output = .ok ⟨bytes.length, reserved, written⟩) ∨
          (output.accepted bytes ≠ bytes ∧
            s.compile.encodeTo record output = .error ⟨.outputFull, written⟩))) := by
  have horder := inOrder_of_bind hbind
  refine ⟨fun front rest h hrest => ?_, ?_⟩
  · exact encodeSteps_keep _ record (write_not_mem_front h hrest) ⟨.empty, 0, [], output⟩
  rcases encodeTo_of_inOrder horder record output with
    ⟨error, hfault, hencode⟩ | ⟨hfault, reserved, hencode⟩
  · refine .inl ⟨error, ofRecord_of_firstFault? hfault, hfault, ?_, hencode⟩
    rw [encodeRecord_of_inOrder horder, hfault]
    rfl
  · have hbytes : s.compile.encodeRecord record = .ok (s.wireBytes record) := by
      rw [encodeRecord_of_inOrder horder, hfault]
      rfl
    rw [Output.write_eq] at hencode
    refine .inr ⟨_, ⟨output.room.map (· - (s.wireBytes record).length), _, _⟩, hbytes, rfl, rfl,
      rfl, output.accepted_prefix _, ?_⟩
    by_cases hall : output.accepted (s.wireBytes record) = s.wireBytes record
    · rw [decide_eq_true hall] at hencode
      exact .inl ⟨hall, reserved, hencode⟩
    · rw [decide_eq_false hall] at hencode
      exact .inr ⟨hall, hencode⟩

/-- The telemetry record with a last element of another kind. -/
def telemetryMistyped : Record :=
  telemetryRecord.set "tag" (.array [.scalar (.ofBits .u8 7), .scalar (.ofBits .u16 8)])

-- The output takes four of nine bytes, none of a record that goes wrong at the last element, and
-- one write of none for a struct without fields.
theorem encodeTo_atomic_telemetry :
    (∃ failure, telemetry.compile.encodeTo telemetryRecord (.start (some 4)) = .error failure ∧
      failure.error = .outputFull ∧ failure.output.received = telemetryBytes.take 4 ∧
      failure.output.writes = [9]) ∧
    telemetry.compile.encodeTo telemetryMistyped (.start none) =
      .error ⟨.wrongKind "tag" "u8" "u16", .start none⟩ ∧
    ∃ encoded, (⟨"Unit", []⟩ : StructType).compile.encodeTo .empty (.start (some 0)) = .ok encoded ∧
      encoded.size = 0 ∧ encoded.output.received = [] ∧ encoded.output.writes = [0] := by
  have hunit : StructType.bind .empty ⟨"Unit", []⟩ = .ok ⟨"Unit", []⟩ := by rfl
  obtain ⟨-, hfull⟩ := encodeTo_atomic bind_telemetry telemetryRecord (.start (some 4))
  obtain ⟨-, hwrong⟩ := encodeTo_atomic bind_telemetry telemetryMistyped (.start none)
  obtain ⟨-, hempty⟩ := encodeTo_atomic hunit .empty (.start (some 0))
  refine ⟨?_, ?_, ?_⟩
  · rcases hfull with ⟨error, -, hfault, -⟩ |
      ⟨bytes, written, -, rfl, hwrites, hreceived, -, ⟨hall, -⟩ | ⟨-, hencode⟩⟩
    · cases hfault
    · cases hall
    · exact ⟨_, hencode, rfl, hreceived, hwrites⟩
  · rcases hwrong with ⟨error, -, hfault, -, hencode⟩ | ⟨bytes, written, hbytes, -⟩
    · cases hfault
      exact hencode
    · cases hbytes
  · rcases hempty with ⟨error, -, hfault, -⟩ |
      ⟨bytes, written, -, rfl, hwrites, hreceived, -, ⟨-, reserved, hencode⟩ | ⟨hall, -⟩⟩
    · cases hfault
    · exact ⟨_, hencode, rfl, hreceived, hwrites⟩
    · exact absurd rfl hall

end WireCodec
