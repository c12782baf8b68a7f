import WireCodec.Proofs.Encoding.Steps

/-!
# Encoding what a record provides

An encoding succeeds exactly on the records that provide every field.  It then writes their bytes,
all at once, and otherwise it ends in the first fault and writes nothing.
-/

namespace WireCodec

open StructType

theorem encodeTo_eq (c : Codec) (record : Record) (output : Output) :
    c.encodeTo record output =
      c.encode.foldlM (c.encodeStep record) ⟨.empty, 0, [], output⟩ >>= fun s =>
        .ok ⟨s.buffer.length, s.reserved, s.output⟩ := rfl

/-- An encoding counts all sequences, reserves, stores all fields and writes, in this order. -/
theorem encode_compile (s : StructType) :
    s.compile.encode = s.fields.flatMap countSteps ++
      (.reserve s.compile.fixedSize (s.fields.filterMap countedUnit) ::
        (s.fields.map storeStep ++ [.write])) := by
  show encodeSteps s.fields (Group.ofFields s.fields) = _
  rw [encodeSteps, List.append_assoc, List.append_assoc, List.singleton_append]
  rfl

/-- Without a fault, everything is written at once, behind room made from the counts of all
sequences; with one, nothing is. -/
theorem encodeTo_reserves {s : StructType} (horder : InOrder [] s.fields) (record : Record)
    (output : Output) :
    (∃ error, s.firstFault? record = some error ∧
      s.compile.encodeTo record output = .error ⟨error, output⟩) ∨
    (s.firstFault? record = none ∧ ∃ reserved,
      EncodeState.roomFor ⟨s.fields.foldl record.counted .empty, 0, [], output⟩ s.compile.fixedSize
        (s.fields.filterMap countedUnit) = .ok reserved ∧
      s.compile.encodeTo record output =
        match output.write (s.wireBytes record) with
        | (true, written) => .ok ⟨(s.wireBytes record).length, reserved, written⟩
        | (false, written) => .error ⟨.outputFull, written⟩) := by
  have hfields : ∀ field ∈ s.fields, s.compile.field? field.name = some field :=
    fun field hfield => horder.find?_eq hfield
  rw [encodeTo_eq, encode_compile, List.foldlM_append, countPass, firstFault?]
  cases hcounts : s.fields.findSome? record.countFault? with
  | some error => exact .inl ⟨error, rfl, rfl⟩
  | none =>
    rw [List.findSome?_eq_none_iff] at hcounts
    obtain ⟨counts, hnames⟩ : ∃ counts, counts = s.fields.foldl record.counted .empty := ⟨_, rfl⟩
    have hcounted : ∀ e ∈ s.fields.filterMap countedUnit, e.1 ∈ counts.names := fun e he =>
      hnames ▸ mem_names_foldl_counted hcounts (.inr ⟨e, he, rfl⟩)
    obtain ⟨reserved, hroom⟩ := roomFor_eq_ok (s := ⟨counts, 0, [], output⟩) hcounted
      s.compile.fixedSize
    have hreserve : s.compile.encodeStep record ⟨counts, 0, [], output⟩
        (.reserve s.compile.fixedSize (s.fields.filterMap countedUnit)) =
        .ok ⟨counts, reserved, [], output⟩ := by
      rw [Codec.encodeStep, hroom]
      rfl
    rw [← hnames, EncodeState.unlessFault, Option.map_none, unlessFault, ok_bind, List.foldlM_cons,
      hreserve, ok_bind, List.foldlM_append, storePass _ _ _ hfields, Option.none_or]
    cases hstores : s.fields.findSome? record.storeFault? with
    | some error => exact .inl ⟨error, rfl, rfl⟩
    | none =>
      refine .inr ⟨rfl, reserved, hroom, ?_⟩
      rw [EncodeState.unlessFault, Option.map_none, unlessFault, ok_bind, List.foldlM_cons,
        Codec.encodeStep, List.nil_append, ← StructType.wireBytes]
      dsimp only
      rcases output.write (s.wireBytes record) with ⟨_ | _, written⟩ <;> rfl

/-- Without a fault, everything is written at once; with one, nothing is. -/
theorem encodeTo_of_inOrder {s : StructType} (horder : InOrder [] s.fields) (record : Record)
    (output : Output) :
    (∃ error, s.firstFault? record = some error ∧
      s.compile.encodeTo record output = .error ⟨error, output⟩) ∨
    (s.firstFault? record = none ∧ ∃ reserved,
      s.compile.encodeTo record output =
        match output.write (s.wireBytes record) with
        | (true, written) => .ok ⟨(s.wireBytes record).length, reserved, written⟩
        | (false, written) => .error ⟨.outputFull, written⟩) := by
  rcases encodeTo_reserves horder record output with hfault | ⟨hnone, reserved, -, hencode⟩
  · exact .inl hfault
  · exact .inr ⟨hnone, reserved, hencode⟩

theorem write_of_room {output : Output} (hroom : output.room = none) (bytes : List UInt8) :
    output.write bytes =
      (true, ⟨none, output.received ++ bytes, output.writes ++ [bytes.length]⟩) := by
  rw [Output.write, hroom]

/-- An encoding ends in the first fault of the record, or gives its bytes. -/
theorem encodeRecord_of_inOrder {s : StructType} (horder : InOrder [] s.fields) (record : Record) :
    s.compile.encodeRecord record = unlessFault (s.firstFault? record) (s.wireBytes record) := by
  rw [Codec.encodeRecord]
  rcases encodeTo_of_inOrder horder record (.start none) with
    ⟨error, hfault, hencode⟩ | ⟨hfault, reserved, hencode⟩
  · rw [hencode, hfault]
    rfl
  · rw [write_of_room rfl] at hencode
    rw [hencode, hfault]
    rfl

/-- The records that have bytes are those that provide every field. -/
theorem encodeRecord_eq_ok {s : StructType} (horder : InOrder [] s.fields) {record : Record}
    {bytes : List UInt8} :
    s.compile.encodeRecord record = .ok bytes ↔
      (∀ field ∈ s.fields, record.Provides field) ∧ bytes = s.wireBytes record := by
  rw [← firstFault?_eq_none, encodeRecord_of_inOrder horder]
  cases s.firstFault? record with
  | some error =>
    constructor
    · intro h
      cases h
    · rintro ⟨h, -⟩
      cases h
  | none =>
    constructor
    · intro h
      cases h
      exact ⟨rfl, rfl⟩
    · rintro ⟨-, rfl⟩
      rfl

/-- An output without a limit gets the bytes of a record exactly when the record provides every
field; otherwise the encoding ends in the first fault, and the output is as it was. -/
theorem encodeTo_iff_provides {aliases : AliasTable} {decl : StructDecl} {s : StructType}
    (hbind : StructType.bind aliases decl = .ok s) (record : Record) (output : Output)
    (hroom : output.room = none) :
    ((∃ encoded, s.compile.encodeTo record output = .ok encoded) ↔
      ∀ field ∈ s.fields, record.Provides field) ∧
    (∀ encoded, s.compile.encodeTo record output = .ok encoded →
      encoded.output.received = output.received ++ s.wireBytes record ∧
      encoded.size = (s.wireBytes record).length) ∧
    ∀ failure, s.compile.encodeTo record output = .error failure →
      s.firstFault? record = some failure.error ∧ failure.output = output := by
  rw [← firstFault?_eq_none]
  rcases encodeTo_of_inOrder (inOrder_of_bind hbind) record output with
    ⟨error, hfault, hencode⟩ | ⟨hfault, reserved, hencode⟩
  · rw [hencode, hfault]
    refine ⟨by simp, fun encoded h => (by cases h), fun failure h => ?_⟩
    cases h
    exact ⟨rfl, rfl⟩
  · rw [write_of_room hroom] at hencode
    rw [hencode, hfault]
    refine ⟨by simp, fun encoded h => ?_, fun failure h => (by cases h)⟩
    cases h
    exact ⟨rfl, rfl⟩

theorem encodeTo_iff_provides_telemetry :
    ∃ encoded, telemetry.compile.encodeTo telemetryRecord (.start none) = .ok encoded ∧
      encoded.output.received = telemetryBytes ∧ encoded.size = 9 := by
  obtain ⟨hiff, hbytes, -⟩ := encodeTo_iff_provides bind_telemetry telemetryRecord (.start none) rfl
  have hfault : telemetry.firstFault? telemetryRecord = none := by rfl
  have hwire : telemetry.wireBytes telemetryRecord = telemetryBytes := by rfl
  obtain ⟨encoded, hencode⟩ := hiff.mpr (firstFault?_eq_none.mp hfault)
  obtain ⟨hreceived, hsize⟩ := hbytes encoded hencode
  rw [hwire] at hreceived hsize
  exact ⟨encoded, hencode, hreceived, hsize⟩

end WireCodec
