import WireCodec.Proofs.RoundTrip.Record

/-!
# Records that are cut short

The bytes of a record tell where the record ends.  As long as some of them are missing, decoding
runs into the end of the input and ends in no other way; what stands behind them is left alone.
-/

namespace WireCodec

open StructType

/-! ## Fields -/

/-- How many bytes a field takes depends on the fields in front of it only, so fewer bytes are too
few whatever they are. -/
theorem readValue_of_short {before : Record} {field : Field} {input rest : List UInt8}
    {value : Value} (h : readValue before field input = .ok (value, rest)) {short : List UInt8}
    (hshort : short.length < value.wireBytes.length) :
    readValue before field short = .error .endOfInput := by
  obtain ⟨hadmits, hfits, -⟩ := readValue_eq_ok.mp h
  cases htype : field.type with
  | scalar type =>
    rw [htype] at hadmits
    obtain ⟨x, rfl, hkind⟩ := hadmits
    have hsize : (Value.scalar x).wireBytes.length = type.kind.size := by
      rw [← hkind]
      exact x.length_toBytes
    have hneg : ¬ type.kind.size ≤ short.length := by omega
    rw [readValue_scalar _ _ htype, readScalar, if_neg hneg, error_bind]
  | array elem length fits =>
    rw [htype] at hadmits
    obtain ⟨xs, rfl, hkinds, hlength⟩ := hadmits
    rw [Value.wireBytes, flatMap_scalarBytes, length_flatMap_toBytes hkinds, hlength] at hshort
    rw [readValue_array _ _ htype, readScalars_of_lt hshort, error_bind]
  | sequence elem length =>
    rw [htype] at hadmits
    obtain ⟨count, heval, xs, rfl, hkinds, hlength⟩ := hadmits
    rw [Value.wireBytes, flatMap_scalarBytes, length_flatMap_toBytes hkinds, hlength] at hfits hshort
    have hunit : count.toNat * elem.size < wordLimit := hfits
    rw [readValue_sequence _ _ htype]
    simp only [heval, if_pos hunit, readScalars_of_lt hshort, error_bind]

/-- What was read was taken from the front of the input. -/
theorem bytes_of_readFields {before record : Record} {fields : List Field} {input rest : List UInt8}
    (h : readFields before fields input = .ok (record, rest)) :
    ∃ bytes, input = bytes ++ rest ∧
      ∀ more, readFields before fields (bytes ++ more) = .ok (record, more) := by
  induction fields generalizing before input with
  | nil =>
    cases h
    exact ⟨[], rfl, fun _ => rfl⟩
  | cons field fields ih =>
    rw [readFields] at h
    obtain ⟨⟨value, middle⟩, hvalue, h⟩ := bind_eq_ok.mp h
    obtain ⟨hadmits, hfits, hinput⟩ := readValue_eq_ok.mp hvalue
    obtain ⟨bytes, hmiddle, hmore⟩ := ih h
    refine ⟨value.wireBytes ++ bytes, by rw [hinput, hmiddle, List.append_assoc], fun more => ?_⟩
    have hagain := readValue_eq_ok.mpr ⟨hadmits, hfits, (rfl : _ = _ ++ (bytes ++ more))⟩
    rw [List.append_assoc, readFields, hagain, ok_bind]
    exact hmore more

/-- A cut in front of the end of the fields falls into one of them; those in front of it are read as
before. -/
theorem readFields_of_short {before record : Record} {fields : List Field} {input rest : List UInt8}
    (h : readFields before fields input = .ok (record, rest)) {k : Nat}
    (hk : k + rest.length < input.length) :
    readFields before fields (input.take k) = .error .endOfInput := by
  induction fields generalizing before input k with
  | nil =>
    cases h
    omega
  | cons field fields ih =>
    rw [readFields] at h ⊢
    obtain ⟨⟨value, middle⟩, hvalue, h⟩ := bind_eq_ok.mp h
    obtain ⟨hadmits, hfits, hinput⟩ := readValue_eq_ok.mp hvalue
    have hlength : input.length = value.wireBytes.length + middle.length := by
      rw [hinput, List.length_append]
    by_cases hcut : k < value.wireBytes.length
    · have hshort : (input.take k).length < value.wireBytes.length := by
        rw [List.length_take]
        omega
      rw [readValue_of_short hvalue hshort, error_bind]
    · obtain ⟨j, rfl⟩ := Nat.exists_eq_add_of_le (Nat.not_lt.mp hcut)
      have htake : input.take (value.wireBytes.length + j) = value.wireBytes ++ middle.take j := by
        rw [hinput, List.take_length_add_append]
      have hagain := readValue_eq_ok.mpr ⟨hadmits, hfits, htake⟩
      have hlater : j + rest.length < middle.length := by omega
      rw [hagain, ok_bind]
      exact ih h hlater

/-! ## Records -/

/-- A record that is decoded is settled by the bytes that it takes: fewer of them are not enough,
and more of them do not matter. -/
theorem run_selfDelimiting {aliases : AliasTable} {decl : StructDecl} {s : StructType}
    (hbind : StructType.bind aliases decl = .ok s) {input : List UInt8} {decoded : Decoded}
    (h : s.compile.run input = .ok decoded) :
    ∃ bytes, input = bytes ++ decoded.rest ∧
      (∀ k < bytes.length, ∃ failure, s.compile.run (input.take k) = .error failure ∧
        failure.error.isEndOfInput = true) ∧
      ∀ more, ∃ again, s.compile.run (bytes ++ more) = .ok again ∧
        again.record = decoded.record ∧ again.rest = more := by
  have hdecode := decodeRecord_of_inOrder (inOrder_of_bind hbind)
  have hread : s.readRecord input = .ok (decoded.record, decoded.rest) := by
    rw [← hdecode, decodeRecord_eq_ok]
    exact ⟨decoded.reads, h⟩
  obtain ⟨bytes, hinput, hmore⟩ := bytes_of_readFields hread
  refine ⟨bytes, hinput, fun k hk => ?_, fun more => ?_⟩
  · have hcut : k + decoded.rest.length < input.length := by
      rw [hinput, List.length_append]
      omega
    have hshort : s.compile.decodeRecord (input.take k) = .error .endOfInput := by
      rw [hdecode]
      exact readFields_of_short hread hcut
    obtain ⟨reads, hrun⟩ := decodeRecord_eq_error.mp hshort
    exact ⟨⟨.endOfInput, reads⟩, hrun, rfl⟩
  · have hagain : s.compile.decodeRecord (bytes ++ more) = .ok (decoded.record, more) := by
      rw [hdecode]
      exact hmore more
    obtain ⟨reads, hrun⟩ := decodeRecord_eq_ok.mp hagain
    exact ⟨⟨decoded.record, more, reads⟩, hrun, rfl, rfl⟩

theorem run_selfDelimiting_telemetry :
    (∃ failure, telemetry.compile.run (telemetryBytes.take 8) = .error failure ∧
      failure.error.isEndOfInput = true) ∧
    ∃ again, telemetry.compile.run (telemetryBytes ++ [3, 4]) = .ok again ∧
      again.record = telemetryRecord ∧ again.rest = [3, 4] := by
  have hread : telemetry.readRecord (telemetryBytes ++ [9]) = .ok (telemetryRecord, [9]) := by rfl
  rw [← decodeRecord_of_inOrder (inOrder_of_bind bind_telemetry), decodeRecord_eq_ok] at hread
  obtain ⟨reads, hrun⟩ := hread
  obtain ⟨bytes, hinput, hshort, hmore⟩ := run_selfDelimiting bind_telemetry hrun
  have hbytes : telemetryBytes = bytes := List.append_cancel_right hinput
  subst hbytes
  exact ⟨hshort 8 (by decide), hmore [3, 4]⟩

end WireCodec
