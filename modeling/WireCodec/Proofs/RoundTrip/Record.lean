import WireCodec.Proofs.Decoding.Refinement
import WireCodec.Proofs.Encoding.Conformance
import WireCodec.Proofs.RoundTrip.Value

/-!
# Records and their bytes

A decoded record has a value of the declared type for every field, and its bytes are the bytes that
were read.  So bytes that are decoded are the only encoding of what they are decoded to.
-/

namespace WireCodec

open StructType

/-- A record with a value of the type of the field. -/
def Record.Conforms (record : Record) (field : Field) : Prop :=
  ∃ value, record.get? field.name = some value ∧ field.type.Admits record value

/-- What conforms to a type is good enough to be encoded. -/
theorem Record.Conforms.provides {record : Record} {field : Field} (h : record.Conforms field) :
    record.Provides field := by
  obtain ⟨value, hvalue, hadmits⟩ := h
  rw [Record.Provides]
  cases htype : field.type with
  | scalar type =>
    rw [htype] at hadmits
    obtain ⟨x, rfl, hkind⟩ := hadmits
    exact ⟨x, hvalue, hkind⟩
  | array elem length fits =>
    rw [htype] at hadmits
    obtain ⟨xs, rfl, hkinds, hlength⟩ := hadmits
    exact ⟨xs, ⟨_, hvalue, rfl, hkinds⟩, hlength⟩
  | sequence elem length =>
    rw [htype] at hadmits
    obtain ⟨count, heval, xs, rfl, hkinds, hlength⟩ := hadmits
    exact ⟨count, xs, heval, ⟨_, hvalue, rfl, hkinds⟩, hlength⟩

/-- Fields that are read keep the values in front of them, get values of their types, and take
the bytes of those. -/
theorem conforms_of_readFields {earlier fields : List Field} (horder : InOrder earlier fields)
    {before record : Record} (hbefore : before.names = earlier.map Field.name)
    {input rest : List UInt8} (h : readFields before fields input = .ok (record, rest)) :
    (∀ g ∈ earlier, record.get? g.name = before.get? g.name) ∧
    (∀ field ∈ fields, record.Conforms field) ∧
    input = fields.flatMap record.bytesOf ++ rest := by
  induction horder generalizing before input with
  | nil =>
    cases h
    exact ⟨fun _ _ => rfl, by simp, rfl⟩
  | @cons earlier fields field fresh counted _ ih =>
    rw [readFields] at h
    obtain ⟨⟨value, middle⟩, hvalue, h⟩ := bind_eq_ok.mp h
    obtain ⟨hadmits, -, hinput⟩ := readValue_eq_ok.mp hvalue
    obtain ⟨hkept, hconforms, hmiddle⟩ := ih (names_set_of_fresh fresh hbefore value) h
    have hearlier : ∀ g ∈ earlier, record.get? g.name = before.get? g.name := by
      intro g hg
      rw [hkept g (List.mem_append_left _ hg), get?_set_of_fresh fresh hg]
    have hfield : record.get? field.name = some value := by
      rw [hkept field (List.mem_append_right _ (List.mem_singleton_self field)),
        NameTable.get?_set_self]
    -- The length was evaluated on the fields in front, and the finished record agrees with them.
    have hadmitted : field.type.Admits record value :=
      admits_congr counted (fun g hg _ => (hearlier g hg).symm) hadmits
    refine ⟨hearlier, ?_, ?_⟩
    · intro g hg
      rcases List.mem_cons.mp hg with rfl | hg
      · exact ⟨value, hfield, hadmitted⟩
      · exact hconforms g hg
    · rw [hinput, hmiddle, List.flatMap_cons, List.append_assoc, bytesOf_eq hfield]

/-- What is decoded conforms to the struct, and encoding it gives back the bytes it was decoded
from. -/
theorem encodeRecord_of_run {aliases : AliasTable} {decl : StructDecl} {s : StructType}
    (hbind : StructType.bind aliases decl = .ok s) {input : List UInt8} {decoded : Decoded}
    (h : s.compile.run input = .ok decoded) :
    (∃ bytes, input = bytes ++ decoded.rest ∧
      s.compile.encodeRecord decoded.record = .ok bytes) ∧
    decoded.record.names = s.fields.map Field.name ∧
    ∀ field ∈ s.fields, decoded.record.Conforms field := by
  have horder := inOrder_of_bind hbind
  have hread : s.readRecord input = .ok (decoded.record, decoded.rest) := by
    rw [← decodeRecord_of_inOrder horder, decodeRecord_eq_ok]
    exact ⟨decoded.reads, h⟩
  obtain ⟨-, hconforms, hinput⟩ := conforms_of_readFields horder rfl hread
  have hprovides : ∀ field ∈ s.fields, decoded.record.Provides field :=
    fun field hfield => (hconforms field hfield).provides
  exact ⟨⟨s.wireBytes decoded.record, hinput, (encodeRecord_eq_ok horder).mpr ⟨hprovides, rfl⟩⟩,
    readFields_names horder rfl hread, hconforms⟩

theorem encodeRecord_of_run_telemetry :
    ∃ bytes, telemetryBytes ++ [9] = bytes ++ [9] ∧
      telemetry.compile.encodeRecord telemetryRecord = .ok bytes := by
  have hread : telemetry.readRecord (telemetryBytes ++ [9]) = .ok (telemetryRecord, [9]) := by rfl
  rw [← decodeRecord_of_inOrder (inOrder_of_bind bind_telemetry), decodeRecord_eq_ok] at hread
  obtain ⟨reads, hrun⟩ := hread
  exact (encodeRecord_of_run bind_telemetry hrun).1

end WireCodec
