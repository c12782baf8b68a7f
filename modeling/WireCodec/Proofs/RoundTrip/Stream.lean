import WireCodec.Proofs.RoundTrip.Record

/-!
# Records in a stream

What encodings write one behind the other is decoded by the same codecs in turn.  Every decoding
takes the bytes of its record and no others, and gives the canonical form of the record: its values
for the fields of the struct, in their order, with the tags of the declared types.
-/

namespace WireCodec

open StructType

/-! ## Canonical records -/

/-- The value with the tag of the type, which need not be the one it was encoded with. -/
def WireType.retag (type : WireType) (value : Value) : Value :=
  match type, value.elements? with
  | .array .., some elements => .array elements
  | .sequence .., some elements => .sequence elements
  | _, _ => value

/-- The values of a record for some fields, in their order. -/
def Record.canonical (record : Record) (fields : List Field) : List (String × Value) :=
  fields.filterMap fun field =>
    (record.get? field.name).map fun value => (field.name, field.type.retag value)

/-- An array and a sequence of the same elements have the same bytes. -/
theorem wireBytes_retag (type : WireType) (value : Value) :
    (type.retag value).wireBytes = value.wireBytes := by
  cases type <;> cases value <;> rfl

/-- What a record provides for a field is of the type of the field, apart from its tag. -/
theorem admits_retag {record : Record} {field : Field} (h : record.Provides field) :
    ∃ value, record.get? field.name = some value ∧
      field.type.Admits record (field.type.retag value) := by
  rw [Record.Provides] at h
  cases htype : field.type with
  | scalar type =>
    rw [htype] at h
    obtain ⟨x, hvalue, hkind⟩ := h
    exact ⟨.scalar x, hvalue, x, rfl, hkind⟩
  | array elem length fits =>
    rw [htype] at h
    obtain ⟨xs, ⟨value, hvalue, helements, hkinds⟩, hlength⟩ := h
    exact ⟨value, hvalue, xs, by simp only [WireType.retag, helements], hkinds, hlength⟩
  | sequence elem length =>
    rw [htype] at h
    obtain ⟨count, xs, heval, ⟨value, hvalue, helements, hkinds⟩, hlength⟩ := h
    exact ⟨value, hvalue, count, heval, xs, by simp only [WireType.retag, helements], hkinds, hlength⟩

theorem retag_of_countsElements {type : WireType} (h : type.countsElements = true) (value : Value) :
    type.retag value = value := by
  cases type with
  | scalar type => rfl
  | array elem length fits => cases h
  | sequence elem length => cases h

/-- The bytes that a record has for fields are read as its values for them.  The record and the
values in front need only agree on the fields that may count. -/
theorem readFields_bytesOf {earlier fields : List Field} (horder : InOrder earlier fields)
    {record before : Record} (hbefore : before.names = earlier.map Field.name)
    (hagree : ∀ g ∈ earlier, g.type.countsElements = true →
      record.get? g.name = before.get? g.name)
    (hprovides : ∀ field ∈ fields, record.Provides field)
    (hlength : (fields.flatMap record.bytesOf).length < wordLimit) (rest : List UInt8) :
    ∃ after : Record,
      readFields before fields (fields.flatMap record.bytesOf ++ rest) = .ok (after, rest) ∧
      after.entries = before.entries ++ record.canonical fields := by
  induction horder generalizing before with
  | nil => exact ⟨before, rfl, by rw [Record.canonical, List.filterMap_nil, List.append_nil]⟩
  | @cons earlier fields field fresh counted _ ih =>
    obtain ⟨value, hvalue, hadmits⟩ := admits_retag (hprovides field (List.mem_cons_self ..))
    rw [List.flatMap_cons, List.length_append, bytesOf_eq hvalue] at hlength
    obtain ⟨tagged, htagged⟩ : ∃ tagged, tagged = field.type.retag value := ⟨_, rfl⟩
    have hbytes : tagged.wireBytes = value.wireBytes := by rw [htagged, wireBytes_retag]
    rw [← htagged] at hadmits
    have hread : readValue before field
        (tagged.wireBytes ++ (fields.flatMap record.bytesOf ++ rest)) =
        .ok (tagged, fields.flatMap record.bytesOf ++ rest) :=
      readValue_eq_ok.mpr ⟨admits_congr counted hagree hadmits, by rw [hbytes]; omega, rfl⟩
    have hfresh : field.name ∉ before.names := by rwa [hbefore]
    -- A new tag changes the value, but never one that a later length may ask for.
    have hnext : ∀ g ∈ earlier ++ [field], g.type.countsElements = true →
        record.get? g.name = (before.set field.name tagged).get? g.name := by
      intro g hg hcounts
      rcases List.mem_append.mp hg with hg | hg
      · rw [get?_set_of_fresh fresh hg, hagree g hg hcounts]
      · rw [List.mem_singleton.mp hg] at hcounts ⊢
        rw [NameTable.get?_set_self, hvalue, htagged, retag_of_countsElements hcounts]
    obtain ⟨after, hafter, hentries⟩ := ih (names_set_of_fresh fresh hbefore tagged) hnext
      (fun f hf => hprovides f (List.mem_cons_of_mem _ hf)) (by omega)
    refine ⟨after, ?_, ?_⟩
    · rw [readFields, List.flatMap_cons, List.append_assoc, bytesOf_eq hvalue, ← hbytes, hread,
        ok_bind]
      exact hafter
    · rw [hentries, NameTable.entries_set_of_not_mem hfresh, List.append_assoc, htagged]
      congr 1
      rw [Record.canonical, Record.canonical, List.filterMap_cons, hvalue]
      rfl

/-- A record that is encoded is decoded to its canonical form, whatever stands behind it. -/
theorem run_of_encodeRecord {s : StructType} (horder : InOrder [] s.fields) {record : Record}
    {bytes : List UInt8} (hencode : s.compile.encodeRecord record = .ok bytes)
    (hlength : bytes.length < wordLimit) (rest : List UInt8) :
    ∃ decoded, s.compile.run (bytes ++ rest) = .ok decoded ∧ decoded.rest = rest ∧
      decoded.record.names = s.fields.map Field.name ∧
      decoded.record.entries = record.canonical s.fields := by
  obtain ⟨hprovides, rfl⟩ := (encodeRecord_eq_ok horder).mp hencode
  have hempty : (NameTable.empty : Record).names = ([] : List Field).map Field.name := rfl
  obtain ⟨after, hread, hentries⟩ := readFields_bytesOf horder hempty (by simp) hprovides hlength
    rest
  have hdecode : s.compile.decodeRecord (s.wireBytes record ++ rest) = .ok (after, rest) := by
    rw [decodeRecord_of_inOrder horder]
    exact hread
  obtain ⟨reads, hrun⟩ := decodeRecord_eq_ok.mp hdecode
  exact ⟨⟨after, rest, reads⟩, hrun, rfl, readFields_names horder rfl hread, hentries⟩

/-! ## Streams -/

/-- Decodes one record with each codec in turn. -/
def Codec.runAll : List Codec → List UInt8 → Except DecodeFailure (List Decoded)
  | [], _ => .ok []
  | c :: rest, input => do
    let decoded ← c.run input
    let later ← runAll rest decoded.rest
    return decoded :: later

/-- A record and its encoding by a struct. -/
structure Message where
  type : StructType
  record : Record
  bytes : List UInt8

/-- The struct was declared, and the bytes are those of the record and can be counted in a word. -/
structure Message.Sent (m : Message) : Prop where
  declared : ∃ aliases decl, StructType.bind aliases decl = .ok m.type
  encoded : m.type.compile.encodeRecord m.record = .ok m.bytes
  length_lt : m.bytes.length < wordLimit

/-- A stream of encodings is decoded record by record.  Every decoding leaves the encodings behind
its own. -/
theorem runAll_encodings {messages : List Message} (h : ∀ m ∈ messages, m.Sent)
    (tail : List UInt8) :
    ∃ decoded, Codec.runAll (messages.map (·.type.compile))
        (messages.flatMap Message.bytes ++ tail) = .ok decoded ∧
      decoded.length = messages.length ∧
      ∀ i m d, messages[i]? = some m → decoded[i]? = some d →
        d.rest = (messages.drop (i + 1)).flatMap Message.bytes ++ tail ∧
        d.record.names = m.type.fields.map Field.name ∧
        d.record.entries = m.record.canonical m.type.fields := by
  induction messages with
  | nil => exact ⟨[], rfl, rfl, by simp⟩
  | cons first later ih =>
    obtain ⟨⟨aliases, decl, hbind⟩, hencode, hlength⟩ := h first (List.mem_cons_self ..)
    obtain ⟨d, hrun, hrest, hrecord⟩ := run_of_encodeRecord (inOrder_of_bind hbind) hencode hlength
      (later.flatMap Message.bytes ++ tail)
    obtain ⟨decoded, hall, hcount, hindex⟩ := ih fun m hm => h m (List.mem_cons_of_mem _ hm)
    refine ⟨d :: decoded, ?_, by rw [List.length_cons, List.length_cons, hcount], ?_⟩
    · rw [List.map_cons, List.flatMap_cons, List.append_assoc, Codec.runAll, hrun, ok_bind, hrest,
        hall]
      rfl
    · intro i m e hm he
      cases i with
      | zero =>
        cases hm
        cases he
        exact ⟨hrest, hrecord⟩
      | succ i => exact hindex i m e hm he

/-- The telemetry record in another order, with other tags and with a field that is not asked for. -/
def telemetryLoose : Record := .ofList
  [("tag", .sequence [.scalar (.ofBits .u8 7), .scalar (.ofBits .u8 8)]), ("pad", .sequence []),
    ("note", .scalar (.ofBits .u64 5)), ("marks", .array []), ("count", .scalar (.ofBits .u8 1)),
    ("samples", .array [.scalar (.ofBits .i16 0xffff)]),
    ("scale", .scalar (.ofBits .f32 0x7fc00001))]

theorem runAll_encodings_telemetry :
    ∃ decoded, Codec.runAll [telemetry.compile, telemetry.compile]
        (telemetryBytes ++ telemetryBytes ++ [9]) = .ok decoded ∧
      decoded.length = 2 ∧
      ∀ d, decoded[1]? = some d → d.rest = [9] ∧ d.record.entries = telemetryRecord.entries := by
  have hdeclared : ∃ aliases decl, StructType.bind aliases decl = .ok telemetry :=
    ⟨telemetryAliases, telemetryDecl, bind_telemetry⟩
  have hshort : telemetryBytes.length < wordLimit := by decide
  have hsent : ∀ record : Record, telemetry.firstFault? record = none →
      telemetry.wireBytes record = telemetryBytes →
      Message.Sent ⟨telemetry, record, telemetryBytes⟩ := by
    intro record hfault hwire
    have hencode := (encodeRecord_eq_ok (inOrder_of_bind bind_telemetry)).mpr
      ⟨firstFault?_eq_none.mp hfault, hwire.symm⟩
    exact ⟨hdeclared, hencode, hshort⟩
  have hall : ∀ m ∈ [(⟨telemetry, telemetryRecord, telemetryBytes⟩ : Message),
      ⟨telemetry, telemetryLoose, telemetryBytes⟩], m.Sent := by
    intro m hm
    rcases List.mem_cons.mp hm with rfl | hm
    · exact hsent telemetryRecord (by rfl) (by rfl)
    · rw [List.mem_singleton.mp hm]
      exact hsent telemetryLoose (by rfl) (by rfl)
  obtain ⟨decoded, hrun, hlength, hindex⟩ := runAll_encodings hall [9]
  refine ⟨decoded, hrun, hlength, fun d hd => ?_⟩
  obtain ⟨hrest, -, hentries⟩ := hindex 1 _ d rfl hd
  exact ⟨hrest, hentries⟩

end WireCodec
