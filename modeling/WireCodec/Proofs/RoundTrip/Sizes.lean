import Mathlib.Algebra.Ring.Nat
import WireCodec.Proofs.Aliases.Reached
import WireCodec.Proofs.Encoding.Atomic
import WireCodec.Proofs.Layout.Partition
import WireCodec.Proofs.Length.Printing
import WireCodec.Proofs.RoundTrip.Stream

/-!
# Sizes that are announced

How many bytes a record takes is said in several places: by the fixed groups of a codec, by the room
that an encoding makes, and by the formula of every field.  All of them agree with the bytes that
are written, and with those that a decoding takes back.
-/

namespace WireCodec

open StructType

/-! ## The bytes of fields -/

section Fields

variable {record : Record}

theorem length_bytesOf_collects {field : Field} {kind : ScalarKind} {xs : List Scalar}
    (h : record.Collects field.name kind xs) :
    (record.bytesOf field).length = xs.length * kind.size := by
  obtain ⟨value, hvalue, helements, hkinds⟩ := h
  rw [bytesOf_eq hvalue, wireBytes_of_elements helements, ← List.flatMap_def, flatMap_scalarBytes,
    length_flatMap_toBytes hkinds]

theorem sequenceBytes_of_ne {field : Field}
    (h : ∀ elem length, field.type ≠ .sequence elem length) : record.sequenceBytes field = 0 := by
  unfold Record.sequenceBytes
  split
  · rename_i elem length htype
    exact absurd htype (h elem length)
  · rfl

/-- A field has the bytes that its type fixes, or those of the elements that are counted. -/
theorem length_bytesOf {field : Field} (h : record.Provides field) :
    (record.bytesOf field).length = field.type.size?.getD 0 + record.sequenceBytes field := by
  rw [Record.Provides] at h
  rw [Record.sequenceBytes]
  cases htype : field.type with
  | scalar type =>
    rw [htype] at h
    obtain ⟨x, hvalue, hkind⟩ := h
    rw [bytesOf_eq hvalue]
    show x.toBytes.length = type.kind.size + 0
    rw [x.length_toBytes, hkind, Nat.add_zero]
  | array elem length fits =>
    rw [htype] at h
    obtain ⟨xs, hcollects, rfl⟩ := h
    exact (length_bytesOf_collects hcollects).trans (Nat.mul_comm ..)
  | sequence elem length =>
    rw [htype] at h
    obtain ⟨count, xs, heval, hcollects, hlength⟩ := h
    rw [length_bytesOf_collects hcollects, hlength]
    simp only [heval]
    exact (Nat.zero_add _).symm

/-- The bytes of a record are those of known size and those of its sequences. -/
theorem length_flatMap_bytesOf {fields : List Field} (h : ∀ field ∈ fields, record.Provides field) :
    (fields.flatMap record.bytesOf).length =
      runSize fields + (fields.map record.sequenceBytes).sum := by
  induction fields with
  | nil => rfl
  | cons field rest ih =>
    have hfield := length_bytesOf (h field (List.mem_cons_self ..))
    have hrest := ih fun g hg => h g (List.mem_cons_of_mem _ hg)
    rw [List.flatMap_cons, List.length_append, hfield, hrest, runSize, List.map_cons, List.sum_cons]
    omega

theorem length_bytesOf_le {fields : List Field} {field : Field} (hfield : field ∈ fields) :
    (record.bytesOf field).length ≤ (fields.flatMap record.bytesOf).length := by
  obtain ⟨front, behind, rfl⟩ := List.append_of_mem hfield
  rw [List.flatMap_append, List.flatMap_cons, List.length_append, List.length_append]
  omega

end Fields

/-! ## The fixed groups -/

theorem runSize_known (fields : List Field) :
    runSize (fields.filter (·.type.size?.isSome)) = runSize fields := by
  induction fields with
  | nil => rfl
  | cons field rest ih =>
    rw [List.filter_cons]
    cases hsize : field.type.size? with
    | none =>
      rw [if_neg (by simp), ih, runSize, hsize, Option.getD_none, Nat.zero_add]
    | some size => rw [if_pos Option.isSome_some, runSize, ih, runSize]

/-- The fixed size of a codec is that of its fields of known size. -/
theorem fixedSize_compile (s : StructType) : s.compile.fixedSize = runSize s.fields := by
  have hcut : ∀ g ∈ Group.ofFields s.fields, g.CutFrom s.fields := fun g hg => Group.cut_of_mem hg
  have hsize := Group.fixedSize_eq hcut
  rw [Group.flatMap_slice, runSize_known] at hsize
  exact hsize

/-- A struct has a fixed size exactly if it has no sequence. -/
theorem isFixedSize_iff (s : StructType) :
    s.compile.isFixedSize = true ↔
      ∀ field ∈ s.fields, ∀ elem length, field.type ≠ .sequence elem length := by
  -- Every field is in a group, and a group that is not fixed is a sequence.
  have hmem {field : Field} : field ∈ s.fields ↔
      ∃ g ∈ Group.ofFields s.fields, field ∈ g.slice s.fields := by
    rw [← List.mem_flatMap, Group.flatMap_slice]
  show (Group.ofFields s.fields).all Group.isFixed = true ↔ _
  rw [List.all_eq_true]
  constructor
  · intro hfixed field hfield elem length htype
    obtain ⟨g, hg, hslice⟩ := hmem.mp hfield
    have hgroup := hfixed g hg
    cases Group.cut_of_mem hg with
    | run known extent =>
      have hknown := known field hslice
      rw [htype] at hknown
      cases hknown
    | sequence slice type extent =>
      rw [Group.isFixed, extent] at hgroup
      cases hgroup
  · intro hnone g hg
    cases Group.cut_of_mem hg with
    | run known extent => rw [Group.isFixed, extent]
    | @sequence field elem length slice type extent =>
      have hslice : field ∈ g.slice s.fields := slice ▸ List.mem_singleton_self field
      exact absurd type (hnone field (hmem.mpr ⟨g, hg, hslice⟩) elem length)

/-! ## Room -/

section Room

variable (record : Record)

theorem get?_counted_of_ne {counts : NameTable Nat} {field : Field} {name : String}
    (h : name ≠ field.name) : (record.counted counts field).get? name = counts.get? name := by
  unfold Record.counted
  split
  · split
    · rw [NameTable.get?_set, if_neg h]
    · rfl
  · rfl

theorem get?_foldl_counted_of_not_mem {fields : List Field} {name : String}
    (h : name ∉ fields.map Field.name) (counts : NameTable Nat) :
    (fields.foldl record.counted counts).get? name = counts.get? name := by
  induction fields generalizing counts with
  | nil => rfl
  | cons field rest ih =>
    rw [List.map_cons, List.mem_cons, not_or] at h
    rw [List.foldl_cons, ih h.2, get?_counted_of_ne record h.1]

/-- When all fields are counted, every sequence has the count that its length evaluates to. -/
theorem get?_foldl_counted {fields : List Field} (hnames : (fields.map Field.name).Nodup)
    {field : Field} (hfield : field ∈ fields) {elem : ScalarType} {length : LengthExpr}
    (htype : field.type = .sequence elem length) {count : UInt64}
    (heval : length.eval (Record.count? record) = .ok count) (counts : NameTable Nat) :
    (fields.foldl record.counted counts).get? field.name = some count.toNat := by
  induction fields generalizing counts with
  | nil => cases hfield
  | cons first rest ih =>
    obtain ⟨hfresh, hrest⟩ := List.nodup_cons.mp hnames
    rw [List.foldl_cons]
    rcases List.mem_cons.mp hfield with rfl | hfield
    · -- No later field has the name, so the count stays.
      rw [get?_foldl_counted_of_not_mem record hfresh, Record.counted, htype]
      simp only [heval, NameTable.get?_set_self]
    · exact ih hrest hfield _

theorem type_of_countedUnit {field : Field} {e : String × Nat} (h : countedUnit field = some e) :
    ∃ elem length, field.type = .sequence elem length ∧ e = (field.name, elem.size) := by
  unfold countedUnit at h
  split at h
  · rename_i elem length htype
    exact ⟨elem, length, htype, (Option.some.inj h).symm⟩
  · cases h

/-- The room for counted sequences is the number of their bytes. -/
theorem roomFor_counted {s : EncodeState} {fields : List Field}
    (hcounts : ∀ field ∈ fields, ∀ elem length, field.type = .sequence elem length →
      ∃ count, length.eval (Record.count? record) = .ok count ∧
        s.counts.get? field.name = some count.toNat) {bytes : Nat}
    (hlt : bytes + (fields.map record.sequenceBytes).sum < wordLimit) :
    s.roomFor bytes (fields.filterMap countedUnit) =
      .ok (bytes + (fields.map record.sequenceBytes).sum) := by
  induction fields generalizing bytes with
  | nil => rfl
  | cons field rest ih =>
    have hlater := fun g hg => hcounts g (List.mem_cons_of_mem field hg)
    rw [List.map_cons, List.sum_cons, ← Nat.add_assoc] at hlt ⊢
    cases hunit : countedUnit field with
    | none =>
      have hne : ∀ elem length, field.type ≠ .sequence elem length := by
        intro elem length htype
        rw [countedUnit, htype] at hunit
        cases hunit
      rw [sequenceBytes_of_ne hne] at hlt ⊢
      rw [List.filterMap_cons_none hunit]
      exact ih hlater hlt
    | some e =>
      obtain ⟨elem, length, htype, rfl⟩ := type_of_countedUnit hunit
      obtain ⟨count, heval, hcount⟩ := hcounts field (List.mem_cons_self ..) elem length htype
      have hbytes : record.sequenceBytes field = count.toNat * elem.size := by
        rw [Record.sequenceBytes, htype]
        simp only [heval]
      rw [hbytes] at hlt ⊢
      -- The bytes so far can be counted in a word, so the room is not cut at the largest one.
      rw [List.filterMap_cons_some hunit, EncodeState.roomFor, EncodeState.countOf, hcount, ok_bind,
        Nat.min_eq_left (by omega)]
      exact ih hlater hlt

end Room

/-! ## Formulas -/

/-- The formula for a number of bytes as an expression. -/
def ByteCount.formula : ByteCount → LengthExpr
  | known bytes => .const (.ofNat bytes)
  | scaled unit count => .binary .mul (.const (.ofNat unit)) count

/-- What a formula says in numbers is a word. -/
def ByteCount.Fits : ByteCount → Prop
  | known bytes => bytes < wordLimit
  | scaled unit _ => unit < wordLimit

theorem toNat_ofNat_word {n : Nat} (h : n < wordLimit) : (UInt64.ofNat n).toNat = n :=
  UInt64.toNat_ofNat_of_lt' h

/-- The formula of a size is written as the size is. -/
theorem ByteCount.text_formula {b : ByteCount} (h : b.Fits) : b.formula.text = b.text := by
  cases b with
  | known bytes => rw [formula, LengthExpr.text, toNat_ofNat_word h]; rfl
  | scaled unit count =>
    -- The printer puts parentheses around whatever holds together no tighter than a product.
    have hparens : decide (count.precedence ≤ 2) = decide (count.precedence < 3) :=
      decide_eq_decide.mpr Nat.lt_succ_iff.symm
    have hunit : (LengthExpr.const (.ofNat unit)).text = toString unit :=
      congrArg toString (toNat_ofNat_word h)
    show (LengthExpr.const (.ofNat unit)).text ++ " " ++ "*" ++ " " ++
      LengthExpr.parenthesize (decide (count.precedence ≤ 2)) count.text = _
    have hblanks : toString unit ++ " " ++ "*" ++ " " = toString unit ++ " * " := by
      rw [String.append_assoc, String.append_assoc]
      rfl
    rw [hunit, hparens, hblanks]
    rfl

theorem WireType.fits_byteCount (type : WireType) : type.byteCount.Fits := by
  have hword : 8 < wordLimit := by decide
  cases type with
  | scalar type => exact Nat.lt_of_le_of_lt type.kind.size_le hword
  | array elem length fits => exact fits
  | sequence elem length => exact Nat.lt_of_le_of_lt elem.kind.size_le hword

namespace StructType

variable {aliases : AliasTable} {decl : StructDecl} {s : StructType}

theorem isWord_of_mem_references (h : bind aliases decl = .ok s) {field : Field}
    (hfield : field ∈ s.fields) {name : String} (hname : name ∈ references field.type) :
    Text.isWord name.toList = true := by
  -- A length asks for fields of the struct, and their names have been checked.
  have hmem := (inOrder_of_bind h).mem_names hfield hname
  obtain ⟨g, hg, rfl⟩ := List.mem_map.mp hmem
  obtain ⟨fieldDecl, -, hkeeps⟩ := exists_left_of_mem (keeps_of_bind h).2 hg
  have hidentifier := hkeeps.identifier
  rw [Text.isIdentifier, Text.isName, Bool.and_eq_true, Bool.and_eq_true] at hidentifier
  exact hidentifier.1.1

/-- The text for the bytes of a field is read as the formula. -/
theorem parse_byteCount (h : bind aliases decl = .ok s) {field : Field}
    (hfield : field ∈ s.fields) :
    LengthExpr.parse field.type.byteCount.text = .ok field.type.byteCount.formula := by
  have hwords : ∀ name ∈ field.type.byteCount.formula.fields, Text.isWord name.toList = true := by
    intro name hname
    apply isWord_of_mem_references h hfield
    cases htype : field.type with
    | scalar type => rw [htype] at hname; cases hname
    | array elem length fits => rw [htype] at hname; cases hname
    | sequence elem length => rwa [htype] at hname
  rw [← ByteCount.text_formula (WireType.fits_byteCount _)]
  exact Length.parseChars_eq_ok.mpr (Length.spelled_text hwords).expr

end StructType

/-- The formula of a field gives the number of its bytes. -/
theorem eval_formula {record : Record} {field : Field} (h : record.Provides field)
    (hlt : (record.bytesOf field).length < wordLimit) :
    ∃ n, field.type.byteCount.formula.eval (Record.count? record) = .ok n ∧
      n.toNat = (record.bytesOf field).length := by
  have hlength := length_bytesOf h
  rw [hlength] at hlt ⊢
  rw [Record.Provides] at h
  unfold Record.sequenceBytes at hlt ⊢
  cases htype : field.type with
  | scalar type =>
    rw [htype] at hlt
    exact ⟨_, rfl, toNat_ofNat_word hlt⟩
  | array elem length fits => exact ⟨_, rfl, toNat_ofNat_word fits⟩
  | sequence elem length =>
    rw [htype] at h hlt
    obtain ⟨count, -, heval, -⟩ := h
    have hunit : (UInt64.ofNat elem.size).toNat = elem.size :=
      toNat_ofNat_word (WireType.fits_byteCount (.sequence elem length))
    simp only [heval, Nat.mul_comm count.toNat] at hlt ⊢
    -- The length has a value already, and the product is the number of bytes.
    have hproduct : elem.size * count.toNat < wordLimit :=
      Nat.lt_of_le_of_lt (Nat.le_add_left ..) hlt
    refine ⟨.ofNat elem.size * count, ?_, ?_⟩
    · rw [WireType.byteCount, ByteCount.formula, LengthExpr.eval_binary, LengthExpr.eval_const,
        heval]
      show (if (UInt64.ofNat elem.size).toNat * count.toNat < wordLimit then _ else _) = _
      rw [hunit, if_pos hproduct]
    · rw [UInt64.toNat_mul, hunit, show _ % 2 ^ 64 = _ from Nat.mod_eq_of_lt hproduct]
      exact (Nat.zero_add _).symm

/-! ## Records -/

section Records

variable {s : StructType} (horder : InOrder [] s.fields) {record : Record} {output : Output}
include horder

theorem of_encodeTo {encoded : Encoded} (h : s.compile.encodeTo record output = .ok encoded) :
    (∀ field ∈ s.fields, record.Provides field) ∧
    encoded.size = (s.wireBytes record).length ∧
    encoded.output.received = output.received ++ s.wireBytes record ∧
    EncodeState.roomFor ⟨s.fields.foldl record.counted .empty, 0, [], output⟩ s.compile.fixedSize
      (s.fields.filterMap countedUnit) = .ok encoded.reserved := by
  rcases encodeTo_reserves horder record output with
    ⟨error, -, hencode⟩ | ⟨hfault, reserved, hroom, hencode⟩
  · rw [h] at hencode
    cases hencode
  · rw [h, Output.write_eq] at hencode
    by_cases hall : output.accepted (s.wireBytes record) = s.wireBytes record
    · rw [decide_eq_true hall] at hencode
      cases hencode
      exact ⟨firstFault?_eq_none.mp hfault, rfl, congrArg _ hall, hroom⟩
    · rw [decide_eq_false hall] at hencode
      cases hencode

/-- The room that is reserved is the size of the encoding. -/
theorem roomFor_wireBytes (hprovides : ∀ field ∈ s.fields, record.Provides field)
    (hlt : (s.wireBytes record).length < wordLimit) :
    EncodeState.roomFor ⟨s.fields.foldl record.counted .empty, 0, [], output⟩ s.compile.fixedSize
      (s.fields.filterMap countedUnit) = .ok (s.wireBytes record).length := by
  have hlength := length_flatMap_bytesOf hprovides
  rw [← fixedSize_compile] at hlength
  rw [StructType.wireBytes, hlength] at hlt ⊢
  apply roomFor_counted record _ hlt
  intro field hfield elem length htype
  have hprovided := hprovides field hfield
  rw [Record.Provides, htype] at hprovided
  obtain ⟨count, -, heval, -⟩ := hprovided
  exact ⟨count, heval,
    get?_foldl_counted record (horder.nodup_names List.nodup_nil) hfield htype heval .empty⟩

end Records

/-- What an encoding announces and what it writes.  The codec of a struct without sequences gives
every record the same size.  Of any struct, a record that is encoded has as many bytes as room was
made for: those of the fixed groups and those of the counted elements.  A decoding takes just them,
and the formula of each field reads back as an expression whose value is the size of that field. -/
theorem encodeTo_sizes {aliases : AliasTable} {decl : StructDecl} {s : StructType}
    (hbind : StructType.bind aliases decl = .ok s) :
    (s.compile.isFixedSize = true ↔
      ∀ field ∈ s.fields, ∀ elem length, field.type ≠ .sequence elem length) ∧
    (s.compile.isFixedSize = true → ∀ record output encoded,
      s.compile.encodeTo record output = .ok encoded → encoded.size = s.compile.fixedSize) ∧
    ∀ record output encoded, s.compile.encodeTo record output = .ok encoded →
      encoded.size < wordLimit →
      ∃ bytes, encoded.output.received = output.received ++ bytes ∧
        bytes = s.fields.flatMap record.bytesOf ∧ encoded.size = bytes.length ∧
        encoded.reserved = bytes.length ∧
        bytes.length = s.compile.fixedSize + (s.fields.map record.sequenceBytes).sum ∧
        (∀ rest, ∃ decoded, s.compile.run (bytes ++ rest) = .ok decoded ∧ decoded.rest = rest) ∧
        ∀ field ∈ s.fields,
          LengthExpr.parse field.type.byteCount.text = .ok field.type.byteCount.formula ∧
          ∃ n, field.type.byteCount.formula.eval (Record.count? record) = .ok n ∧
            n.toNat = (record.bytesOf field).length := by
  have horder := inOrder_of_bind hbind
  refine ⟨isFixedSize_iff s, fun hfixed record output encoded hencode => ?_,
    fun record output encoded hencode hlt => ?_⟩
  · obtain ⟨hprovides, hsize, -⟩ := of_encodeTo horder hencode
    have hnone : (s.fields.map record.sequenceBytes).sum = 0 := by
      apply List.sum_eq_zero_iff_forall_eq_nat.mpr
      intro bytes hbytes
      obtain ⟨field, hfield, rfl⟩ := List.mem_map.mp hbytes
      exact sequenceBytes_of_ne ((isFixedSize_iff s).mp hfixed field hfield)
    rw [hsize, StructType.wireBytes, length_flatMap_bytesOf hprovides, hnone, fixedSize_compile,
      Nat.add_zero]
  · obtain ⟨hprovides, hsize, hreceived, hroom⟩ := of_encodeTo horder hencode
    rw [hsize] at hlt
    rw [roomFor_wireBytes horder hprovides hlt] at hroom
    refine ⟨_, hreceived, rfl, hsize, (Except.ok.inj hroom).symm, ?_, fun rest => ?_,
      fun field hfield => ⟨parse_byteCount hbind hfield, ?_⟩⟩
    · rw [fixedSize_compile]
      exact length_flatMap_bytesOf hprovides
    · have hbytes := (encodeRecord_eq_ok horder).mpr ⟨hprovides, rfl⟩
      obtain ⟨decoded, hrun, hrest, -⟩ := run_of_encodeRecord horder hbytes hlt rest
      exact ⟨decoded, hrun, hrest⟩
    · have hle : (record.bytesOf field).length ≤ (s.fields.flatMap record.bytesOf).length :=
        length_bytesOf_le hfield
      exact eval_formula (hprovides field hfield) (Nat.lt_of_le_of_lt hle hlt)

/-- Five bytes in every record. -/
def point : StructType :=
  ⟨"Point", [⟨"x", .scalar ⟨none, .u8⟩⟩, ⟨"y", .array ⟨none, .u16⟩ 2 (by decide)⟩]⟩

-- The difference counts as a whole, so it is the right operand of the product that is read.
theorem encodeTo_sizes_telemetry :
    (∃ encoded, telemetry.compile.encodeTo telemetryRecord (.start none) = .ok encoded ∧
      encoded.size = 9 ∧ encoded.reserved = 9 ∧ encoded.output.received = telemetryBytes) ∧
    LengthExpr.parse "2 * (count * 2 - 1)" = .ok (.binary .mul (.const 2)
      (.binary .sub (.binary .mul (.field "count") (.const 2)) (.const 1))) ∧
    ∀ record output encoded, point.compile.encodeTo record output = .ok encoded →
      encoded.size = 5 := by
  have hpoint : StructType.bind .empty ⟨"Point", [⟨"x", .named "u8", none⟩,
      ⟨"y", .array (.named "u16") 2, none⟩]⟩ = .ok point := by rfl
  obtain ⟨-, -, hsizes⟩ := encodeTo_sizes bind_telemetry
  obtain ⟨-, hfixed, -⟩ := encodeTo_sizes hpoint
  have hencode : telemetry.compile.encodeTo telemetryRecord (.start none) =
      .ok ⟨9, 9, ⟨none, telemetryBytes, [9]⟩⟩ := by rfl
  obtain ⟨bytes, hreceived, hbytes, hsize, hreserved, -, -, hformulas⟩ :=
    hsizes telemetryRecord (.start none) _ hencode (by decide)
  have htext : ByteCount.text (.scaled 2 (.binary .sub (.binary .mul (.field "count") (.const 2))
      (.const 1))) = "2 * (count * 2 - 1)" := by decide +kernel
  refine ⟨⟨_, hencode, ?_, ?_, ?_⟩, ?_, hfixed (by rfl)⟩
  · rw [hsize, hbytes]
    rfl
  · rw [hreserved, hbytes]
    rfl
  · rw [hreceived, hbytes]
    rfl
  · have hsamples := hformulas ⟨"samples", _⟩
      (List.mem_cons_of_mem _ (List.mem_cons_of_mem _ (List.mem_cons_self ..)))
    rw [← htext]
    exact hsamples.1

end WireCodec
