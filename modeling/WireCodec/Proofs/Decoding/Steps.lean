import WireCodec.Proofs.Decoding.FieldReader
import WireCodec.Run.Decode

/-!
# Reads and loads of a decoding

What the steps of a decoding do to its state.  A read puts the bytes it takes at the front of the
scratch buffer, in one piece or in chunks, and a load finds there what reading field by field finds
in the input.
-/

namespace WireCodec.DecodeState

theorem steps_cons (s : DecodeState) (first : DecodeStep) (rest : List DecodeStep) :
    s.steps (first :: rest) = s.step first >>= fun t => t.steps rest :=
  List.foldlM_cons

theorem steps_append (s : DecodeState) (a b : List DecodeStep) :
    s.steps (a ++ b) = s.steps a >>= fun t => t.steps b :=
  List.foldlM_append

/-! ## Reads -/

/-- A read behind what is held takes the next bytes and holds them too. -/
theorem readInto_of_le {s : DecodeState} {front : List UInt8} (hs : s.scratch.Holds front)
    {count : Nat} (h : count ≤ s.input.length) :
    ∃ reads scratch,
      s.readInto front.length count =
        .ok { s with input := s.input.drop count, reads, scratch } ∧
      scratch.Holds (front ++ s.input.take count) := by
  rw [readInto, if_pos h]
  exact ⟨_, _, rfl, (hs.growTo _).fill _⟩

theorem readInto_of_lt {s : DecodeState} {offset count : Nat} (h : s.input.length < count) :
    s.readInto offset count = .error ⟨.endOfInput, s.reads ++ [count]⟩ := by
  rw [readInto, if_neg (Nat.not_le.mpr h)]

theorem readChunks_of_filled (s : DecodeState) {filled total : Nat} (h : total ≤ filled) :
    s.readChunks filled total = .ok s := by
  rw [readChunks, if_neg (Nat.not_lt.mpr h)]

/-- As long as bytes are missing, a chunk of them is read, or all of them if they are fewer. -/
theorem readChunks_of_missing (s : DecodeState) {filled total stop : Nat} (h : filled < total)
    (hstop : stop = min total (filled + chunkSize)) :
    s.readChunks filled total =
      s.readInto filled (stop - filled) >>= fun t => t.readChunks stop total := by
  rw [readChunks, if_pos h, hstop]
  dsimp only
  cases s.readInto filled (min total (filled + chunkSize) - filled) <;> rfl

/-- A read in chunks leaves at the front of the buffer what one read of everything would. -/
theorem readChunks_of_le {s : DecodeState} {front : List UInt8} (hs : s.scratch.Holds front)
    {total : Nat} (hfront : front.length ≤ total) (h : total - front.length ≤ s.input.length) :
    ∃ reads scratch,
      s.readChunks front.length total =
        .ok { s with input := s.input.drop (total - front.length), reads, scratch } ∧
      scratch.Holds (front ++ s.input.take (total - front.length)) := by
  -- The bytes at the front grow by a chunk each time, until nothing is missing.
  induction hmissing : total - front.length using Nat.strongRecOn generalizing s front with
  | _ missing ih =>
    by_cases hlt : front.length < total
    · have hchunk : 0 < chunkSize := by decide
      obtain ⟨stop, hstop⟩ : ∃ stop, stop = min total (front.length + chunkSize) := ⟨_, rfl⟩
      have hle : stop - front.length ≤ s.input.length := by omega
      obtain ⟨reads, scratch, hread, hholds⟩ := readInto_of_le hs hle
      have hlength : (front ++ s.input.take (stop - front.length)).length = stop := by
        rw [List.length_append, List.length_take]
        omega
      obtain ⟨reads', scratch', hrest, hholds'⟩ := ih (total - stop) (by omega)
        (s := { s with input := s.input.drop (stop - front.length), reads, scratch }) hholds
        (by omega) (by simp only [List.length_drop]; omega) (by rw [hlength])
      have hsum : stop - front.length + (total - stop) = missing := by omega
      rw [hlength] at hrest
      rw [List.append_assoc, ← List.take_add, hsum] at hholds'
      rw [List.drop_drop, hsum] at hrest
      refine ⟨reads', scratch', ?_, hholds'⟩
      rw [readChunks_of_missing s hlt hstop, hread, ok_bind, hrest]
    · have hzero : missing = 0 := by omega
      rw [readChunks_of_filled s (Nat.not_lt.mp hlt), hzero, List.drop_zero, List.take_zero,
        List.append_nil]
      exact ⟨s.reads, s.scratch, rfl, hs⟩

/-- A read in chunks fails as well when the input is too short for all of them. -/
theorem readChunks_of_lt {s : DecodeState} {filled total : Nat} (hfilled : filled ≤ total)
    (h : s.input.length < total - filled) :
    ∃ reads, s.readChunks filled total = .error ⟨.endOfInput, reads⟩ := by
  induction hmissing : total - filled using Nat.strongRecOn generalizing s filled with
  | _ missing ih =>
    have hchunk : 0 < chunkSize := by decide
    have hlt : filled < total := by omega
    obtain ⟨stop, hstop⟩ : ∃ stop, stop = min total (filled + chunkSize) := ⟨_, rfl⟩
    rw [readChunks_of_missing s hlt hstop]
    by_cases hle : stop - filled ≤ s.input.length
    · rw [readInto, if_pos hle, ok_bind]
      exact ih (total - stop) (by omega) (by omega) (by simp only [List.length_drop]; omega) rfl
    · rw [readInto_of_lt (by omega), error_bind]
      exact ⟨_, rfl⟩

theorem readInto_ends (s : DecodeState) (count : Nat) :
    Ends (s.readInto 0 count) (fun t => t.counts = s.counts ∧ t.values = s.values)
      (·.error = .endOfInput) := by
  rw [readInto]
  split
  · exact ⟨rfl, rfl⟩
  · exact rfl

/-- A read in chunks touches neither counts nor values, and fails only at the end of the input. -/
theorem readChunks_ends (s : DecodeState) (total : Nat) :
    Ends (s.readChunks 0 total) (fun t => t.counts = s.counts ∧ t.values = s.values)
      (·.error = .endOfInput) := by
  by_cases hle : total ≤ s.input.length
  · obtain ⟨reads, scratch, hread, -⟩ :=
      readChunks_of_le s.scratch.holds_nil (Nat.zero_le total) hle
    rw [List.length_nil] at hread
    rw [hread]
    exact ⟨rfl, rfl⟩
  · obtain ⟨reads, hread⟩ := readChunks_of_lt (Nat.zero_le total) (Nat.not_le.mp hle)
    rw [hread]
    exact rfl

/-! ## Loads -/

theorem loadScalar_ends (s : DecodeState) (field : String) (kind : ScalarKind) (offset : Nat) :
    Ends (s.loadScalar field kind offset) (fun value => value.kind? = some kind)
      (·.error = .length field .scratchUnderrun) := by
  rw [loadScalar, Scratch.load]
  by_cases h : offset + kind.size ≤ s.scratch.size
  · rw [if_pos h]
    exact rfl
  · rw [if_neg h]
    exact rfl

@[simp] theorem setValue_setValue (s : DecodeState) (field : String) (first second : Value) :
    (s.setValue field first).setValue field second = s.setValue field second := by
  simp only [setValue, NameTable.set_set]

/-- A scalar is loaded from the bytes that are held at its place. -/
theorem loadScalar_of_holds {s : DecodeState} {data : List UInt8} (hs : s.scratch.Holds data)
    (field : String) (kind : ScalarKind) {offset : Nat} (h : offset + kind.size ≤ data.length) :
    s.loadScalar field kind offset =
      .ok (.scalar (Scalar.ofBytes kind ((data.drop offset).take kind.size))) := by
  rw [loadScalar, hs.load h]

theorem loadScalars_of_holds {s : DecodeState} {data : List UInt8} (hs : s.scratch.Holds data)
    (field : String) (kind : ScalarKind) {offset count : Nat}
    (h : offset + count * kind.size ≤ data.length) :
    ((List.range count).mapM fun i => s.loadScalar field kind (offset + i * kind.size)) =
      .ok ((scalarsAt kind count (data.drop offset)).map .scalar) := by
  rw [scalarsAt, List.map_map]
  refine mapM_eq_ok fun i hi => ?_
  have hnext : (i + 1) * kind.size ≤ count * kind.size :=
    Nat.mul_le_mul_right _ (List.mem_range.mp hi)
  rw [Nat.succ_mul] at hnext
  rw [loadScalar_of_holds hs field kind (by omega), Function.comp_apply, List.drop_drop]

/-- Loading into a collection just made replaces its elements by the scalars in the buffer. -/
theorem step_load_elements {s : DecodeState} {data : List UInt8} (hs : s.scratch.Holds data)
    (field : String) {value : Value} {elements : List Value}
    (helements : value.elements? = some elements) (type : ScalarType) {offset : Nat}
    (h : offset + elements.length * type.size ≤ data.length) :
    (s.setValue field value).step (.load (.elements field) type offset) =
      .ok (s.setValue field (value.withElements
        ((scalarsAt type.kind elements.length (data.drop offset)).map .scalar))) := by
  have hvalue : (s.setValue field value).values.get? field = some value :=
    NameTable.get?_set_self s.values field value
  have hholds : (s.setValue field value).scratch.Holds data := hs
  simp only [step, hvalue, helements, ScalarType.size, ok_bind,
    loadScalars_of_holds hholds field type.kind h]
  exact congrArg Except.ok (setValue_setValue s field value _)

/-! ## Steps that succeed -/

section Step

variable {s t : DecodeState} {field : String}

theorem get?_of_countOf {count : Nat} (h : s.countOf field = .ok count) :
    s.counts.get? field = some count := by
  rw [countOf] at h
  split at h
  · rename_i found hfound
    cases h
    exact hfound
  · cases h

theorem taken_of_readInto {offset count : Nat} (h : s.readInto offset count = .ok t) :
    ∃ data, data.length = count ∧ s.input = data ++ t.input ∧ t.counts = s.counts ∧
      t.values = s.values := by
  rw [readInto] at h
  split at h
  · rename_i hle
    cases h
    exact ⟨s.input.take count, List.length_take_of_le hle, (List.take_append_drop ..).symm, rfl, rfl⟩
  · cases h

theorem of_readInto {count : Nat} (h : s.readInto 0 count = .ok t) :
    ∃ data, data.length = count ∧ s.input = data ++ t.input ∧ t.scratch.Holds data ∧
      t.counts = s.counts := by
  by_cases hle : count ≤ s.input.length
  · obtain ⟨reads, scratch, hread, hholds⟩ := readInto_of_le s.scratch.holds_nil hle
    rw [List.length_nil, h] at hread
    cases hread
    exact ⟨s.input.take count, List.length_take_of_le hle, (List.take_append_drop ..).symm,
      hholds, rfl⟩
  · rw [readInto_of_lt (Nat.not_le.mp hle)] at h
    cases h

/-- What was read in chunks is held from the start of the scratch buffer on. -/
theorem of_readChunks {total : Nat} (h : s.readChunks 0 total = .ok t) :
    ∃ data, data.length = total ∧ s.input = data ++ t.input ∧ t.scratch.Holds data ∧
      t.counts = s.counts := by
  by_cases hle : total ≤ s.input.length
  · obtain ⟨reads, scratch, hread, hholds⟩ :=
      readChunks_of_le s.scratch.holds_nil (Nat.zero_le total) hle
    rw [List.length_nil, h] at hread
    cases hread
    exact ⟨s.input.take total, List.length_take_of_le hle, (List.take_append_drop ..).symm,
      hholds, rfl⟩
  · obtain ⟨reads, hread⟩ := readChunks_of_lt (Nat.zero_le total) (Nat.not_le.mp hle)
    rw [hread] at h
    cases h

theorem of_step_count {length : LengthExpr} (h : s.step (.count field length) = .ok t) :
    ∃ count, t = { s with counts := s.counts.set field count } := by
  rw [step] at h
  split at h
  · cases h
    exact ⟨_, rfl⟩
  · cases h

/-- A counted read has a count, and no more bytes than a word can count. -/
theorem of_step_read_counted {unit : Nat} (h : s.step (.read (.counted field unit)) = .ok t) :
    ∃ count, s.counts.get? field = some count ∧ count * unit < wordLimit ∧
      s.readChunks 0 (count * unit) = .ok t := by
  obtain ⟨count, hcount, h⟩ := bind_eq_ok.mp h
  split at h
  · rename_i hfits
    exact ⟨count, get?_of_countOf hcount, hfits, h⟩
  · cases h

theorem of_step_newSequence {elem : ScalarType} (h : s.step (.newSequence field elem) = .ok t) :
    ∃ count, s.counts.get? field = some count ∧
      t = s.setValue field (.sequence (List.replicate count (.scalar (.zero elem.kind)))) := by
  obtain ⟨count, hcount, h⟩ := bind_eq_ok.mp h
  cases h
  exact ⟨count, get?_of_countOf hcount, rfl⟩

theorem of_step_load_field {type : ScalarType} {offset : Nat}
    (h : s.step (.load (.field field) type offset) = .ok t) :
    ∃ x, t = s.setValue field (.scalar x) := by
  obtain ⟨value, hvalue, h⟩ := bind_eq_ok.mp h
  cases h
  rw [loadScalar] at hvalue
  split at hvalue
  · cases hvalue
    exact ⟨_, rfl⟩
  · cases hvalue

/-- Loading into a collection gives it as many elements as it had. -/
theorem of_step_load_elements {type : ScalarType} {offset : Nat}
    (h : s.step (.load (.elements field) type offset) = .ok t) :
    ∃ value elements loaded, s.values.get? field = some value ∧ value.elements? = some elements ∧
      loaded.length = elements.length ∧ t = s.setValue field (value.withElements loaded) := by
  rw [step] at h
  split at h
  · cases h
  · rename_i value hvalue
    split at h
    · cases h
    · rename_i elements helements
      obtain ⟨loaded, hloaded, h⟩ := bind_eq_ok.mp h
      cases h
      have hload : ∀ i ∈ List.range elements.length, _ := fun i _ =>
        s.loadScalar_ends field type.kind (offset + i * type.size)
      have hends := Ends.mapM hload
      rw [hloaded] at hends
      exact ⟨value, elements, loaded, hvalue, helements, hends.trans List.length_range, rfl⟩

end Step

/-- Only reads take from the input, and only they and the first step touch the scratch buffer. -/
theorem frame_of_step {s t : DecodeState} {step : DecodeStep} (h : s.step step = .ok t)
    (hread : step.isRead = false) (hscratch : ∀ bytes, step ≠ .scratch bytes) :
    t.input = s.input ∧ t.scratch = s.scratch := by
  cases step with
  | scratch bytes => exact absurd rfl (hscratch bytes)
  | read size => cases hread
  | count field length =>
    obtain ⟨count, rfl⟩ := of_step_count h
    exact ⟨rfl, rfl⟩
  | newArray field length elem =>
    cases h
    exact ⟨rfl, rfl⟩
  | newSequence field elem =>
    obtain ⟨count, -, rfl⟩ := of_step_newSequence h
    exact ⟨rfl, rfl⟩
  | load slot type offset =>
    cases slot with
    | field field =>
      obtain ⟨x, rfl⟩ := of_step_load_field h
      exact ⟨rfl, rfl⟩
    | elements field =>
      obtain ⟨value, elements, loaded, -, -, -, rfl⟩ := of_step_load_elements h
      exact ⟨rfl, rfl⟩

/-- Steps that neither read nor make a scratch buffer leave the bytes alone. -/
theorem frame_of_steps {s t : DecodeState} {list : List DecodeStep} (h : s.steps list = .ok t)
    (hlist : ∀ step ∈ list, step.isRead = false ∧ ∀ bytes, step ≠ .scratch bytes) :
    t.input = s.input ∧ t.scratch = s.scratch := by
  induction list generalizing s with
  | nil =>
    cases h
    exact ⟨rfl, rfl⟩
  | cons step rest ih =>
    rw [steps_cons] at h
    obtain ⟨u, hu, hrest⟩ := bind_eq_ok.mp h
    obtain ⟨hread, hscratch⟩ := hlist step (List.mem_cons_self ..)
    have hfirst := frame_of_step hu hread hscratch
    have hlater := ih hrest fun step hstep => hlist step (List.mem_cons_of_mem _ hstep)
    exact ⟨hlater.1.trans hfirst.1, hlater.2.trans hfirst.2⟩

end WireCodec.DecodeState
