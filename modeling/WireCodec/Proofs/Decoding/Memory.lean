import WireCodec.Proofs.Decoding.Points
import WireCodec.Proofs.Layout.Steps

/-!
# Memory is taken for bytes that arrive

A count that comes with the data may promise anything.  Still the scratch buffer never gets further
ahead of the data than one chunk, and there are never more scalars than bytes that were read, since
a group makes its values only when all of its bytes are there.
-/

namespace WireCodec

open StructType

/-! ## Scalars held -/

def Value.scalars : Value → Nat
  | .scalar _ => 1
  | .array elements | .sequence elements => elements.length

def scalarsIn : List (String × Value) → Nat
  | [] => 0
  | e :: rest => e.2.scalars + scalarsIn rest

def Record.scalars (record : Record) : Nat := scalarsIn record.entries

/-- Setting a value adds no more scalars than the value has. -/
theorem scalarsIn_setEntry_le (name : String) (value : Value) (entries : List (String × Value)) :
    scalarsIn (setEntry name value entries) ≤ scalarsIn entries + value.scalars := by
  induction entries with
  | nil => simp [setEntry, scalarsIn]
  | cons e rest ih =>
    rw [setEntry]
    split
    · simp only [scalarsIn]
      omega
    · simp only [scalarsIn]
      omega

theorem scalarsIn_setEntry_of_find? {name : String} {old value : Value}
    {entries : List (String × Value)}
    (h : (entries.find? (·.1 = name)).map Prod.snd = some old)
    (hvalue : value.scalars = old.scalars) :
    scalarsIn (setEntry name value entries) = scalarsIn entries := by
  induction entries with
  | nil => cases h
  | cons e rest ih =>
    rw [setEntry]
    rw [List.find?_cons] at h
    split
    · rename_i heq
      rw [decide_eq_true heq] at h
      have hold : e.2 = old := Option.some.inj h
      rw [scalarsIn, scalarsIn, hvalue, hold]
    · rename_i hne
      rw [decide_eq_false hne] at h
      rw [scalarsIn, scalarsIn, ih h]

/-- Other elements, as many as before, make a value no larger. -/
theorem Value.scalars_withElements {value : Value} {old new : List Value}
    (h : value.elements? = some old) (hlength : new.length = old.length) :
    (value.withElements new).scalars = value.scalars := by
  cases value with
  | scalar x => cases h
  | array elements => cases h; exact hlength
  | sequence elements => cases h; exact hlength

namespace DecodeState

/-- The scalars that are held and the bytes that are still to come, taken together. -/
def weight (s : DecodeState) : Nat := s.values.scalars + s.input.length

theorem weight_setValue_le (s : DecodeState) (field : String) (value : Value) :
    (s.setValue field value).weight ≤ s.weight + value.scalars := by
  have hset : Record.scalars (s.values.set field value) ≤ s.values.scalars + value.scalars :=
    scalarsIn_setEntry_le field value s.values.entries
  simp only [weight, setValue]
  omega

theorem weight_setValue_of_get? {s : DecodeState} {field : String} {old value : Value}
    (h : s.values.get? field = some old) (hvalue : value.scalars = old.scalars) :
    (s.setValue field value).weight = s.weight := by
  have hset : Record.scalars (s.values.set field value) = s.values.scalars :=
    scalarsIn_setEntry_of_find? h hvalue
  simp only [weight, setValue, hset]

/-- The scalars that a step may add to those that are held. -/
def made (s : DecodeState) : DecodeStep → Nat
  | .newArray _ length _ => length
  | .newSequence field _ => (s.counts.get? field).getD 0
  | .load (.field _) _ _ => 1
  | _ => 0

/-- Only new values add to the scalars; to load elements into a collection adds none. -/
theorem weight_step_le {s t : DecodeState} {step : DecodeStep} (h : s.step step = .ok t)
    (hread : step.isRead = false) : t.weight ≤ s.weight + s.made step := by
  cases step with
  | read size => cases hread
  | scratch bytes =>
    cases h
    exact Nat.le_refl _
  | count field length =>
    obtain ⟨count, rfl⟩ := of_step_count h
    exact Nat.le_refl _
  | newArray field length elem =>
    cases h
    have hset := s.weight_setValue_le field
      (.array (List.replicate length (.scalar (.zero elem.kind))))
    rwa [Value.scalars, List.length_replicate] at hset
  | newSequence field elem =>
    obtain ⟨count, hcount, rfl⟩ := of_step_newSequence h
    have hset := s.weight_setValue_le field
      (.sequence (List.replicate count (.scalar (.zero elem.kind))))
    rw [Value.scalars, List.length_replicate] at hset
    rwa [made, hcount, Option.getD_some]
  | load slot type offset =>
    cases slot with
    | field field =>
      obtain ⟨x, rfl⟩ := of_step_load_field h
      exact s.weight_setValue_le field (.scalar x)
    | elements field =>
      obtain ⟨value, elements, loaded, hvalue, helements, hlength, rfl⟩ := of_step_load_elements h
      exact Nat.le_of_eq
        (weight_setValue_of_get? hvalue (Value.scalars_withElements helements hlength))

/-- What reading so many bytes leaves of a state. -/
def AfterRead (s : DecodeState) (filled : Nat) (t : DecodeState) : Prop :=
  t.weight + filled = s.weight ∧ t.counts = s.counts

theorem AfterRead.readInto {s t u : DecodeState} {filled offset count : Nat}
    (h : s.AfterRead filled t) (hread : t.readInto offset count = .ok u) :
    s.AfterRead (filled + count) u := by
  obtain ⟨hweight, hcounts⟩ := h
  obtain ⟨data, hlength, hinput, hsame, hvalues⟩ := taken_of_readInto hread
  refine ⟨?_, hsame.trans hcounts⟩
  rw [weight, hinput, List.length_append] at hweight
  rw [weight, hvalues]
  omega

/-- Within a read in chunks the weight only falls, and behind it by as much as was read. -/
theorem afterRead_readChunks (s : DecodeState) (total : Nat) :
    (∀ t ∈ s.chunkPoints 0 total, t.weight ≤ s.weight) ∧
      ∀ t, s.readChunks 0 total = .ok t → s.AfterRead total t := by
  refine chunks_keep s.AfterRead (·.weight ≤ s.weight) (fun t filled count ht _ => ?_)
    (fun t u filled count ht _ hread => ?_) (Nat.zero_le total) ⟨rfl, rfl⟩
  · have hsame : (t.roomFor filled count).weight = t.weight := rfl
    have hsum := ht.1
    omega
  · have hafter := ht.readInto hread
    have hsum := hafter.1
    exact ⟨hafter, by omega⟩

end DecodeState

/-! ## Steps that make values -/

/-- Wherever the steps start, they never hold more than so many scalars beyond the bytes read. -/
def MakesAtMost (most : Nat) (steps : List DecodeStep) : Prop :=
  ∀ s : DecodeState, ∀ t ∈ s.points steps, t.weight ≤ s.weight + most

namespace MakesAtMost

open DecodeState

variable {a b : List DecodeStep} {i j : Nat}

theorem nil : MakesAtMost 0 [] := fun _ _ ht => absurd ht List.not_mem_nil

theorem append (ha : MakesAtMost i a) (hb : MakesAtMost j b) : MakesAtMost (i + j) (a ++ b) := by
  intro s t ht
  rcases mem_points_append.mp ht with ht | ⟨u, hu, ht⟩
  · have hfirst := ha s t ht
    omega
  · have hsecond := hb u t ht
    rcases mem_points_of_steps hu with rfl | hmem
    · omega
    · have hfirst := ha s u hmem
      omega

/-- A step that reads nothing adds no more scalars than it makes. -/
theorem single {step : DecodeStep} (hread : step.isRead = false) (hmade : ∀ s, made s step ≤ i) :
    MakesAtMost i [step] := by
  intro s t ht
  -- A step that does not read is over as soon as it has begun.
  rw [mem_points_single, within_of_not_isRead hread] at ht
  rcases ht with ht | ht
  · cases ht
  · have hstep := weight_step_le ht hread
    have hleast := hmade s
    omega

end MakesAtMost

/-! ## Fields and groups -/

namespace StructType

open DecodeState

theorem makesAtMost_decodeField {field : Field} {size : Nat} (hsize : field.type.size? = some size)
    (offset : Nat) : MakesAtMost size (decodeField offset field) := by
  cases htype : field.type with
  | scalar type =>
    rw [htype] at hsize
    cases hsize
    rw [decodeField_scalar htype]
    exact .single rfl fun _ => type.kind.size_pos
  | array elem length fits =>
    rw [htype] at hsize
    cases hsize
    have hle : length ≤ elem.size * length := Nat.le_mul_of_pos_left length elem.kind.size_pos
    have hnew : MakesAtMost (elem.size * length) [.newArray field.name length elem] :=
      .single rfl fun _ => hle
    rw [decodeField_array htype]
    split
    · have hload : MakesAtMost 0 [.load (.elements field.name) elem offset] :=
        .single rfl fun _ => Nat.le_refl 0
      exact hnew.append hload
    · exact hnew
  | sequence elem length =>
    rw [htype] at hsize
    cases hsize

/-- A run makes no more scalars than it has bytes. -/
theorem makesAtMost_decodeFields {run : List Field} (hrun : ∀ f ∈ run, f.type.size?.isSome)
    (offset : Nat) : MakesAtMost (runSize run) (decodeFields offset run) := by
  induction run generalizing offset with
  | nil => exact .nil
  | cons field rest ih =>
    obtain ⟨size, hsize⟩ := Option.isSome_iff_exists.mp (hrun field (List.mem_cons_self ..))
    have hrest := ih (fun f hf => hrun f (List.mem_cons_of_mem _ hf)) (offset + size)
    rw [runSize, decodeFields, hsize]
    exact (makesAtMost_decodeField hsize offset).append hrest

/-- With its read in front, a run has paid for its scalars before it makes them. -/
theorem makesAtMost_run {run : List Field} (hrun : ∀ f ∈ run, f.type.size?.isSome) :
    MakesAtMost 0 (decodeExtent (.fixed (runSize run)) ++ decodeFields 0 run) := by
  have hfields := makesAtMost_decodeFields hrun 0
  by_cases hzero : runSize run = 0
  · rw [hzero] at hfields ⊢
    exact hfields
  · -- The read takes from the input what the fields may add to the scalars.
    rw [decodeExtent_of_pos (Nat.pos_of_ne_zero hzero)]
    intro s t ht
    rcases mem_points_cons.mp ht with ht | ⟨u, hu, ht⟩
    · rw [List.mem_singleton.mp ht]
      exact Nat.le_refl _
    · have hstart : s.AfterRead 0 s := ⟨rfl, rfl⟩
      have hread : s.AfterRead (0 + runSize run) u := hstart.readInto hu
      have hsum := hread.1
      rcases ht with rfl | ht
      · omega
      · have hmade := hfields u t ht
        omega

/-- A count is only used for memory when as many units have been read. -/
theorem makesAtMost_sequence {field : Field} {elem : ScalarType} {length : LengthExpr}
    (htype : field.type = .sequence elem length) : MakesAtMost 0 (decodeField 0 field) := by
  have hcount : MakesAtMost 0 [.count field.name length] :=
    .single rfl fun _ => Nat.le_refl 0
  have hload : MakesAtMost 0 [.load (.elements field.name) elem 0] :=
    .single rfl fun _ => Nat.le_refl 0
  have hfill : MakesAtMost 0 [.read (.counted field.name elem.size),
      .newSequence field.name elem] := by
    intro s t ht
    rcases mem_points_cons.mp ht with ht | ⟨u, hu, ht⟩
    · obtain ⟨total, ht⟩ := mem_within_counted ht
      exact (s.afterRead_readChunks total).1 t ht
    · -- The read has taken as many units as the new sequence gets elements.
      obtain ⟨count, hcount, -, hread⟩ := of_step_read_counted hu
      obtain ⟨hsum, hcounts⟩ := (s.afterRead_readChunks _).2 u hread
      rcases ht with rfl | ht
      · omega
      · have hle : count ≤ count * elem.size := Nat.le_mul_of_pos_right count elem.kind.size_pos
        have hnew : t.weight ≤ u.weight + u.made (.newSequence field.name elem) := by
          rcases mem_points_single.mp ht with ht | ht
          · cases ht
          · exact weight_step_le ht rfl
        rw [made, hcounts, hcount, Option.getD_some] at hnew
        omega
  rw [decodeField_sequence htype]
  exact hcount.append (hfill.append hload)

/-- Every group has read the bytes of its scalars before it makes them. -/
theorem makesAtMost_decodeGroup {fields : List Field} {g : Group} (hcut : g.CutFrom fields) :
    MakesAtMost 0 (decodeGroup fields g) := by
  cases hcut with
  | run known extent =>
    rw [decodeGroup, extent]
    exact makesAtMost_run known
  | sequence slice type extent =>
    rw [decodeGroup_sequence slice extent]
    exact makesAtMost_sequence type

theorem makesAtMost_decodeSteps (fields : List Field) :
    MakesAtMost 0 (decodeSteps fields (Group.ofFields fields)) := by
  have hscratch (bytes : Nat) : MakesAtMost 0 [.scratch bytes] := .single rfl fun _ => Nat.le_refl 0
  exact decodeSteps_closed (fun steps _ => MakesAtMost 0 steps) .nil (fun ha hb => ha.append hb)
    hscratch fun _ hcut => makesAtMost_decodeGroup hcut

end StructType

/-! ## Room in the scratch buffer -/

/-- The room that a step makes without having read anything. -/
def DecodeStep.room : DecodeStep → Nat
  | .scratch bytes | .read (.fixed bytes) => bytes
  | _ => 0

namespace DecodeState

/-- At least so many bytes have arrived, and the scratch buffer has no more room than `most`, or than
for all that has arrived and one chunk. -/
def KeepsPace (input : List UInt8) (most filled : Nat) (s : DecodeState) : Prop :=
  ∃ taken, input = taken ++ s.input ∧ filled ≤ taken.length ∧
    s.scratch.size ≤ max most (taken.length + chunkSize)

section Pace

variable {input : List UInt8} {most filled : Nat} {s t : DecodeState}

theorem start_keepsPace (input : List UInt8) (most : Nat) :
    (start input).KeepsPace input most 0 := ⟨[], rfl, Nat.zero_le _, Nat.zero_le _⟩

theorem KeepsPace.of_eq (h : s.KeepsPace input most filled) (hinput : t.input = s.input)
    (hscratch : t.scratch = s.scratch) : t.KeepsPace input most 0 := by
  obtain ⟨taken, htaken, -, hsize⟩ := h
  exact ⟨taken, by rw [hinput, htaken], Nat.zero_le _, by rwa [hscratch]⟩

/-- Room for one chunk, or for no more than the struct announces, keeps pace. -/
theorem KeepsPace.roomFor (h : s.KeepsPace input most filled) {offset count : Nat}
    (hle : offset + count ≤ max most (filled + chunkSize)) :
    (s.roomFor offset count).KeepsPace input most 0 := by
  obtain ⟨taken, htaken, hfilled, hsize⟩ := h
  have hroom : (s.roomFor offset count).scratch.size = max s.scratch.size (offset + count) :=
    s.scratch.size_growTo (offset + count)
  exact ⟨taken, htaken, Nat.zero_le _, by omega⟩

/-- The bytes that arrive make up for the room that was made for them. -/
theorem KeepsPace.readInto (h : s.KeepsPace input most filled) {offset count : Nat}
    (hle : offset + count ≤ max most (filled + chunkSize)) (hread : s.readInto offset count = .ok t) :
    t.KeepsPace input most (filled + count) := by
  obtain ⟨taken, htaken, hfilled, hsize⟩ := h
  obtain ⟨data, hlength, hinput, -, -⟩ := taken_of_readInto hread
  have hroom := size_readInto hread
  refine ⟨taken ++ data, by rw [htaken, hinput, List.append_assoc], ?_, ?_⟩
  · rw [List.length_append]
    omega
  · rw [List.length_append]
    omega

/-- A read in chunks makes room for a chunk only when the one before has arrived. -/
theorem KeepsPace.readChunks (h : s.KeepsPace input most 0) (total : Nat) :
    (∀ t ∈ s.chunkPoints 0 total, t.KeepsPace input most 0) ∧
      ∀ t, s.readChunks 0 total = .ok t → t.KeepsPace input most total := by
  refine chunks_keep (fun filled t => t.KeepsPace input most filled) (·.KeepsPace input most 0)
    (fun t filled count ht hcount => ht.roomFor (by omega))
    (fun t u filled count ht hcount hread => ?_) (Nat.zero_le total) h
  have hnext := ht.readInto (by omega) hread
  exact ⟨hnext, hnext.of_eq rfl rfl⟩

/-- Every step keeps pace, in all its states. -/
theorem KeepsPace.step (h : s.KeepsPace input most 0) {step : DecodeStep} (hle : step.room ≤ most) :
    (∀ t ∈ s.within step, t.KeepsPace input most 0) ∧
      ∀ t, s.step step = .ok t → t.KeepsPace input most 0 := by
  cases step with
  | scratch bytes =>
    refine ⟨fun t ht => absurd ht List.not_mem_nil, fun t ht => ?_⟩
    cases ht
    -- What was in the buffer before does not count: the step starts a new one.
    obtain ⟨taken, htaken, -, -⟩ := h
    have hsize : (Scratch.zeros bytes).size = bytes := by simp [Scratch.zeros, Scratch.size]
    rw [DecodeStep.room] at hle
    exact ⟨taken, htaken, Nat.zero_le _, by rw [hsize]; omega⟩
  | read size =>
    cases size with
    | fixed bytes =>
      have hroom : 0 + bytes ≤ max most (0 + chunkSize) := by
        rw [DecodeStep.room] at hle
        omega
      refine ⟨fun t ht => ?_, fun t ht => (h.readInto hroom ht).of_eq rfl rfl⟩
      rw [List.mem_singleton.mp ht]
      exact h.roomFor hroom
    | counted field unit =>
      refine ⟨fun t ht => ?_, fun t ht => ?_⟩
      · obtain ⟨total, ht⟩ := mem_within_counted ht
        exact (h.readChunks total).1 t ht
      · obtain ⟨count, -, -, hread⟩ := of_step_read_counted ht
        exact ((h.readChunks _).2 t hread).of_eq rfl rfl
  | count | newArray | newSequence | load =>
    refine ⟨fun t ht => absurd ht List.not_mem_nil, fun t ht => ?_⟩
    obtain ⟨hinput, hscratch⟩ := frame_of_step ht rfl fun _ hstep => DecodeStep.noConfusion hstep
    exact h.of_eq hinput hscratch

theorem KeepsPace.points {steps : List DecodeStep} (hroom : ∀ step ∈ steps, step.room ≤ most)
    (h : s.KeepsPace input most 0) : ∀ t ∈ s.points steps, t.KeepsPace input most 0 := by
  induction steps generalizing s with
  | nil => exact fun t ht => absurd ht List.not_mem_nil
  | cons step rest ih =>
    intro t ht
    obtain ⟨hwithin, hnext⟩ := h.step (hroom step (List.mem_cons_self ..))
    rcases mem_points_cons.mp ht with ht | ⟨u, hu, rfl | ht⟩
    · exact hwithin t ht
    · exact hnext t hu
    · exact ih (fun step hstep => hroom step (List.mem_cons_of_mem _ hstep)) (hnext u hu) t ht

end Pace

end DecodeState

/-- No step makes more room unread than the largest group of known size. -/
theorem StructType.room_le_largestFixed {fields : List Field} {groups : List Group}
    {step : DecodeStep} (h : step ∈ decodeSteps fields groups) :
    step.room ≤ Group.largestFixed groups := by
  rcases List.mem_append.mp h with h | h
  · split at h
    · rw [List.mem_singleton.mp h]
      exact Nat.le_refl _
    · cases h
  · obtain ⟨g, hg, h⟩ := List.mem_flatMap.mp h
    rcases mem_decodeGroup h with ⟨bytes, hextent, rfl⟩ | ⟨field, -, htakes⟩
    · exact (Group.bytes_le hg hextent).1
    · have hzero : step.room = 0 := by cases htakes <;> rfl
      omega

/-! ## Decoding -/

/-- Whatever the input promises, and also when decoding it fails: at every point the scratch buffer
is no longer than the largest fixed group, or than all that was read and one chunk, and the scalars
held are no more than the bytes that were read. -/
theorem memory_le_read (s : StructType) (input : List UInt8) :
    (∀ t ∈ s.compile.points input, ∃ taken, input = taken ++ t.input ∧
      t.scratch.size ≤ max (Group.largestFixed s.compile.groups) (taken.length + chunkSize) ∧
      t.values.scalars ≤ taken.length) ∧
    ∀ decoded, s.compile.run input = .ok decoded →
      ∃ t ∈ s.compile.points input, t.input = decoded.rest ∧ t.reads = decoded.reads := by
  refine ⟨fun t ht => ?_, fun decoded hrun => Codec.mem_points_of_run hrun⟩
  have hstart := DecodeState.start_keepsPace input (Group.largestFixed s.compile.groups)
  have hroom : ∀ step ∈ s.compile.decode, step.room ≤ Group.largestFixed s.compile.groups :=
    fun step hstep => room_le_largestFixed hstep
  have hpace : t.KeepsPace input (Group.largestFixed s.compile.groups) 0 := by
    rcases List.mem_cons.mp ht with rfl | ht
    · exact hstart
    · exact hstart.points hroom t ht
  have hweight : t.weight ≤ input.length := by
    have hempty : (DecodeState.start input).weight = input.length := Nat.zero_add _
    rcases List.mem_cons.mp ht with rfl | ht
    · omega
    · have hmade := makesAtMost_decodeSteps s.fields (DecodeState.start input) t ht
      omega
  obtain ⟨taken, htaken, -, hsize⟩ := hpace
  have hlength : input.length = taken.length + t.input.length := by
    rw [← List.length_append, ← htaken]
  refine ⟨taken, htaken, hsize, ?_⟩
  rw [DecodeState.weight] at hweight
  omega

end WireCodec
