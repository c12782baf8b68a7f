import WireCodec.Proofs.Encoding.Faults
import WireCodec.Proofs.Schema.Order
import WireCodec.Run.Encode

/-!
# The passes of an encoding

An encoding goes over the fields twice: it counts every sequence, and later it appends every field.
Each pass ends in the first fault that it meets, and the output is not touched before the write.
-/

namespace WireCodec

open StructType Record

/-- A step that ends in a fault leaves the output as it was. -/
def EncodeState.unlessFault (s : EncodeState) (fault : Option CodecError) (next : EncodeState) :
    Except EncodeFailure EncodeState :=
  WireCodec.unlessFault (fault.map fun error => ⟨error, s.output⟩) next

/-- A pass over items ends in the first fault of an item, or carries out the work on all of them. -/
theorem foldlM_unlessFault {α : Type} {f : EncodeState → α → Except EncodeFailure EncodeState}
    {fault : α → Option CodecError} (next : EncodeState → α → EncodeState) {items : List α}
    (houtput : ∀ s a, (next s a).output = s.output)
    (hstep : ∀ s, ∀ a ∈ items, f s a = s.unlessFault (fault a) (next s a)) (s : EncodeState) :
    items.foldlM f s = s.unlessFault (items.findSome? fault) (items.foldl next s) := by
  induction items generalizing s with
  | nil => rfl
  | cons a rest ih =>
    have hrest := ih (fun t b hb => hstep t b (List.mem_cons_of_mem _ hb)) (next s a)
    rw [List.foldlM_cons, hstep s a (List.mem_cons_self ..), List.findSome?_cons]
    cases fault a with
    | some e => rfl
    | none =>
      show rest.foldlM f (next s a) = _
      rw [hrest, EncodeState.unlessFault, houtput]
      rfl

section Step

variable {record : Record} {field : Field}

/-! ## Values -/

/-- A value has bytes of a kind unless it is at fault. -/
theorem bytesAs_eq (name : String) (kind : ScalarKind) (value : Value) :
    value.bytesAs name kind = unlessFault (kindFault? name kind value) value.scalarBytes := by
  cases value with
  | array elements => rfl
  | sequence elements => rfl
  | scalar x =>
    rw [Value.bytesAs, kindFault?, Value.kind?]
    by_cases h : x.kind = kind
    · rw [if_pos h, if_pos (congrArg some h)]
      rfl
    · rw [if_neg h, if_neg (fun e => h (Option.some.inj e))]
      rfl

theorem mapM_bytesAs (name : String) (kind : ScalarKind) (elements : List Value) :
    elements.mapM (·.bytesAs name kind) =
      unlessFault (elements.findSome? (kindFault? name kind)) (elements.map Value.scalarBytes) :=
  mapM_unlessFault (bytesAs_eq name kind) elements

theorem elementsOf_bind {α : Type} {name : String} {fault : List Value → Option CodecError}
    {k : List Value → Except CodecError α} {result : α}
    (h : ∀ value elements, record.get? name = some value → value.elements? = some elements →
      k elements = unlessFault (fault elements) result) :
    Record.elementsOf record name >>= k = unlessFault (record.collectionFault? name fault) result := by
  unfold Record.elementsOf Record.collectionFault?
  cases hvalue : record.get? name with
  | none => rfl
  | some value =>
    cases helements : value.elements? with
    | none =>
      simp only [helements]
      rfl
    | some elements =>
      simp only [helements]
      exact h value elements hvalue helements

theorem bytesOf_eq {value : Value} (hvalue : record.get? field.name = some value) :
    record.bytesOf field = value.wireBytes := by
  rw [Record.bytesOf, hvalue]

theorem wireBytes_of_elements {value : Value} {elements : List Value}
    (h : value.elements? = some elements) :
    value.wireBytes = (elements.map Value.scalarBytes).flatten := by
  cases value with
  | scalar x => cases h
  | array xs => cases h; exact List.flatMap_def ..
  | sequence xs => cases h; exact List.flatMap_def ..

/-! ## Counting -/

/-- The counts, with that of a field if it is a sequence. -/
def Record.counted (record : Record) (counts : NameTable Nat) (field : Field) : NameTable Nat :=
  match field.type with
  | .sequence _ length =>
    match length.eval (Record.count? record) with
    | .ok count => counts.set field.name count.toNat
    | .error _ => counts
  | _ => counts

theorem encodeStep_checkCount (c : Codec) {s : EncodeState} {name : String} {expected : Nat}
    (h : s.counts.get? name = some expected) :
    c.encodeStep record s (.checkCount name) =
      s.unlessFault (record.collectionFault? name (lengthFault? name expected)) s := by
  rw [Codec.encodeStep, EncodeState.countOf, h, ok_bind, Record.elementsOf, Record.collectionFault?]
  cases hvalue : record.get? name with
  | none => rfl
  | some value =>
    cases helements : value.elements? with
    | none =>
      simp only [helements]
      rfl
    | some elements =>
      simp only [helements, lengthFault?]
      by_cases hlength : elements.length = expected
      · rw [if_pos hlength, if_pos hlength]
        rfl
      · rw [if_neg hlength, if_neg hlength]
        rfl

/-- The counting steps of a field end in its count fault, or take its count. -/
theorem steps_countSteps (c : Codec) (s : EncodeState) :
    (countSteps field).foldlM (c.encodeStep record) s =
      s.unlessFault (record.countFault? field)
        { s with counts := record.counted s.counts field } := by
  unfold countSteps Record.countFault? Record.counted
  cases field.type with
  | scalar type => rfl
  | array elem length fits => rfl
  | sequence elem length =>
    rw [List.foldlM_cons, Codec.encodeStep]
    cases heval : length.eval (Record.count? record) with
    | error cause =>
      simp only [heval]
      rfl
    | ok count =>
      have hcount := NameTable.get?_set_self s.counts field.name count.toNat
      simp only [heval, ok_bind]
      rw [List.foldlM_cons, encodeStep_checkCount c hcount]
      cases record.collectionFault? field.name (lengthFault? field.name count.toNat) <;> rfl

theorem mem_names_counted {counts : NameTable Nat} {name : String} (h : name ∈ counts.names) :
    name ∈ (record.counted counts field).names := by
  unfold Record.counted
  split
  · split
    · exact NameTable.mem_names_set h ..
    · exact h
  · exact h

/-- A sequence without a fault has a count. -/
theorem mem_names_counted_self (h : record.countFault? field = none) {e : String × Nat}
    (hunit : countedUnit field = some e) (counts : NameTable Nat) :
    e.1 ∈ (record.counted counts field).names := by
  cases htype : field.type with
  | scalar type => rw [countedUnit, htype] at hunit; cases hunit
  | array elem length fits => rw [countedUnit, htype] at hunit; cases hunit
  | sequence elem length =>
    rw [countedUnit, htype] at hunit
    cases hunit
    rw [Record.countFault?, htype] at h
    rw [Record.counted, htype]
    cases heval : length.eval (Record.count? record) with
    | error cause => simp only [heval] at h; cases h
    | ok count =>
      simp only [heval]
      rw [← NameTable.isSome_get?, NameTable.get?_set_self]
      rfl

/-- Counts stay, and a pass without a fault takes that of every sequence. -/
theorem mem_names_foldl_counted {fields : List Field}
    (h : ∀ field ∈ fields, record.countFault? field = none) {counts : NameTable Nat} {name : String}
    (hname : name ∈ counts.names ∨ ∃ e ∈ fields.filterMap countedUnit, e.1 = name) :
    name ∈ (fields.foldl record.counted counts).names := by
  induction fields generalizing counts with
  | nil => simpa using hname
  | cons field rest ih =>
    refine ih (fun f hf => h f (List.mem_cons_of_mem _ hf)) ?_
    rcases hname with hname | ⟨e, he, rfl⟩
    · exact .inl (mem_names_counted hname)
    · obtain ⟨g, hg, hunit⟩ := List.mem_filterMap.mp he
      rcases List.mem_cons.mp hg with rfl | hg
      · exact .inl (mem_names_counted_self (h g (List.mem_cons_self ..)) hunit counts)
      · exact .inr ⟨e, List.mem_filterMap.mpr ⟨g, hg, hunit⟩, rfl⟩

/-- With all counts taken, reserving does not fail. -/
theorem roomFor_eq_ok {s : EncodeState} {counted : List (String × Nat)}
    (h : ∀ e ∈ counted, e.1 ∈ s.counts.names) (bytes : Nat) :
    ∃ room, s.roomFor bytes counted = .ok room := by
  induction counted generalizing bytes with
  | nil => exact ⟨bytes, rfl⟩
  | cons e rest ih =>
    have hname : (s.counts.get? e.1).isSome = true :=
      (NameTable.isSome_get? s.counts e.1).mpr (h e (List.mem_cons_self ..))
    obtain ⟨count, hcount⟩ := Option.isSome_iff_exists.mp hname
    obtain ⟨room, hroom⟩ := ih (fun e he => h e (List.mem_cons_of_mem _ he))
      (min (bytes + count * e.2) (wordLimit - 1))
    exact ⟨room, by rw [EncodeState.roomFor, EncodeState.countOf, hcount]; exact hroom⟩

/-- Room is made as soon as all the counts it asks for are there. -/
theorem encodeStep_reserve (c : Codec) (record : Record) {s : EncodeState} {counted : List (String × Nat)}
    (h : ∀ e ∈ counted, e.1 ∈ s.counts.names) (fixed : Nat) :
    ∃ reserved, c.encodeStep record s (.reserve fixed counted) =
      .ok { s with reserved, buffer := [] } := by
  obtain ⟨room, hroom⟩ := roomFor_eq_ok h fixed
  exact ⟨room, by rw [Codec.encodeStep, hroom]; rfl⟩

/-! ## Storing -/

theorem slotBytes_elements (c : Codec) (type : ScalarType) (name : String) :
    c.slotBytes record type (.elements name) = Record.elementsOf record name >>= fun elements =>
      (match c.fixedCount? name with
        | some length => unlessFault (lengthFault? name length elements) ()
        | none => .ok ()) >>= fun _ =>
      elements.mapM (·.bytesAs name type.kind) >>= fun parts => .ok parts.flatten := by
  rw [Codec.slotBytes]
  cases Record.elementsOf record name with
  | error e => rfl
  | ok elements =>
    cases c.fixedCount? name with
    | none => rfl
    | some length =>
      simp only [ok_bind, lengthFault?]
      by_cases h : elements.length = length
      · rw [if_neg (not_not_intro h), if_pos h]
        rfl
      · rw [if_pos h, if_neg h]
        rfl

/-- The slot of a field ends in the store fault of the field, or has its bytes. -/
theorem slotBytes_scalar {type : ScalarType} (htype : field.type = .scalar type) (c : Codec) :
    c.slotBytes record type (.field field.name) =
      unlessFault (record.storeFault? field) (record.bytesOf field) := by
  rw [Codec.slotBytes, Record.storeFault?, htype]
  cases hvalue : record.get? field.name with
  | none => rfl
  | some value =>
    rw [bytesOf_eq hvalue]
    simp only [bytesAs_eq]
    cases value <;> rfl

theorem slotBytes_array {c : Codec} (hfield : c.field? field.name = some field) {elem : ScalarType}
    {length : Nat} {fits : elem.size * length < wordLimit}
    (htype : field.type = .array elem length fits) :
    c.slotBytes record elem (.elements field.name) =
      unlessFault (record.storeFault? field) (record.bytesOf field) := by
  have hfixed : c.fixedCount? field.name = some length := by
    rw [Codec.fixedCount?, hfield, Option.map_some, htype]
  rw [slotBytes_elements, hfixed, Record.storeFault?, htype]
  refine elementsOf_bind fun value elements hvalue helements => ?_
  simp only [mapM_bytesAs]
  rw [bytesOf_eq hvalue, wireBytes_of_elements helements]
  cases lengthFault? field.name length elements with
  | some e => rfl
  | none => cases elements.findSome? (kindFault? field.name elem.kind) <;> rfl

theorem slotBytes_sequence {c : Codec} (hfield : c.field? field.name = some field)
    {elem : ScalarType} {length : LengthExpr} (htype : field.type = .sequence elem length) :
    c.slotBytes record elem (.elements field.name) =
      unlessFault (record.storeFault? field) (record.bytesOf field) := by
  have hfixed : c.fixedCount? field.name = none := by
    rw [Codec.fixedCount?, hfield, Option.map_some, htype]
  rw [slotBytes_elements, hfixed, Record.storeFault?, htype]
  refine elementsOf_bind fun value elements hvalue helements => ?_
  simp only [mapM_bytesAs, ok_bind]
  rw [bytesOf_eq hvalue, wireBytes_of_elements helements]
  cases elements.findSome? (kindFault? field.name elem.kind) <;> rfl

/-- The step of a field appends its bytes, unless something is wrong with its value. -/
theorem encodeStep_storeStep {c : Codec} (hfield : c.field? field.name = some field)
    (s : EncodeState) :
    c.encodeStep record s (storeStep field) =
      s.unlessFault (record.storeFault? field)
        { s with buffer := s.buffer ++ record.bytesOf field } := by
  obtain ⟨slot, hstep, hbytes⟩ : ∃ slot, storeStep field = .store slot field.type.element ∧
      c.slotBytes record field.type.element slot =
        unlessFault (record.storeFault? field) (record.bytesOf field) := by
    cases htype : field.type with
    | scalar type =>
      exact ⟨.field field.name, by rw [storeStep, htype]; rfl, slotBytes_scalar htype c⟩
    | array elem length fits =>
      exact ⟨.elements field.name, by rw [storeStep, htype]; rfl, slotBytes_array hfield htype⟩
    | sequence elem length =>
      exact ⟨.elements field.name, by rw [storeStep, htype]; rfl, slotBytes_sequence hfield htype⟩
  rw [hstep, Codec.encodeStep, hbytes]
  cases record.storeFault? field <;> rfl

end Step

/-! ## Passes -/

variable (c : Codec) (record : Record) (fields : List Field)

/-- The counting pass ends in the first count fault, or takes all counts. -/
theorem countPass (s : EncodeState) :
    (fields.flatMap countSteps).foldlM (c.encodeStep record) s =
      s.unlessFault (fields.findSome? record.countFault?)
        { s with counts := fields.foldl record.counted s.counts } := by
  have hfold : (fields.flatMap countSteps).foldlM (c.encodeStep record) s =
      fields.foldlM (fun s field => (countSteps field).foldlM (c.encodeStep record) s) s := by
    induction fields generalizing s with
    | nil => rfl
    | cons field rest ih =>
      rw [List.flatMap_cons, List.foldlM_append, List.foldlM_cons]
      exact congrArg _ (funext fun t => ih t)
  have hnext : fields.foldl (fun s field => { s with counts := record.counted s.counts field }) s =
      { s with counts := fields.foldl record.counted s.counts } := by
    clear hfold
    induction fields generalizing s with
    | nil => rfl
    | cons field rest ih => rw [List.foldl_cons, ih, List.foldl_cons]
  rw [hfold, ← hnext]
  exact foldlM_unlessFault (fun s field => { s with counts := record.counted s.counts field })
    (fun _ _ => rfl) (fun s field _ => steps_countSteps c s) s

/-- The storing pass ends in the first store fault, or appends the bytes of all fields. -/
theorem storePass (hfields : ∀ field ∈ fields, c.field? field.name = some field)
    (s : EncodeState) :
    (fields.map storeStep).foldlM (c.encodeStep record) s =
      s.unlessFault (fields.findSome? record.storeFault?)
        { s with buffer := s.buffer ++ fields.flatMap record.bytesOf } := by
  have hnext : fields.foldl (fun s field => { s with buffer := s.buffer ++ record.bytesOf field }) s =
      { s with buffer := s.buffer ++ fields.flatMap record.bytesOf } := by
    clear hfields
    induction fields generalizing s with
    | nil => simp
    | cons field rest ih => rw [List.foldl_cons, ih, List.flatMap_cons, List.append_assoc]
  rw [List.foldlM_map, ← hnext]
  exact foldlM_unlessFault (fun s field => { s with buffer := s.buffer ++ record.bytesOf field })
    (fun _ _ => rfl) (fun s field hfield => encodeStep_storeStep (hfields field hfield) s) s

end WireCodec
