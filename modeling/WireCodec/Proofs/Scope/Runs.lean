import WireCodec.Proofs.Decoding.Steps
import WireCodec.Proofs.Encoding.Steps
import WireCodec.Proofs.Scope.Rules

/-!
# Runs of scoped steps

A step that is allowed behind others finds in the state what those have left there.  So a codec that
is well scoped never misses a count or a value while it runs, whatever the input or the record is.
-/

namespace WireCodec

/-! ## Decoding -/

/-- An error of a step that uses what no step has made. -/
def CodecError.IsScopeFault : CodecError → Prop
  | missingField _ | length _ .notCounted | length _ (.evaluation (.unknownField _)) => True
  | _ => False

theorem DecodeFailure.not_scopeFault {failure : DecodeFailure} {error : CodecError}
    (h : failure.error = error) (herror : ¬ error.IsScopeFault) : ¬ failure.error.IsScopeFault := by
  rwa [h]

namespace DecodeState

open DecodeStep

/-- What steps have left in a state: their counts, and their values with the kinds these have. -/
structure Behind (steps : List DecodeStep) (s : DecodeState) : Prop where
  counts : ∀ field ∈ steps.filterMap counted?, field ∈ s.counts.names
  values : ∀ e ∈ steps.filterMap bound?, ∃ value, s.values.get? e.1 = some value ∧ value.kind? = e.2

theorem start_behind (input : List UInt8) : (start input).Behind [] := ⟨by simp, by simp⟩

section Step

variable {s t : DecodeState} {before : List DecodeStep} {step : DecodeStep} (hs : s.Behind before)
include hs

/-- A step that neither counts nor binds leaves what was there. -/
theorem Behind.of_eq (hcounts : t.counts = s.counts) (hvalues : t.values = s.values)
    (hcounted : step.counted? = none) (hbound : step.bound? = none) : t.Behind (before ++ [step]) := by
  refine ⟨?_, ?_⟩
  · rw [List.filterMap_append, List.filterMap_cons_none hcounted, List.filterMap_nil,
      List.append_nil, hcounts]
    exact hs.counts
  · rw [List.filterMap_append, List.filterMap_cons_none hbound, List.filterMap_nil,
      List.append_nil, hvalues]
    exact hs.values

/-- A new value joins those that were there. -/
theorem Behind.bind {field : String} {value : Value} {kind : Option ScalarKind}
    (hcounted : step.counted? = none) (hbound : step.bound? = some (field, kind))
    (hunbound : Unbound before field) (hkind : value.kind? = kind) :
    (s.setValue field value).Behind (before ++ [step]) := by
  refine ⟨?_, ?_⟩
  · rw [List.filterMap_append, List.filterMap_cons_none hcounted, List.filterMap_nil,
      List.append_nil]
    exact hs.counts
  · rw [List.filterMap_append, List.filterMap_cons_some hbound, List.filterMap_nil]
    intro e he
    rw [setValue]
    -- The field had no value, so the values of the others are as they were.
    rcases List.mem_append.mp he with he | he
    · have hne : e.1 ≠ field := fun h => hunbound (h ▸ List.mem_map_of_mem he)
      rw [NameTable.get?_set, if_neg hne]
      exact hs.values e he
    · rw [List.mem_singleton.mp he]
      exact ⟨value, NameTable.get?_set_self .., hkind⟩

/-- A collection that is filled stays a collection. -/
theorem Behind.refill {field : String} {old new : Value} (hold : s.values.get? field = some old)
    (hkind : new.kind? = old.kind?) (hcounted : step.counted? = none)
    (hbound : step.bound? = none) : (s.setValue field new).Behind (before ++ [step]) := by
  refine ⟨?_, ?_⟩
  · rw [List.filterMap_append, List.filterMap_cons_none hcounted, List.filterMap_nil,
      List.append_nil]
    exact hs.counts
  · rw [List.filterMap_append, List.filterMap_cons_none hbound, List.filterMap_nil,
      List.append_nil]
    intro e he
    obtain ⟨value, hvalue, hvalueKind⟩ := hs.values e he
    rw [setValue, NameTable.get?_set]
    split
    · rename_i heq
      rw [heq, hold, Option.some.injEq] at hvalue
      exact ⟨new, rfl, by rw [hkind, hvalue, hvalueKind]⟩
    · exact ⟨value, hvalue, hvalueKind⟩

/-- A count that steps in front have taken is found. -/
theorem Behind.countOf {field : String} (h : CountedOnce before field) :
    ∃ count, s.countOf field = .ok count := by
  have hmem : field ∈ before.filterMap counted? :=
    List.count_pos_iff.mp (by rw [h]; exact Nat.one_pos)
  obtain ⟨count, hcount⟩ := Option.isSome_iff_exists.mp
    ((NameTable.isSome_get? s.counts field).mpr (hs.counts field hmem))
  exact ⟨count, by rw [DecodeState.countOf, hcount]⟩

/-- An unsigned integer that steps in front have loaded is found by a length. -/
theorem Behind.count? {name : String} {type : ScalarType} {offset : Nat}
    (hload : .load (.field name) type offset ∈ before) (hunsigned : type.kind.isUnsigned = true) :
    Record.count? s.values name ≠ none := by
  have hbound : (name, some type.kind) ∈ before.filterMap bound? :=
    List.mem_filterMap.mpr ⟨_, hload, rfl⟩
  obtain ⟨value, hvalue, hkind⟩ := hs.values _ hbound
  cases value with
  | array elements => cases hkind
  | sequence elements => cases hkind
  | scalar x =>
    have hx : x.kind = type.kind := Option.some.inj hkind
    have hcount : Record.count? s.values name = x.count? := by rw [Record.count?, hvalue]; rfl
    rw [hcount, Scalar.count?, hx, if_pos hunsigned]
    exact Option.some_ne_none _

/-- A step that is allowed does what is written or fails for a reason outside of the scope. -/
theorem Behind.next (hallowed : step.AllowedBehind before) :
    Ends (s.step step) (·.Behind (before ++ [step])) fun failure => ¬ failure.error.IsScopeFault := by
  cases step with
  | scratch bytes => exact hs.of_eq rfl rfl rfl rfl
  | count field length =>
    rw [DecodeState.step]
    cases heval : length.eval (Record.count? s.values) with
    | ok count =>
      refine ⟨fun name hname => ?_, ?_⟩
      · rw [List.filterMap_append] at hname
        rcases List.mem_append.mp hname with hname | hname
        · exact NameTable.mem_names_set (hs.counts name hname) field count.toNat
        · rw [List.mem_singleton.mp hname, ← NameTable.isSome_get?, NameTable.get?_set_self]
          rfl
      · rw [List.filterMap_append]
        simpa [bound?] using hs.values
    | error cause =>
      rcases LengthExpr.eval_error heval with ⟨op, l, r, rfl⟩ | rfl | ⟨name, hname, hnone⟩
      · exact id
      · exact id
      · -- A name without a value would be one that no load in front has made.
        obtain ⟨type, offset, hload, hunsigned⟩ := hallowed name hname
        exact absurd hnone (hs.count? hload hunsigned)
  | read size =>
    cases size with
    | fixed bytes =>
      exact (s.readInto_ends bytes).mono (fun t h => hs.of_eq h.1 h.2 rfl rfl)
        fun failure h => failure.not_scopeFault h id
    | counted field unit =>
      obtain ⟨count, hcount⟩ := hs.countOf hallowed
      rw [DecodeState.step, hcount, ok_bind]
      split
      · exact (s.readChunks_ends _).mono (fun t h => hs.of_eq h.1 h.2 rfl rfl)
          fun failure h => failure.not_scopeFault h id
      · exact id
  | newArray field length elem => exact hs.bind rfl rfl hallowed rfl
  | newSequence field elem =>
    obtain ⟨count, hcount⟩ := hs.countOf hallowed.1
    rw [DecodeState.step, hcount, ok_bind]
    exact hs.bind rfl rfl hallowed.2 rfl
  | load slot type offset =>
    have hload (field : String) (offset : Nat) :
        Ends (s.loadScalar field type.kind offset) (fun value => value.kind? = some type.kind)
          fun failure => ¬ failure.error.IsScopeFault :=
      (s.loadScalar_ends field type.kind offset).mono (fun _ h => h)
        fun failure h => failure.not_scopeFault h id
    cases slot with
    | field field =>
      exact (hload field offset).bind fun value hkind => hs.bind rfl rfl hallowed hkind
    | elements field =>
      have hmem : (field, none) ∈ before.filterMap bound? :=
        List.count_pos_iff.mp (by rw [hallowed]; exact Nat.one_pos)
      obtain ⟨value, hvalue, hkind⟩ := hs.values _ hmem
      cases value with
      | scalar x => cases hkind
      | array elements | sequence elements =>
        rw [DecodeState.step, hvalue]
        exact (Ends.mapM fun i _ => hload field _).bind fun _ _ => hs.refill hvalue rfl rfl rfl

end Step

/-- Scoped steps find all they ask for, up to the end or to a fault of the data. -/
theorem Behind.steps {s : DecodeState} {before list : List DecodeStep} (hs : s.Behind before)
    (hscoped : Scoped AllowedBehind before list) :
    Ends (s.steps list) (·.Behind (before ++ list)) fun failure => ¬ failure.error.IsScopeFault := by
  induction list generalizing s before with
  | nil =>
    rw [List.append_nil]
    exact hs
  | cons step rest ih =>
    obtain ⟨hstep, hrest⟩ := hscoped
    rw [steps_cons]
    refine (hs.next hstep).bind fun t ht => ?_
    simpa using ih ht hrest

end DecodeState

/-! ## Encoding -/

/-- An error that is not about the length of a field. -/
def CodecError.NoLength (error : CodecError) : Prop :=
  ∀ field fault, error ≠ .length field fault

theorem elementsOf_ends (record : Record) (name : String) :
    Ends (Record.elementsOf record name) (fun _ => True) CodecError.NoLength := by
  unfold Record.elementsOf
  cases record.get? name with
  | none => exact fun _ _ h => CodecError.noConfusion h
  | some value =>
    cases helements : value.elements? with
    | none =>
      simp only [helements]
      exact fun _ _ h => CodecError.noConfusion h
    | some elements =>
      simp only [helements]
      exact trivial

theorem bytesAs_ends (value : Value) (name : String) (kind : ScalarKind) :
    Ends (value.bytesAs name kind) (fun _ => True) CodecError.NoLength := by
  rw [bytesAs_eq, Record.kindFault?]
  by_cases h : value.kind? = some kind
  · rw [if_pos h]
    exact trivial
  · rw [if_neg h]
    exact fun _ _ h => CodecError.noConfusion h

/-- Whatever is wrong with a value, it is not its length: lengths are settled before. -/
theorem slotBytes_ends (c : Codec) (record : Record) (type : ScalarType) (slot : Slot) :
    Ends (c.slotBytes record type slot) (fun _ => True) CodecError.NoLength := by
  cases slot with
  | field name =>
    rw [Codec.slotBytes]
    cases record.get? name with
    | none => exact fun _ _ h => CodecError.noConfusion h
    | some value => exact bytesAs_ends value name type.kind
  | elements name =>
    rw [slotBytes_elements]
    refine (elementsOf_ends record name).bind fun elements _ => ?_
    have hbytes : Ends (elements.mapM (·.bytesAs name type.kind) >>= fun parts =>
        Except.ok parts.flatten) (fun _ => True) CodecError.NoLength :=
      (Ends.mapM fun value _ => bytesAs_ends value name type.kind).bind fun _ _ => trivial
    cases c.fixedCount? name with
    | none => exact hbytes
    | some length =>
      by_cases h : elements.length = length
      · simp only [Record.lengthFault?, if_pos h]
        exact hbytes
      · simp only [Record.lengthFault?, if_neg h]
        exact fun _ _ h => CodecError.noConfusion h

namespace EncodeState

open EncodeStep

/-- The counts that steps have left in a state. -/
def Behind (steps : List EncodeStep) (s : EncodeState) : Prop :=
  ∀ field ∈ steps.filterMap counted?, field ∈ s.counts.names

section Step

variable {s t : EncodeState} {before : List EncodeStep} {step : EncodeStep} (hs : s.Behind before)
include hs

theorem Behind.of_eq (hcounts : t.counts = s.counts) (hcounted : step.counted? = none) :
    t.Behind (before ++ [step]) := by
  rw [Behind, List.filterMap_append, List.filterMap_cons_none hcounted, List.filterMap_nil,
    List.append_nil, hcounts]
  exact hs

theorem Behind.mem_names {field : String} (h : (before.filterMap counted?).count field = 1) :
    field ∈ s.counts.names :=
  hs field (List.count_pos_iff.mp (by rw [h]; exact Nat.one_pos))

theorem Behind.next (hallowed : step.AllowedBehind before) (c : Codec) (record : Record) :
    Ends (c.encodeStep record s step) (·.Behind (before ++ [step]))
      fun failure => ∀ field, failure.error ≠ .length field .notCounted := by
  cases step with
  | count field length =>
    rw [Codec.encodeStep]
    cases heval : length.eval (Record.count? record) with
    | error cause => exact fun _ h => by cases h
    | ok count =>
      intro name hname
      rw [List.filterMap_append] at hname
      rcases List.mem_append.mp hname with hname | hname
      · exact NameTable.mem_names_set (hs name hname) field count.toNat
      · rw [List.mem_singleton.mp hname, ← NameTable.isSome_get?, NameTable.get?_set_self]
        rfl
  | checkCount field =>
    obtain ⟨expected, hexpected⟩ := Option.isSome_iff_exists.mp ((NameTable.isSome_get? _ _).mpr
      (hs.mem_names (hallowed field (List.mem_singleton_self field))))
    have helements := elementsOf_ends record field
    rw [Codec.encodeStep, EncodeState.countOf, hexpected, ok_bind]
    cases hfound : Record.elementsOf record field with
    | error error =>
      rw [hfound] at helements
      exact fun name => helements name .notCounted
    | ok elements =>
      by_cases hlength : elements.length = expected
      · simp only [if_pos hlength]
        exact hs.of_eq rfl rfl
      · simp only [if_neg hlength]
        exact fun _ h => by cases h
  | reserve fixed counted =>
    have hcounted : ∀ e ∈ counted, e.1 ∈ s.counts.names := fun e he =>
      hs.mem_names (hallowed e.1 (List.mem_map_of_mem he))
    obtain ⟨reserved, hreserve⟩ := encodeStep_reserve c record hcounted fixed
    rw [hreserve]
    exact hs.of_eq rfl rfl
  | store slot type =>
    have hbytes := slotBytes_ends c record type slot
    rw [Codec.encodeStep]
    cases hslot : c.slotBytes record type slot with
    | ok bytes => exact hs.of_eq rfl rfl
    | error error =>
      rw [hslot] at hbytes
      exact fun field => hbytes field .notCounted
  | write =>
    rw [Codec.encodeStep]
    rcases s.output.write s.buffer with ⟨_ | _, written⟩
    · exact fun _ h => by cases h
    · exact hs.of_eq rfl rfl

end Step

theorem Behind.steps {s : EncodeState} {before list : List EncodeStep} (hs : s.Behind before)
    (hscoped : Scoped AllowedBehind before list) (c : Codec) (record : Record) :
    Ends (list.foldlM (c.encodeStep record) s) (·.Behind (before ++ list))
      fun failure => ∀ field, failure.error ≠ .length field .notCounted := by
  induction list generalizing s before with
  | nil =>
    rw [List.append_nil]
    exact hs
  | cons step rest ih =>
    obtain ⟨hstep, hrest⟩ := hscoped
    rw [List.foldlM_cons]
    refine (hs.next hstep c record).bind fun t ht => ?_
    simpa using ih ht hrest

end EncodeState

/-! ## Codecs -/

namespace Codec.WellScoped

variable {c : Codec} (h : c.WellScoped)
include h

/-- A decoding never fails for want of something that its own steps should have made. -/
theorem run_error {input : List UInt8} {failure : DecodeFailure}
    (hrun : c.run input = .error failure) : ¬ failure.error.IsScopeFault := by
  have hends := (DecodeState.start_behind input).steps h.decode
  rw [run] at hrun
  rcases bind_eq_error.mp hrun with hsteps | ⟨s, hsteps, hfields⟩
  · rwa [hsteps] at hends
  · rw [hsteps] at hends
    -- The steps were fine; then every field has a value, and the record can be put together.
    have hresult : ∀ field ∈ c.fields, Ends (s.result field) (fun _ => True) fun _ => False := by
      intro field hfield
      have hbound : field.binding ∈ c.decode.filterMap DecodeStep.bound? := by
        rw [h.bound]
        exact List.mem_map_of_mem hfield
      obtain ⟨value, hvalue, -⟩ := hends.values _ hbound
      have hname : field.binding.1 = field.name := by
        rw [Field.binding]
        split <;> rfl
      rw [hname] at hvalue
      rw [DecodeState.result, hvalue]
      exact trivial
    have hall := Ends.mapM hresult
    rcases bind_eq_error.mp hfields with hfields | ⟨fields, -, hfields⟩
    · rw [hfields] at hall
      exact hall.elim
    · cases hfields

/-- An encoding never fails for want of a count. -/
theorem encodeTo_error {record : Record} {output : Output} {failure : EncodeFailure}
    (hrun : c.encodeTo record output = .error failure) (field : String) :
    failure.error ≠ .length field .notCounted := by
  have hstart : EncodeState.Behind [] ⟨.empty, 0, [], output⟩ := by simp [EncodeState.Behind]
  have hends := hstart.steps h.encode c record
  rw [encodeTo] at hrun
  rcases bind_eq_error.mp hrun with hsteps | ⟨s, -, hresult⟩
  · rw [hsteps] at hends
    exact hends field
  · cases hresult

end Codec.WellScoped

end WireCodec
