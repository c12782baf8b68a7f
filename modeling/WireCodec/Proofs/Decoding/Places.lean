import WireCodec.Proofs.Decoding.Points
import WireCodec.Proofs.Decoding.Refinement

/-!
# Which bytes are loaded

The scratch buffer is one for all groups and is never cleared.  A group still loads its own bytes
only: its steps begin with its one read, and their loads take what that read has filled, every byte
once and nothing behind it.
-/

namespace WireCodec

open StructType

/-! ## Places -/

/-- The places of so many scalars of a size, one scalar behind the other. -/
def loadPlaces (offset size count : Nat) : List Nat :=
  (List.range count).flatMap fun i => (List.range size).map fun j => offset + i * size + j

/-- Scalars one behind the other leave no gap. -/
theorem loadPlaces_eq (offset size count : Nat) :
    loadPlaces offset size count = List.range' offset (count * size) := by
  induction count with
  | zero =>
    rw [loadPlaces, List.range_zero, Nat.zero_mul]
    rfl
  | succ count ih =>
    have hlast : (List.range size).map (fun j => offset + count * size + j) =
        List.range' (offset + count * size) size :=
      List.range'_eq_map_range.symm
    rw [loadPlaces] at ih
    rw [loadPlaces, List.range_succ, List.flatMap_append, ih, List.flatMap_singleton, hlast,
      Nat.succ_mul, ← List.range'_append, Nat.one_mul]

namespace DecodeState

def elementCount (s : DecodeState) (field : String) : Nat :=
  (((s.values.get? field).bind Value.elements?).getD []).length

theorem elementCount_setValue (s : DecodeState) (field : String) {value : Value}
    {elements : List Value} (h : value.elements? = some elements) :
    (s.setValue field value).elementCount field = elements.length := by
  rw [elementCount, setValue, NameTable.get?_set_self, Option.bind_some, h, Option.getD_some]

/-- The places in the scratch buffer that a step loads, in order. -/
def places (s : DecodeState) : DecodeStep → List Nat
  | .load (.field _) type offset => loadPlaces offset type.size 1
  | .load (.elements field) type offset => loadPlaces offset type.size (s.elementCount field)
  | _ => []

/-- The places that steps load, as far as they come. -/
def placesAlong (s : DecodeState) : List DecodeStep → List Nat
  | [] => []
  | step :: rest =>
    s.places step ++
      match s.step step with
      | .ok t => t.placesAlong rest
      | .error _ => []

theorem placesAlong_single (s : DecodeState) (step : DecodeStep) :
    s.placesAlong [step] = s.places step := by
  rw [placesAlong]
  cases s.step step <;> exact List.append_nil _

theorem placesAlong_cons {s t : DecodeState} {step : DecodeStep} (h : s.step step = .ok t)
    (rest : List DecodeStep) :
    s.placesAlong (step :: rest) = s.places step ++ t.placesAlong rest := by
  rw [placesAlong, h]

theorem placesAlong_append {s t : DecodeState} {a : List DecodeStep} (h : s.steps a = .ok t)
    (b : List DecodeStep) : s.placesAlong (a ++ b) = s.placesAlong a ++ t.placesAlong b := by
  induction a generalizing s with
  | nil =>
    cases h
    rfl
  | cons step rest ih =>
    rw [steps_cons] at h
    obtain ⟨u, hu, hrest⟩ := bind_eq_ok.mp h
    rw [List.cons_append, placesAlong_cons hu, placesAlong_cons hu, ih hrest, List.append_assoc]

theorem mem_placesAlong {s t : DecodeState} {a : List DecodeStep} (h : s.steps a = .ok t)
    {step : DecodeStep} {place : Nat} (hplace : place ∈ t.places step) (b : List DecodeStep) :
    place ∈ s.placesAlong (a ++ step :: b) := by
  rw [placesAlong_append h]
  exact List.mem_append_right _ (List.mem_append_left _ hplace)

end DecodeState

/-! ## Fixed groups -/

namespace StructType

open DecodeState

/-- A field of known size loads each of its bytes once, in order. -/
theorem placesAlong_decodeField {field : Field} {size : Nat} (hsize : field.type.size? = some size)
    (s : DecodeState) (offset : Nat) :
    s.placesAlong (decodeField offset field) = List.range' offset size := by
  cases htype : field.type with
  | scalar type =>
    rw [htype] at hsize
    cases hsize
    rw [decodeField_scalar htype, placesAlong_single, places, loadPlaces_eq, Nat.one_mul]
  | array elem length fits =>
    rw [htype] at hsize
    cases hsize
    have hnew : s.places (.newArray field.name length elem) = [] := rfl
    rw [decodeField_array htype, placesAlong_cons rfl, hnew, List.nil_append]
    split
    · rw [placesAlong_single, places, elementCount_setValue s field.name rfl,
        List.length_replicate, loadPlaces_eq, Nat.mul_comm]
    · have hzero : length = 0 := by omega
      rw [hzero, Nat.mul_zero]
      rfl
  | sequence elem length =>
    rw [htype] at hsize
    cases hsize

/-- The fields of a run load one behind the other, from end to end. -/
theorem placesAlong_decodeFields {run : List Field} (hrun : ∀ f ∈ run, f.type.size?.isSome)
    {s : DecodeState} {data : List UInt8} (hs : s.scratch.Holds data) {offset : Nat}
    (h : offset + runSize run ≤ data.length) :
    s.placesAlong (decodeFields offset run) = List.range' offset (runSize run) := by
  induction run generalizing s offset with
  | nil => rfl
  | cons field rest ih =>
    obtain ⟨size, hsize⟩ := Option.isSome_iff_exists.mp (hrun field (List.mem_cons_self ..))
    rw [runSize, hsize, Option.getD_some] at h
    have hfirst : offset + size ≤ data.length := by omega
    have hlater : offset + size + runSize rest ≤ data.length := by omega
    obtain ⟨value, -, hsteps⟩ := steps_decodeField hsize hs hfirst
    have hrest := ih (fun f hf => hrun f (List.mem_cons_of_mem _ hf))
      (s := s.setValue field.name value) hs hlater
    rw [decodeFields, runSize, hsize, Option.getD_some, placesAlong_append hsteps,
      placesAlong_decodeField hsize, hrest, ← List.range'_append, Nat.one_mul]

/-- A fixed group loads every byte of its read once. -/
theorem placesAlong_run {run : List Field} (hrun : ∀ f ∈ run, f.type.size?.isSome) {s : DecodeState}
    (h : runSize run ≤ s.input.length) :
    s.placesAlong (decodeExtent (.fixed (runSize run)) ++ decodeFields 0 run) =
      List.range (runSize run) := by
  rw [List.range_eq_range']
  by_cases hzero : runSize run = 0
  · have hnil : 0 + runSize run ≤ ([] : List UInt8).length := by
      rw [hzero]
      exact Nat.le_refl 0
    have hextent : decodeExtent (.fixed (runSize run)) = [] := by rw [hzero]; rfl
    rw [hextent, List.nil_append]
    exact placesAlong_decodeFields hrun s.scratch.holds_nil hnil
  · obtain ⟨reads, scratch, hread, hholds⟩ := readInto_of_le s.scratch.holds_nil h
    have hlength : 0 + runSize run ≤ (s.input.take (runSize run)).length := by
      rw [List.length_take]
      omega
    have hstep : s.step (.read (.fixed (runSize run))) = .ok _ := hread
    have hnone : s.places (.read (.fixed (runSize run))) = [] := rfl
    rw [decodeExtent_of_pos (Nat.pos_of_ne_zero hzero), List.singleton_append,
      placesAlong_cons hstep, hnone, List.nil_append]
    exact placesAlong_decodeFields hrun hholds hlength

end StructType

/-! ## One read in front of all loads -/

/-- Steps that read once, between steps that only count and steps that load just what was read. -/
structure ReadsThenLoads (front : List DecodeStep) (size : ReadSize) (behind : List DecodeStep) :
    Prop where
  counts : ∀ step ∈ front, ∃ field length, step = .count field length
  last : ∀ step ∈ behind, step.isRead = false ∧ ∀ bytes, step ≠ .scratch bytes
  loads : ∀ u v : DecodeState, u.step (.read size) = .ok v →
    ∃ data, u.input = data ++ v.input ∧ v.scratch.Holds data ∧
      v.placesAlong behind = List.range data.length ∧
      (size = .fixed data.length ∨ data.length < wordLimit)

namespace StructType

open DecodeState

/-- A run is read at once, and then loaded. -/
theorem readsThenLoads_run {run : List Field} (hrun : ∀ f ∈ run, f.type.size?.isSome) :
    ReadsThenLoads [] (.fixed (runSize run)) (decodeFields 0 run) where
  counts := fun step hstep => absurd hstep List.not_mem_nil
  last := fun step hstep => by
    obtain ⟨field, -, htakes⟩ := takes_of_mem_decodeFields hstep
    refine ⟨not_isRead_of_known hrun hstep, fun bytes hscratch => ?_⟩
    rw [hscratch] at htakes
    cases htakes
  loads := fun u v hread => by
    obtain ⟨data, hlength, hinput, hholds, -⟩ := of_readInto hread
    refine ⟨data, hinput, hholds, ?_, .inl (by rw [hlength])⟩
    rw [hlength, List.range_eq_range']
    exact placesAlong_decodeFields hrun hholds (by omega)

/-- A sequence is counted, read, and then loaded. -/
theorem readsThenLoads_sequence (field : String) (elem : ScalarType) (length : LengthExpr) :
    ReadsThenLoads [.count field length] (.counted field elem.size)
      [.newSequence field elem, .load (.elements field) elem 0] where
  counts := fun step hstep => ⟨field, length, List.mem_singleton.mp hstep⟩
  last := fun step hstep => by
    simp only [List.mem_cons, List.not_mem_nil, or_false] at hstep
    rcases hstep with rfl | rfl <;> exact ⟨rfl, fun _ h => DecodeStep.noConfusion h⟩
  loads := fun u v hread => by
    obtain ⟨count, hcount, hfits, hchunks⟩ := of_step_read_counted hread
    obtain ⟨data, hlength, hinput, hholds, hcounts⟩ := of_readChunks hchunks
    refine ⟨data, hinput, hholds, ?_, .inr (by rwa [hlength])⟩
    have hnew : v.step (.newSequence field elem) =
        .ok (v.setValue field (.sequence (List.replicate count (.scalar (.zero elem.kind))))) := by
      rw [step, countOf, hcounts, hcount]
      rfl
    have hnone : v.places (.newSequence field elem) = [] := rfl
    rw [placesAlong_cons hnew, hnone, List.nil_append, placesAlong_single, places,
      elementCount_setValue v field rfl, List.length_replicate, loadPlaces_eq, hlength,
      List.range_eq_range']

/-- Nothing is loaded by a run that takes no bytes. -/
theorem load_not_mem_of_runSize_eq_zero {run : List Field} (hrun : ∀ f ∈ run, f.type.size?.isSome)
    (hzero : runSize run = 0) {offset : Nat} {slot : Slot} {type : ScalarType} {place : Nat} :
    .load slot type place ∉ decodeFields offset run := by
  -- Each of the fields is an array without elements, which is made and not loaded.
  induction run generalizing offset with
  | nil => exact List.not_mem_nil
  | cons field rest ih =>
    rw [runSize] at hzero
    intro h
    rcases List.mem_append.mp h with h | h
    · cases htype : field.type with
      | scalar type =>
        have hpos := type.kind.size_pos
        rw [htype, WireType.size?, Option.getD_some, ScalarType.size] at hzero
        omega
      | array elem length fits =>
        have hlength : ¬ 0 < length := by
          intro hpos
          have hmul := Nat.mul_pos elem.kind.size_pos hpos
          rw [htype, WireType.size?, Option.getD_some, ScalarType.size] at hzero
          omega
        rw [decodeField_array htype, if_neg hlength, List.mem_singleton] at h
        cases h
      | sequence elem length =>
        have hknown := hrun field (List.mem_cons_self ..)
        rw [htype] at hknown
        cases hknown
    · exact ih (fun f hf => hrun f (List.mem_cons_of_mem _ hf)) (by omega) h

/-- In a group that loads, one read stands in front of all the loads. -/
theorem readsThenLoads_decodeGroup {fields : List Field} {g : Group} (hcut : g.CutFrom fields)
    {slot : Slot} {type : ScalarType} {offset : Nat}
    (hload : .load slot type offset ∈ decodeGroup fields g) :
    ∃ front size behind, decodeGroup fields g = front ++ .read size :: behind ∧
      ReadsThenLoads front size behind := by
  cases hcut with
  | run known extent =>
    have hpos : 0 < runSize (g.slice fields) := by
      apply Nat.pos_of_ne_zero
      intro hzero
      rw [decodeGroup, extent, hzero] at hload
      exact load_not_mem_of_runSize_eq_zero known hzero hload
    rw [decodeGroup, extent, decodeExtent_of_pos hpos]
    exact ⟨[], _, _, rfl, readsThenLoads_run known⟩
  | @sequence field elem length slice type extent =>
    rw [decodeGroup_sequence slice extent, decodeField_sequence type]
    exact ⟨[.count field.name length], _, _, rfl, readsThenLoads_sequence field.name elem length⟩

end StructType

/-! ## Steps in front -/

theorem split_behind {α : Type} {a b before after : List α} {x : α}
    (h : a ++ b = before ++ x :: after) (hx : x ∉ a) :
    ∃ middle, before = a ++ middle ∧ b = middle ++ x :: after := by
  rcases List.append_eq_append_iff.mp h with ⟨middle, hbefore, hb⟩ | ⟨middle, ha, hb⟩
  · exact ⟨middle, hbefore, hb⟩
  · cases middle with
    | nil =>
      rw [List.append_nil] at ha
      exact ⟨[], by rw [ha, List.append_nil], hb.symm⟩
    | cons y middle =>
      rw [List.cons_append, List.cons.injEq] at hb
      exact absurd (ha ▸ hb.1 ▸ List.mem_append_right before (List.mem_cons_self ..)) hx

theorem split_flatMap {α β : Type} {f : α → List β} {items : List α} {before after : List β} {x : β}
    (h : items.flatMap f = before ++ x :: after) :
    ∃ earlier a front rest, a ∈ items ∧ f a = front ++ x :: rest ∧ before = earlier ++ front := by
  rw [List.flatMap_def] at h
  rcases List.flatten_eq_append_iff.mp h with
    ⟨as, bs, hitems, -, hafter⟩ | ⟨as, front, y, rest, bs, hitems, hbefore, hafter⟩
  · obtain ⟨empty, rest, later, hbs, -, -⟩ := List.flatten_eq_cons_iff.mp hafter.symm
    have hmem : x :: rest ∈ items.map f := by simp [hitems, hbs]
    obtain ⟨a, ha, hfront⟩ := List.mem_map.mp hmem
    exact ⟨before, a, [], rest, ha, hfront, (List.append_nil before).symm⟩
  · have hmem : front ++ y :: rest ∈ items.map f := by simp [hitems]
    obtain ⟨a, ha, hfront⟩ := List.mem_map.mp hmem
    rw [List.cons_append, List.cons.injEq] at hafter
    exact ⟨as.flatten, a, front, rest, ha, hafter.1 ▸ hfront, hbefore⟩

namespace Codec

/-- Decoding an input comes to a step behind others, in some state. -/
structure ComesTo (c : Codec) (input : List UInt8) (before : List DecodeStep) (step : DecodeStep)
    (s : DecodeState) : Prop where
  split : ∃ after, c.decode = before ++ step :: after
  steps : (DecodeState.start input).steps before = .ok s

/-- In the state before a step of a group, the scratch buffer starts with what the last read took
from the input, and that read is one of the same group. -/
inductive FilledFor (c : Codec) (input : List UInt8) (g : Group) :
    List DecodeStep → DecodeStep → DecodeState → List UInt8 → Prop where
  | intro {earlier front behind rest : List DecodeStep} {size : ReadSize} {step : DecodeStep}
      {s u v : DecodeState} {data : List UInt8}
    (own : StructType.decodeGroup c.fields g = front ++ .read size :: (behind ++ step :: rest))
    (last : ∀ other ∈ behind, other.isRead = false)
    (comes : (DecodeState.start input).steps (earlier ++ front) = .ok u)
    (read : u.step (.read size) = .ok v)
    (taken : u.input = data ++ v.input)
    (holds : s.scratch.Holds data) :
    FilledFor c input g (earlier ++ front ++ .read size :: behind) step s data

end Codec

namespace StructType

open DecodeState

variable {s : StructType} {input : List UInt8} {before : List DecodeStep} {t : DecodeState}

/-- A decoding is that of its groups, behind the scratch buffer if there is anything to read. -/
theorem decode_eq (s : StructType) :
    ∃ lead, s.compile.decode = lead ++ s.compile.groups.flatMap (decodeGroup s.fields) ∧
      (∀ step ∈ lead, step = .scratch (Group.largestFixed s.compile.groups)) ∧
      ((∃ g ∈ s.compile.groups, g.extent ≠ .fixed 0) →
        lead = [.scratch (Group.largestFixed s.compile.groups)]) := by
  refine ⟨_, rfl, fun step hstep => ?_, fun ⟨g, hg, hextent⟩ => ?_⟩
  · split at hstep
    · exact List.mem_singleton.mp hstep
    · cases hstep
  · exact if_pos (List.any_eq_true.mpr ⟨g, hg, decide_eq_true hextent⟩)

/-- Where a read of known size begins, the scratch buffer is long enough for it. -/
theorem le_size_of_comesTo {bytes : Nat}
    (h : s.compile.ComesTo input before (.read (.fixed bytes)) t) : bytes ≤ t.scratch.size := by
  obtain ⟨⟨after, hsplit⟩, hsteps⟩ := h
  obtain ⟨lead, hdecode, hlead, hscratch⟩ := decode_eq s
  rw [hdecode] at hsplit
  have hnot : .read (.fixed bytes) ∉ lead := fun hmem => DecodeStep.noConfusion (hlead _ hmem)
  obtain ⟨middle, rfl, hgroups⟩ := split_behind hsplit hnot
  have hmem : .read (.fixed bytes) ∈ s.compile.groups.flatMap (decodeGroup s.fields) := by
    rw [hgroups]
    exact List.mem_append_right _ (List.mem_cons_self ..)
  obtain ⟨g, hg, hread⟩ := List.mem_flatMap.mp hmem
  have hextent : g.extent = .fixed bytes := by
    rcases mem_decodeGroup hread with ⟨n, hextent, heq⟩ | ⟨field, -, htakes⟩
    · cases heq
      exact hextent
    · cases htakes
  have hcut : g.CutFrom s.fields := Group.cut_of_mem hg
  rw [hscratch ⟨g, hg, hcut.read_mem_iff.mp ⟨_, hread⟩⟩, List.singleton_append, steps_cons] at hsteps
  obtain ⟨u, hu, hrest⟩ := bind_eq_ok.mp hsteps
  -- From the first step on the buffer is not started again, so it is at least as long as then.
  have hmiddle : ∀ step ∈ middle, ∀ n, step ≠ .scratch n := by
    rintro step hstep n rfl
    have hscratch : .scratch n ∈ s.compile.groups.flatMap (decodeGroup s.fields) := by
      rw [hgroups]
      exact List.mem_append_left _ hstep
    obtain ⟨g, -, hmem⟩ := List.mem_flatMap.mp hscratch
    exact scratch_not_mem_decodeGroup n s.fields g hmem
  have hgrows := size_le_of_steps hrest hmiddle
  have hbytes := (Group.bytes_le hg hextent).1
  have hstart : u.scratch.size = Group.largestFixed s.compile.groups := by
    cases hu
    simp [Scratch.zeros, Scratch.size]
  omega

/-- Where a load begins, the last read was one for its group, and everything that it loads was
filled by that read. -/
theorem filledFor_of_comesTo (hsize : s.compile.fixedSize < wordLimit) {slot : Slot}
    {type : ScalarType} {offset : Nat}
    (h : s.compile.ComesTo input before (.load slot type offset) t) :
    ∃ g ∈ s.compile.groups, slot.name ∈ (g.slice s.fields).map Field.name ∧
      ∃ data, s.compile.FilledFor input g before (.load slot type offset) t data ∧
        data.length < wordLimit ∧
        ∀ place ∈ t.places (.load slot type offset), place < data.length := by
  obtain ⟨⟨after, hsplit⟩, hsteps⟩ := h
  obtain ⟨lead, hdecode, hlead, -⟩ := decode_eq s
  rw [hdecode] at hsplit
  have hnot : .load slot type offset ∉ lead := fun hmem => DecodeStep.noConfusion (hlead _ hmem)
  -- The load stands in the steps of one group, and there it stands behind the read.
  obtain ⟨middle, rfl, hgroups⟩ := split_behind hsplit hnot
  obtain ⟨earlier, g, inside, rest, hg, hinside, rfl⟩ := split_flatMap hgroups
  have hload : .load slot type offset ∈ decodeGroup s.fields g := by
    rw [hinside]
    exact List.mem_append_right _ (List.mem_cons_self ..)
  obtain ⟨front, size, behind, hgroup, hreads⟩ :=
    readsThenLoads_decodeGroup (Group.cut_of_mem hg) hload
  have hfront : .load slot type offset ∉ front ++ [.read size] := by
    intro hmem
    rcases List.mem_append.mp hmem with hmem | hmem
    · obtain ⟨field, length, heq⟩ := hreads.counts _ hmem
      cases heq
    · cases List.mem_singleton.mp hmem
  have hbehind : (front ++ [.read size]) ++ behind = inside ++ .load slot type offset :: rest := by
    rw [← hinside, hgroup, List.append_assoc, List.singleton_append]
  obtain ⟨between, rfl, rfl⟩ := split_behind hbehind hfront
  have hbefore : lead ++ (earlier ++ (front ++ [.read size] ++ between)) =
      lead ++ earlier ++ front ++ .read size :: between := by simp
  rw [hbefore, steps_append] at hsteps
  obtain ⟨u, hu, hsteps⟩ := bind_eq_ok.mp hsteps
  rw [steps_cons] at hsteps
  obtain ⟨v, hv, hbetween⟩ := bind_eq_ok.mp hsteps
  obtain ⟨data, htaken, hholds, hplaces, hlength⟩ := hreads.loads u v hv
  have hlast : ∀ step ∈ between, step.isRead = false ∧ ∀ bytes, step ≠ .scratch bytes :=
    fun step hstep => hreads.last step (List.mem_append_left _ hstep)
  have hsame := (frame_of_steps hbetween hlast).2
  have hname : slot.name ∈ (g.slice s.fields).map Field.name := by
    rcases mem_decodeGroup hload with ⟨bytes, -, heq⟩ | ⟨field, hfield, htakes⟩
    · cases heq
    · cases htakes with
      | load name => exact List.mem_map.mpr ⟨field, hfield, name.symm⟩
  refine ⟨g, hg, hname, data, ?_, ?_, fun place hplace => ?_⟩
  · rw [hbefore]
    exact .intro hgroup (fun step hstep => (hlast step hstep).1) hu hv htaken (hsame ▸ hholds)
  · rcases hlength with rfl | hlength
    · have hread : .read (.fixed data.length) ∈ decodeGroup s.fields g := by
        rw [hgroup]
        exact List.mem_append_right _ (List.mem_cons_self ..)
      rcases mem_decodeGroup hread with ⟨bytes, hextent, heq⟩ | ⟨field, -, htakes⟩
      · cases heq
        have hle := (Group.bytes_le hg hextent).2
        exact Nat.lt_of_le_of_lt hle hsize
      · cases htakes
    · exact hlength
  · have hmem := mem_placesAlong hbetween hplace rest
    rw [hplaces] at hmem
    exact List.mem_range.mp hmem

end StructType

/-- Decoding never loads a byte that the last read, which is one for the same group, has not filled;
the scratch buffer is long enough before every read of known size; and a fixed group loads each of
its bytes once, from offsets that stay words if the fixed groups can be counted in a word. -/
theorem loads_own_bytes {s : StructType} (hsize : s.compile.fixedSize < wordLimit)
    (input : List UInt8) :
    (∀ before bytes t, s.compile.ComesTo input before (.read (.fixed bytes)) t →
      bytes ≤ t.scratch.size) ∧
    (∀ before slot type offset t, s.compile.ComesTo input before (.load slot type offset) t →
      ∃ g ∈ s.compile.groups, slot.name ∈ (g.slice s.fields).map Field.name ∧
        ∃ data, s.compile.FilledFor input g before (.load slot type offset) t data ∧
          data.length < wordLimit ∧
          ∀ place ∈ t.places (.load slot type offset), place < data.length) ∧
    ∀ g ∈ s.compile.groups, ∀ bytes, g.extent = .fixed bytes →
      (∀ u : DecodeState, bytes ≤ u.input.length →
        u.placesAlong (decodeGroup s.fields g) = List.range bytes) ∧
      ∀ a b, g.slice s.fields = a ++ b →
        decodeFields 0 (a ++ b) = decodeFields 0 a ++ decodeFields (runSize a) b ∧
        runSize a < wordLimit := by
  refine ⟨fun before bytes t h => le_size_of_comesTo h,
    fun before slot type offset t h => filledFor_of_comesTo hsize h,
    fun g hg bytes hextent => ?_⟩
  have hcut : g.CutFrom s.fields := Group.cut_of_mem hg
  cases hcut with
  | sequence slice type extent =>
    rw [extent] at hextent
    cases hextent
  | run known extent =>
    rw [extent, Extent.fixed.injEq] at hextent
    subst hextent
    refine ⟨fun u hu => ?_, fun a b hslice => ⟨?_, ?_⟩⟩
    · rw [decodeGroup, extent]
      exact placesAlong_run known hu
    · rw [decodeFields_append, Nat.zero_add]
    · have hle := (Group.bytes_le hg extent).2
      have hsum := runSize_append a b
      have hfixed : s.compile.fixedSize = Group.fixedSize s.compile.groups := rfl
      rw [hslice] at hle
      omega

theorem loads_own_bytes_telemetry :
    telemetry.compile.fixedSize < wordLimit ∧
    (∃ before t, telemetry.compile.ComesTo telemetryBytes before
        (.load (.field "scale") ⟨none, .f32⟩ 1) t ∧
      ∃ g ∈ telemetry.compile.groups, ∃ data,
        telemetry.compile.FilledFor telemetryBytes g before
          (.load (.field "scale") ⟨none, .f32⟩ 1) t data ∧
        ∀ place ∈ [1, 2, 3, 4], place < data.length) ∧
    ∀ u : DecodeState, 2 ≤ u.input.length →
      u.placesAlong (decodeGroup telemetry.fields ⟨4, 2, .fixed 2⟩) = [0, 1] := by
  obtain ⟨-, hload, hgroup⟩ := loads_own_bytes (s := telemetry) (by decide) telemetryBytes
  have hcomes : telemetry.compile.ComesTo telemetryBytes
      [.scratch 5, .read (.fixed 5), .load (.field "count") ⟨some "Count", .u8⟩ 0]
      (.load (.field "scale") ⟨none, .f32⟩ 1) _ := ⟨⟨_, rfl⟩, rfl⟩
  obtain ⟨g, hg, -, data, hfilled, -, hplaces⟩ := hload _ _ _ _ _ hcomes
  exact ⟨by decide, ⟨_, _, hcomes, g, hg, data, hfilled, hplaces⟩,
    (hgroup ⟨4, 2, .fixed 2⟩ (by decide) 2 rfl).1⟩

end WireCodec
