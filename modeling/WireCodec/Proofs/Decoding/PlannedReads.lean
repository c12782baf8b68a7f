import Mathlib.Algebra.Ring.Nat
import WireCodec.Proofs.RoundTrip.Record

/-!
# The reads of a decoding

The groups and the counts settle how a decoding reads: a fixed group at once, unless it has no
bytes, and a sequence in chunks.  `Group.planned` lists the sizes.  A decoding makes the reads of
its groups in order, up to one that the input cannot serve or to a length that has no value.
-/

namespace WireCodec

open StructType

/-! ## Chunks -/

/-- The sizes in which so many bytes are read: whole chunks, and then the bytes that are left. -/
def chunks (total : Nat) : List Nat :=
  List.replicate (total / chunkSize) chunkSize ++
    if total % chunkSize = 0 then [] else [total % chunkSize]

/-- The first chunk is as large as a chunk may be, or all there is. -/
theorem chunks_of_pos {total : Nat} (h : 0 < total) :
    chunks total = min total chunkSize :: chunks (total - chunkSize) := by
  have hchunk : 0 < chunkSize := by decide
  unfold chunks
  by_cases hlt : total < chunkSize
  · have hnone : total - chunkSize = 0 := by omega
    rw [hnone, Nat.div_eq_of_lt hlt, Nat.mod_eq_of_lt hlt, if_neg (by omega),
      Nat.min_eq_left (by omega)]
    rfl
  · obtain ⟨rest, rfl⟩ : ∃ rest, total = rest + chunkSize := ⟨total - chunkSize, by omega⟩
    rw [Nat.add_sub_cancel, Nat.add_div_right rest hchunk, Nat.add_mod_right,
      Nat.min_eq_right (by omega), List.replicate_succ, List.cons_append]

/-- The chunks are the whole, no byte more or less. -/
theorem sum_chunks (total : Nat) : (chunks total).sum = total := by
  induction total using Nat.strongRecOn with
  | _ total ih =>
    by_cases hpos : 0 < total
    · have hchunk : 0 < chunkSize := by decide
      rw [chunks_of_pos hpos, List.sum_cons, ih (total - chunkSize) (by omega)]
      omega
    · rw [Nat.eq_zero_of_not_pos hpos]
      rfl

/-- No chunk is empty, and none is larger than a chunk may be. -/
theorem of_mem_chunks {total size : Nat} (h : size ∈ chunks total) :
    0 < size ∧ size ≤ chunkSize := by
  have hchunk : 0 < chunkSize := by decide
  rcases List.mem_append.mp h with h | h
  · rw [List.eq_of_mem_replicate h]
    omega
  · split at h
    · cases h
    · rw [List.mem_singleton.mp h]
      have hlt := Nat.mod_lt total hchunk
      omega

/-- Reads at the front of a plan.  So many bytes are enough for all of them but the last. -/
def RunsShort (plan : List Nat) (available : Nat) (reads : List Nat) : Prop :=
  ∃ front size, reads = front ++ [size] ∧ reads <+: plan ∧ front.sum ≤ available ∧
    available < front.sum + size

section RunsShort

variable {plan reads : List Nat} {available size : Nat}

/-- The first read may be the one that fails. -/
theorem RunsShort.first (h : available < size) : RunsShort (size :: plan) available [size] :=
  ⟨[], size, rfl, ⟨plan, rfl⟩, Nat.zero_le _, by simpa using h⟩

theorem RunsShort.later (hle : size ≤ available) (h : RunsShort plan (available - size) reads) :
    RunsShort (size :: plan) available (size :: reads) := by
  obtain ⟨front, last, rfl, hprefix, henough, hshort⟩ := h
  refine ⟨size :: front, last, rfl, (List.prefix_cons_inj size).mpr hprefix, ?_, ?_⟩
  · rw [List.sum_cons]
    omega
  · rw [List.sum_cons]
    omega

end RunsShort

/-- A read in chunks makes the reads of its plan, or those up to the first for which the input is
too short. -/
theorem DecodeState.readChunks_planned (s : DecodeState) {filled total : Nat}
    (hle : filled ≤ total) :
    Ends (s.readChunks filled total)
      (fun t => t.reads = s.reads ++ chunks (total - filled) ∧
        t.input = s.input.drop (total - filled))
      (fun failure => failure.error = .endOfInput ∧ ∃ reads, failure.reads = s.reads ++ reads ∧
        RunsShort (chunks (total - filled)) s.input.length reads) := by
  -- Every round reads the first chunk of what is missing, so less is missing behind it.
  induction hmissing : total - filled using Nat.strongRecOn generalizing s filled with
  | _ missing ih =>
    by_cases hlt : filled < total
    · have hchunk : 0 < chunkSize := by decide
      obtain ⟨stop, hstop⟩ : ∃ stop, stop = min total (filled + chunkSize) := ⟨_, rfl⟩
      have hsize : stop - filled = min missing chunkSize := by omega
      have hrest : total - stop = missing - chunkSize := by omega
      rw [readChunks_of_missing s hlt hstop, hsize, chunks_of_pos (by omega), readInto]
      by_cases hfits : min missing chunkSize ≤ s.input.length
      · rw [if_pos hfits, ok_bind]
        refine (ih (missing - chunkSize) (by omega) _ (by omega) hrest).mono ?_ ?_
        · rintro t ⟨hreads, hinput⟩
          have hsum : min missing chunkSize + (missing - chunkSize) = missing := by omega
          exact ⟨by rw [hreads, List.append_assoc]; rfl, by rw [hinput, List.drop_drop, hsum]⟩
        · rintro failure ⟨herror, reads, hreads, hshort⟩
          rw [List.length_drop] at hshort
          exact ⟨herror, _, by rw [hreads, List.append_assoc]; rfl, hshort.later hfits⟩
      · rw [if_neg hfits, error_bind]
        exact ⟨rfl, _, rfl, .first (Nat.not_le.mp hfits)⟩
    · have hzero : missing = 0 := by omega
      rw [readChunks_of_filled s (Nat.not_lt.mp hlt), hzero]
      exact ⟨(List.append_nil _).symm, rfl⟩

/-! ## Groups -/

/-- The sizes in which a group is read, when the fields in front have the values of a record. -/
def Group.planned (fields : List Field) (record : Record) (g : Group) : List Nat :=
  match g.extent with
  | .fixed bytes => if bytes = 0 then [] else [bytes]
  | .variable => (g.slice fields).flatMap fun field => chunks (record.sequenceBytes field)

/-- The length of a sequence has no value, or its elements take more bytes than a word can count. -/
inductive LengthExpr.Refused (length : LengthExpr) (unit : Nat) (record : Record) :
    LengthFault → Prop where
  | evaluation {cause : EvalError} (failed : length.eval (Record.count? record) = .error cause) :
    Refused length unit record (.evaluation cause)
  | overflow {count : UInt64} (counted : length.eval (Record.count? record) = .ok count)
    (large : wordLimit ≤ count.toNat * unit) : Refused length unit record .bytesOverflow

/-- How the steps of a group fail, and which of its reads they make, behind fields with the values
of a record and in front of so many bytes. -/
inductive Group.Stops (fields : List Field) (record : Record) (available : Nat) (g : Group) :
    CodecError → List Nat → Prop where
  | endOfInput {reads : List Nat} (short : RunsShort (g.planned fields record) available reads) :
    Stops fields record available g .endOfInput reads
  | length {field : Field} {elem : ScalarType} {length : LengthExpr} {fault : LengthFault}
    (slice : g.slice fields = [field]) (type : field.type = .sequence elem length)
    (refused : length.Refused elem.size record fault) :
    Stops fields record available g (.length field.name fault) []

section Groups

variable {fields : List Field} {g : Group}

/-- A run is planned as one read, or as none if it takes no bytes. -/
theorem planned_run (extent : g.extent = .fixed (runSize (g.slice fields))) (record : Record) :
    g.planned fields record =
      if runSize (g.slice fields) = 0 then [] else [runSize (g.slice fields)] := by
  rw [Group.planned, extent]

/-- A sequence is planned in chunks. -/
theorem planned_sequence {field : Field} (slice : g.slice fields = [field])
    (extent : g.extent = .variable) (record : Record) :
    g.planned fields record = chunks (record.sequenceBytes field) := by
  rw [Group.planned, extent, slice]
  exact List.flatMap_singleton ..

/-- A plan only depends on the fields in front of the group. -/
theorem planned_congr (hcut : g.CutFrom fields) {earlier : List Field}
    (horder : InOrder earlier (g.slice fields)) {r t : Record}
    (h : ∀ field ∈ earlier, r.get? field.name = t.get? field.name) :
    g.planned fields r = g.planned fields t := by
  -- A run is planned without the record, and a length only asks for fields in front of it.
  cases hcut with
  | run known extent => rw [planned_run extent, planned_run extent]
  | sequence slice type extent =>
    rw [slice] at horder
    cases horder with
    | cons fresh counted later =>
      have heval := eval_count?_congr type counted fun g hg _ => h g hg
      rw [planned_sequence slice extent, planned_sequence slice extent, Record.sequenceBytes,
        Record.sequenceBytes, type]
      simp only [heval]

theorem run_planned {run : List Field} (hrun : ∀ f ∈ run, f.type.size?.isSome) (s : DecodeState) :
    Ends (s.steps (decodeExtent (.fixed (runSize run)) ++ decodeFields 0 run))
      (fun t => t.reads = s.reads ++ if runSize run = 0 then [] else [runSize run])
      (fun failure => failure.error = .endOfInput ∧ 0 < runSize run ∧
        s.input.length < runSize run ∧ failure.reads = s.reads ++ [runSize run]) := by
  by_cases hzero : runSize run = 0
  · -- Nothing is read, and the loads do not fail, as they need no bytes.
    have hlength : 0 + runSize run ≤ ([] : List UInt8).length := by
      rw [hzero]
      exact Nat.le_refl 0
    obtain ⟨values, -, hsteps⟩ := steps_decodeFields hrun s.scratch.holds_nil hlength
    rw [if_pos hzero, hzero, decodeExtent, List.nil_append, hsteps]
    exact (List.append_nil _).symm
  · have hpos : 0 < runSize run := Nat.pos_of_ne_zero hzero
    rw [if_neg hzero, decodeExtent_of_pos hpos, List.singleton_append, DecodeState.steps_cons,
      DecodeState.step]
    by_cases hle : runSize run ≤ s.input.length
    · obtain ⟨t, hread, hreads⟩ : ∃ t, s.readInto 0 (runSize run) = .ok t ∧
          t.reads = s.reads ++ [runSize run] :=
        ⟨_, by rw [DecodeState.readInto, if_pos hle], rfl⟩
      obtain ⟨data, hlength, -, hholds, -⟩ := DecodeState.of_readInto hread
      have hall : 0 + runSize run ≤ data.length := by omega
      obtain ⟨values, -, hsteps⟩ := steps_decodeFields hrun hholds hall
      rw [hread, ok_bind, hsteps]
      exact hreads
    · have hlt := Nat.not_le.mp hle
      rw [DecodeState.readInto_of_lt hlt, error_bind]
      exact ⟨rfl, hpos, hlt, rfl⟩

/-- The steps of a sequence read the bytes of the counted elements in chunks.  A length that cannot
be used is found in front of all of them. -/
theorem sequence_planned {field : Field} {elem : ScalarType} {length : LengthExpr}
    (htype : field.type = .sequence elem length) (s : DecodeState) :
    Ends (s.steps (decodeField 0 field))
      (fun t => t.reads = s.reads ++ chunks (s.values.sequenceBytes field))
      (fun failure => (failure.error = .endOfInput ∧ ∃ reads, failure.reads = s.reads ++ reads ∧
          RunsShort (chunks (s.values.sequenceBytes field)) s.input.length reads) ∨
        ∃ fault, length.Refused elem.size s.values fault ∧
          failure.error = .length field.name fault ∧ failure.reads = s.reads) := by
  rw [decodeField_sequence htype, DecodeState.steps_cons, DecodeState.step, Record.sequenceBytes,
    htype]
  cases heval : length.eval (Record.count? s.values) with
  | error cause =>
    simp only [heval]
    exact .inr ⟨_, .evaluation heval, rfl, rfl⟩
  | ok count =>
    have hcount := NameTable.get?_set_self s.counts field.name count.toNat
    simp only [heval, ok_bind]
    rw [DecodeState.steps_cons, DecodeState.step, DecodeState.countOf, hcount]
    simp only [ok_bind]
    split
    · obtain ⟨start, hstart⟩ : ∃ start : DecodeState,
        start = { s with counts := s.counts.set field.name count.toNat } := ⟨_, rfl⟩
      rw [← hstart]
      have hplanned := start.readChunks_planned (Nat.zero_le (count.toNat * elem.size))
      rw [Nat.sub_zero, show start.reads = s.reads by rw [hstart],
        show start.input = s.input by rw [hstart]] at hplanned
      cases hread : start.readChunks 0 (count.toNat * elem.size) with
      | error failure =>
        rw [hread] at hplanned
        exact .inl hplanned
      | ok t =>
        -- The chunks have filled the buffer, so nothing that is loaded from it is missing.
        obtain ⟨data, hlength, -, hholds, hcounts⟩ := DecodeState.of_readChunks hread
        have hcounted : t.counts.get? field.name = some count.toNat := by
          rw [hcounts, hstart]
          exact hcount
        rw [hread] at hplanned
        rw [ok_bind, steps_fillSequence hholds hcounted (Nat.le_of_eq hlength.symm)]
        exact hplanned.1
    · rename_i hlarge
      exact .inr ⟨_, .overflow heval (Nat.not_lt.mp hlarge), rfl, rfl⟩

/-- A group makes the reads that are planned for it, or it stops at one of them or at its length. -/
theorem group_planned (hcut : g.CutFrom fields) (s : DecodeState) :
    Ends (s.steps (decodeGroup fields g))
      (fun t => t.reads = s.reads ++ g.planned fields s.values)
      (fun failure => ∃ reads, failure.reads = s.reads ++ reads ∧
        g.Stops fields s.values s.input.length failure.error reads) := by
  cases hcut with
  | run known extent =>
    rw [decodeGroup, extent, planned_run extent]
    refine (run_planned known s).mono (fun t ht => ht) ?_
    rintro failure ⟨herror, hpos, hlt, hreads⟩
    have hplan : g.planned fields s.values = [runSize (g.slice fields)] := by
      rw [planned_run extent, if_neg (Nat.ne_of_gt hpos)]
    rw [herror]
    exact ⟨_, hreads, .endOfInput (hplan ▸ .first hlt)⟩
  | sequence slice type extent =>
    rw [decodeGroup_sequence slice extent, planned_sequence slice extent]
    refine (sequence_planned type s).mono (fun t ht => ht) ?_
    rintro failure (⟨herror, reads, hreads, hshort⟩ | ⟨fault, hrefused, herror, hreads⟩)
    · rw [herror]
      exact ⟨reads, hreads, .endOfInput (planned_sequence slice extent _ ▸ hshort)⟩
    · rw [herror]
      exact ⟨[], by rw [hreads, List.append_nil], .length slice type hrefused⟩

/-- The steps of groups read as planned, up to the group that stops. -/
theorem groups_planned {groups : List Group} (hcut : ∀ g ∈ groups, g.CutFrom fields)
    {earlier : List Field} (horder : InOrder earlier (groups.flatMap (·.slice fields)))
    {s : DecodeState} (hs : s.values.names = earlier.map Field.name) :
    Ends (s.steps (groups.flatMap (decodeGroup fields)))
      (fun t => readFields s.values (groups.flatMap (·.slice fields)) s.input =
          .ok (t.values, t.input) ∧
        t.reads = s.reads ++ groups.flatMap (·.planned fields t.values))
      (fun failure => ∃ done g later before rest reads, groups = done ++ g :: later ∧
        readFields s.values (done.flatMap (·.slice fields)) s.input = .ok (before, rest) ∧
        failure.reads = s.reads ++ (done.flatMap (·.planned fields before) ++ reads) ∧
        g.Stops fields before rest.length failure.error reads) := by
  induction groups generalizing earlier s with
  | nil => exact ⟨rfl, (List.append_nil _).symm⟩
  | cons g groups ih =>
    rw [List.flatMap_cons] at horder
    obtain ⟨hfirst, hlater⟩ := horder.split
    have hgroup := hcut g (List.mem_cons_self ..)
    have hplanned := group_planned hgroup s
    have hreadsGroup := reads_decodeGroup hgroup s
    rw [List.flatMap_cons, DecodeState.steps_append]
    -- The first group stops the run, or the run goes on behind it with what it has read.
    cases hsteps : s.steps (decodeGroup fields g) with
    | error failure =>
      rw [hsteps] at hplanned
      obtain ⟨reads, hreads, hstops⟩ := hplanned
      exact ⟨[], g, groups, s.values, s.input, reads, rfl, rfl, hreads, hstops⟩
    | ok t =>
      rw [hsteps] at hplanned hreadsGroup
      have hread : readFields s.values (g.slice fields) s.input = .ok (t.values, t.input) :=
        hreadsGroup.symm
      have hrest := ih (fun k hk => hcut k (List.mem_cons_of_mem _ hk)) hlater
        (readFields_names hfirst hs hread)
      -- What is read later leaves the fields in front of the group alone, and so its plan.
      have hsame {done : List Group} {after : Record} {rest : List UInt8}
          (hdone : InOrder (earlier ++ g.slice fields) (done.flatMap (·.slice fields)))
          (hafter : readFields t.values (done.flatMap (·.slice fields)) t.input =
            .ok (after, rest)) :
          g.planned fields s.values = g.planned fields after := by
        have hkept := (conforms_of_readFields hfirst hs hread).1
        have hnames := readFields_names hfirst hs hread
        have hkeptLater := (conforms_of_readFields hdone hnames hafter).1
        apply planned_congr hgroup hfirst
        intro f hf
        rw [hkeptLater f (List.mem_append_left _ hf), hkept f hf]
      rw [ok_bind]
      refine hrest.mono ?_ ?_
      · rintro u ⟨hall, hreads⟩
        refine ⟨?_, ?_⟩
        · rw [List.flatMap_cons, readFields_fields_append, hread]
          exact hall
        · rw [hreads, hplanned, List.append_assoc, List.flatMap_cons, hsame hlater hall]
      · rintro failure ⟨done, k, later, before, rest, reads, rfl, hbefore, hreads, hstops⟩
        rw [List.flatMap_append] at hlater
        refine ⟨g :: done, k, later, before, rest, reads, rfl, ?_, ?_, hstops⟩
        · rw [List.flatMap_cons, readFields_fields_append, hread]
          exact hbefore
        · rw [hreads, hplanned, List.append_assoc, List.flatMap_cons, List.append_assoc,
            hsame hlater.split.1 hbefore]

end Groups

/-! ## Records -/

/-- The first step touches the scratch buffer alone; the others are those of the groups. -/
theorem steps_decode (s : StructType) (input : List UInt8) :
    ∃ start : DecodeState, start.input = input ∧ start.reads = [] ∧ start.values = .empty ∧
      (DecodeState.start input).steps s.compile.decode =
        start.steps (s.compile.groups.flatMap (decodeGroup s.fields)) := by
  show ∃ start : DecodeState, _ ∧ _ ∧ _ ∧
    (DecodeState.start input).steps (decodeSteps s.fields (Group.ofFields s.fields)) = _
  rw [decodeSteps]
  split
  · exact ⟨{ DecodeState.start input with scratch := _ }, rfl, rfl, rfl, rfl⟩
  · exact ⟨DecodeState.start input, rfl, rfl, rfl, rfl⟩

/-- A run whose steps have read all fields gives the record that they leave. -/
theorem run_of_steps {s : StructType} (horder : InOrder [] s.fields) {input : List UInt8}
    {t : DecodeState} (hread : readFields .empty s.fields input = .ok (t.values, t.input))
    (h : (DecodeState.start input).steps s.compile.decode = .ok t) :
    s.compile.run input = .ok ⟨t.values, t.input, t.reads⟩ := by
  have hresult : s.compile.fields.mapM t.result = .ok t.values.entries :=
    mapM_result t (readFields_names horder rfl hread)
  rw [Codec.run, h, ok_bind, hresult, ok_bind]
  show Except.ok (Decoded.mk (NameTable.ofList t.values.entries) t.input t.reads) = _
  rw [NameTable.ofList_entries]

/-- A decoding reads what is planned for its groups, or what is planned in front of one group and
the reads with which that one stops. -/
theorem run_ends_planned {s : StructType} (horder : InOrder [] s.fields) (input : List UInt8) :
    Ends (s.compile.run input)
      (fun decoded => readFields .empty s.fields input = .ok (decoded.record, decoded.rest) ∧
        decoded.reads = s.compile.groups.flatMap (·.planned s.fields decoded.record))
      (fun failure => ∃ done g later before rest reads, s.compile.groups = done ++ g :: later ∧
        readFields .empty (done.flatMap (·.slice s.fields)) input = .ok (before, rest) ∧
        failure.reads = done.flatMap (·.planned s.fields before) ++ reads ∧
        g.Stops s.fields before rest.length failure.error reads) := by
  have hcut : ∀ g ∈ s.compile.groups, g.CutFrom s.fields := fun g hg => Group.cut_of_mem hg
  have hslices : s.compile.groups.flatMap (·.slice s.fields) = s.fields :=
    Group.flatMap_slice s.fields
  obtain ⟨start, hinput, hreads, hvalues, hsteps⟩ := steps_decode s input
  have hplanned := groups_planned hcut (hslices ▸ horder) (s := start) (by rw [hvalues]; rfl)
  rw [hinput, hreads, hvalues, hslices] at hplanned
  cases hgroups : start.steps (s.compile.groups.flatMap (decodeGroup s.fields)) with
  | error failure =>
    rw [hgroups] at hplanned
    rw [Codec.run, hsteps, hgroups]
    exact hplanned
  | ok t =>
    rw [hgroups] at hplanned
    rw [run_of_steps horder hplanned.1 (hsteps.trans hgroups)]
    exact hplanned

/-- A decoding that succeeds has made the reads that are planned for its groups, with the counts of
the record that it found.  One that fails has made those of the groups in front of the one where it
stopped: the input ran out in a read of that group, or its length could not be used and nothing of
it was read. -/
theorem run_planned_reads {aliases : AliasTable} {decl : StructDecl} {s : StructType}
    (hbind : StructType.bind aliases decl = .ok s) (input : List UInt8) :
    (∀ decoded, s.compile.run input = .ok decoded →
      decoded.reads = s.compile.groups.flatMap (·.planned s.fields decoded.record) ∧
      ∀ field ∈ s.fields, ∀ elem length, field.type = .sequence elem length →
        ∃ count, length.eval (Record.count? decoded.record) = .ok count) ∧
    (∀ failure, s.compile.run input = .error failure →
      ∃ done g later before rest reads, s.compile.groups = done ++ g :: later ∧
        readFields .empty (done.flatMap (·.slice s.fields)) input = .ok (before, rest) ∧
        failure.reads = done.flatMap (·.planned s.fields before) ++ reads ∧
        g.Stops s.fields before rest.length failure.error reads) ∧
    (∀ total, (chunks total).sum = total ∧
      ∀ size ∈ chunks total, 0 < size ∧ size ≤ chunkSize) ∧
    ∀ (state : DecodeState) (total : Nat), Ends (state.readChunks 0 total)
      (fun t => t.reads = state.reads ++ chunks total ∧ t.input = state.input.drop total)
      (fun failure => failure.error = .endOfInput ∧ ∃ reads, failure.reads = state.reads ++ reads ∧
        RunsShort (chunks total) state.input.length reads) := by
  have horder := inOrder_of_bind hbind
  have hrun := run_ends_planned horder input
  refine ⟨fun decoded h => ?_, fun failure h => ?_,
    fun total => ⟨sum_chunks total, fun size => of_mem_chunks⟩,
    fun state total => state.readChunks_planned (Nat.zero_le total)⟩
  · rw [h] at hrun
    refine ⟨hrun.2, fun field hfield elem length htype => ?_⟩
    obtain ⟨-, hconforms, -⟩ := conforms_of_readFields horder rfl hrun.1
    obtain ⟨value, -, hadmits⟩ := hconforms field hfield
    rw [htype] at hadmits
    obtain ⟨count, heval, -⟩ := hadmits
    exact ⟨count, heval⟩
  · rw [h] at hrun
    exact hrun

-- The sequence of marks is empty, so it is not read.  Three bytes are too few for the first read.
theorem run_planned_reads_telemetry :
    (∃ decoded, telemetry.compile.run (telemetryBytes ++ [9]) = .ok decoded ∧
      decoded.reads = [5, 2, 2]) ∧
    ∃ failure, telemetry.compile.run (telemetryBytes.take 3) = .error failure ∧
      failure.error = .endOfInput ∧ failure.reads = [5] := by
  obtain ⟨hdecoded, -⟩ := run_planned_reads bind_telemetry (telemetryBytes ++ [9])
  obtain ⟨-, hfailure, -⟩ := run_planned_reads bind_telemetry (telemetryBytes.take 3)
  have hread : telemetry.readRecord (telemetryBytes ++ [9]) = .ok (telemetryRecord, [9]) := by rfl
  have hcut : telemetry.readRecord (telemetryBytes.take 3) = .error .endOfInput := by rfl
  rw [← decodeRecord_of_inOrder (inOrder_of_bind bind_telemetry)] at hread hcut
  obtain ⟨reads, hrun⟩ := decodeRecord_eq_ok.mp hread
  obtain ⟨made, hstop⟩ := decodeRecord_eq_error.mp hcut
  have hplan : telemetry.compile.groups.flatMap (·.planned telemetry.fields telemetryRecord) =
      [5, 2, 2] := by decide +kernel
  refine ⟨⟨_, hrun, (hdecoded _ hrun).1.trans hplan⟩, ⟨_, hstop, rfl, ?_⟩⟩
  obtain ⟨done, g, later, before, rest, reads, hgroups, hbefore, hmade, hstops⟩ := hfailure _ hstop
  cases done with
  | nil =>
    obtain rfl : ⟨0, 2, .fixed 5⟩ = g := (List.cons.inj hgroups).1
    cases hstops with
    | endOfInput short =>
      obtain ⟨front, size, rfl, hprefix, -⟩ := short
      have hfirst : front ++ [size] <+: [5] := hprefix
      have hlength : (front ++ [size]).length = 1 := by
        apply Nat.le_antisymm hfirst.length_le
        rw [List.length_append]
        exact Nat.le_add_left ..
      rw [hmade]
      exact hfirst.eq_of_length hlength
  | cons d done =>
    obtain rfl : ⟨0, 2, .fixed 5⟩ = d := (List.cons.inj hgroups).1
    cases hbefore

end WireCodec
