import WireCodec.Proofs.Decoding.Refinement
import WireCodec.Proofs.Encoding.Conformance
import WireCodec.Proofs.Scope.Runs

/-!
# Compiled structs stay in scope

The steps of a struct are made group by group, but what they count, bind and fill comes out in the
order of the fields.  Since a length only asks for unsigned integers in front of it, every step finds
what it asks for, and decoding and encoding fail for reasons of the data alone.
-/

namespace WireCodec

open StructType

/-! ## Decoding -/

def Field.counting? (field : Field) : Option String :=
  match field.type with
  | .sequence _ _ => some field.name
  | _ => none

theorem Field.name_of_counting? {field : Field} {name : String} (h : field.counting? = some name) :
    field.name = name := by
  unfold Field.counting? at h
  split at h
  · exact Option.some.inj h
  · cases h

theorem Field.not_mem_counting {field : Field} {earlier : List Field}
    (fresh : field.name ∉ earlier.map Field.name) :
    field.name ∉ earlier.filterMap Field.counting? := by
  intro hmem
  obtain ⟨g, hg, hcounting⟩ := List.mem_filterMap.mp hmem
  exact fresh (List.mem_map.mpr ⟨g, hg, Field.name_of_counting? hcounting⟩)

theorem Field.fst_comp_binding : Prod.fst ∘ Field.binding = Field.name := by
  funext field
  rw [Function.comp_apply, Field.binding]
  split <;> rfl

namespace DecodeStep

/-- Only a load gives a field a scalar. -/
theorem of_bound?_eq_scalar {step : DecodeStep} {name : String} {kind : ScalarKind}
    (h : step.bound? = some (name, some kind)) :
    ∃ type offset, step = load (.field name) type offset ∧ type.kind = kind := by
  cases step with
  | load slot type offset =>
    cases slot with
    | elements field => cases h
    | field field =>
      cases h
      exact ⟨type, offset, rfl, rfl⟩
  | _ => cases h

/-- Steps that count, bind and fill certain fields, in their order, and no others. -/
structure Handles (steps : List DecodeStep) (fields : List Field) : Prop where
  counted : steps.filterMap counted? = fields.filterMap Field.counting?
  bound : steps.filterMap bound? = fields.map Field.binding
  filled : steps.filterMap filled? = fields.filterMap Field.filling?

theorem Handles.nil : Handles [] [] := ⟨rfl, rfl, rfl⟩

theorem Handles.append {a b : List DecodeStep} {xs ys : List Field} (ha : Handles a xs)
    (hb : Handles b ys) : Handles (a ++ b) (xs ++ ys) where
  counted := by rw [List.filterMap_append, List.filterMap_append, ha.counted, hb.counted]
  bound := by rw [List.filterMap_append, List.map_append, ha.bound, hb.bound]
  filled := by rw [List.filterMap_append, List.filterMap_append, ha.filled, hb.filled]

/-- The steps of a field count it if it is a sequence, give it one value, and fill it if it may have
elements. -/
theorem handles_decodeField (offset : Nat) (field : Field) :
    Handles (decodeField offset field) [field] := by
  cases htype : field.type with
  | scalar type =>
    have hcounting : field.counting? = none := by rw [Field.counting?, htype]
    have hbinding : field.binding = (field.name, some type.kind) := by rw [Field.binding, htype]
    have hfilling : field.filling? = none := by rw [Field.filling?, htype]; rfl
    rw [decodeField_scalar htype]
    exact ⟨by rw [List.filterMap_cons_none hcounting]; rfl, by rw [List.map_singleton, hbinding]; rfl,
      by rw [List.filterMap_cons_none hfilling]; rfl⟩
  | array elem length fits =>
    have hcounting : field.counting? = none := by rw [Field.counting?, htype]
    have hbinding : field.binding = (field.name, none) := by rw [Field.binding, htype]
    rw [decodeField_array htype]
    by_cases hpos : 0 < length
    · have hsize : elem.size * length ≠ 0 :=
        Nat.mul_ne_zero (Nat.ne_of_gt elem.kind.size_pos) (Nat.ne_of_gt hpos)
      have hfilling : field.filling? = some field.name := by
        simp [Field.filling?, htype, WireType.isCollection, WireType.size?, hsize]
      rw [if_pos hpos]
      exact ⟨by rw [List.filterMap_cons_none hcounting]; rfl,
        by rw [List.map_singleton, hbinding]; rfl, by rw [List.filterMap_cons_some hfilling]; rfl⟩
    · have hzero : length = 0 := by omega
      have hfilling : field.filling? = none := by
        simp [Field.filling?, htype, WireType.isCollection, WireType.size?, hzero]
      rw [if_neg hpos]
      exact ⟨by rw [List.filterMap_cons_none hcounting]; rfl,
        by rw [List.map_singleton, hbinding]; rfl, by rw [List.filterMap_cons_none hfilling]; rfl⟩
  | sequence elem length =>
    have hcounting : field.counting? = some field.name := by rw [Field.counting?, htype]
    have hbinding : field.binding = (field.name, none) := by rw [Field.binding, htype]
    have hfilling : field.filling? = some field.name := by rw [Field.filling?, htype]; rfl
    rw [decodeField_sequence htype]
    exact ⟨by rw [List.filterMap_cons_some hcounting]; rfl, by rw [List.map_singleton, hbinding]; rfl,
      by rw [List.filterMap_cons_some hfilling]; rfl⟩

theorem handles_decodeFields (offset : Nat) (run : List Field) :
    Handles (decodeFields offset run) run := by
  induction run generalizing offset with
  | nil => exact .nil
  | cons field rest ih => exact (handles_decodeField offset field).append (ih _)

theorem handles_decodeExtent (extent : Extent) : Handles (decodeExtent extent) [] := by
  match extent with
  | .variable => exact .nil
  | .fixed 0 => exact .nil
  | .fixed (bytes + 1) => exact ⟨rfl, rfl, rfl⟩

theorem handles_decodeGroup (fields : List Field) (g : Group) :
    Handles (decodeGroup fields g) (g.slice fields) :=
  (handles_decodeExtent g.extent).append (handles_decodeFields 0 _)

/-- The steps of a decoding handle all the fields, in their order. -/
theorem handles_decodeSteps (fields : List Field) :
    Handles (decodeSteps fields (Group.ofFields fields)) fields :=
  decodeSteps_closed Handles .nil .append (fun _ => ⟨rfl, rfl, rfl⟩)
    fun g _ => handles_decodeGroup fields g

/-! ### Scopes -/

section Scope

variable {before : List DecodeStep} {earlier : List Field} (hbefore : Handles before earlier)
include hbefore

/-- Steps for other fields have not counted this one. -/
theorem Handles.count_counted {field : Field} (fresh : field.name ∉ earlier.map Field.name) :
    (before.filterMap counted?).count field.name = 0 := by
  rw [List.count_eq_zero, hbefore.counted]
  exact Field.not_mem_counting fresh

theorem Handles.unbound {field : Field} (fresh : field.name ∉ earlier.map Field.name) :
    Unbound before field.name := by
  rwa [Unbound, hbefore.bound, List.map_map, Field.fst_comp_binding]

/-- Every unsigned integer among the fields has been loaded. -/
theorem Handles.loaded {g : Field} (hg : g ∈ earlier) (hcounts : g.type.countsElements = true) :
    ∃ type offset, load (.field g.name) type offset ∈ before ∧ type.kind.isUnsigned = true := by
  cases htype : g.type with
  | array elem length fits => rw [htype] at hcounts; cases hcounts
  | sequence elem length => rw [htype] at hcounts; cases hcounts
  | scalar type =>
    have hbound : (g.name, some type.kind) ∈ before.filterMap bound? := by
      rw [hbefore.bound, List.mem_map]
      exact ⟨g, hg, by rw [Field.binding, htype]⟩
    obtain ⟨step, hstep, hbinding⟩ := List.mem_filterMap.mp hbound
    obtain ⟨other, offset, rfl, hkind⟩ := of_bound?_eq_scalar hbinding
    refine ⟨other, offset, hstep, ?_⟩
    rw [hkind]
    rwa [htype] at hcounts

/-- Behind the steps of the fields in front of it, a field finds all that its steps ask for. -/
theorem scoped_decodeField {field : Field} (fresh : field.name ∉ earlier.map Field.name)
    (counted : CountedIn earlier field.type) (offset : Nat) :
    Scoped AllowedBehind before (decodeField offset field) := by
  have hunbound := hbefore.unbound fresh
  have hnone : (before.filterMap bound?).count (field.name, none) = 0 :=
    List.count_eq_zero.mpr fun hmem => hunbound (List.mem_map_of_mem hmem)
  cases htype : field.type with
  | scalar type =>
    rw [decodeField_scalar htype]
    exact ⟨hunbound, trivial⟩
  | array elem length fits =>
    rw [decodeField_array htype]
    split
    · refine ⟨hunbound, ?_, trivial⟩
      rw [AllowedBehind, List.filterMap_append, List.count_append, hnone]
      simp [bound?]
    · exact ⟨hunbound, trivial⟩
  | sequence elem length =>
    have hzero := hbefore.count_counted fresh
    rw [decodeField_sequence htype]
    refine ⟨fun name hname => ?_, ?_, ⟨?_, ?_⟩, ?_, trivial⟩
    · rw [htype] at counted
      obtain ⟨g, hg, rfl, hcounts⟩ := counted name hname
      exact hbefore.loaded hg hcounts
    · simp [AllowedBehind, CountedOnce, counted?, hzero]
    · simp [CountedOnce, counted?, List.filterMap_cons, hzero]
    · simpa [Unbound, bound?] using hunbound
    · simp [AllowedBehind, bound?, List.filterMap_cons, hnone]

/-- Fields in order are taken by steps that stay in scope, wherever in a scratch buffer they are. -/
theorem scoped_decodeFields {run : List Field} (horder : InOrder earlier run) (offset : Nat) :
    Scoped AllowedBehind before (decodeFields offset run) := by
  induction horder generalizing before offset with
  | nil => exact trivial
  | cons fresh counted _ ih =>
    exact (scoped_decodeField hbefore fresh counted offset).append
      (ih (hbefore.append (handles_decodeField offset _)) _)

theorem scoped_decodeGroup {fields : List Field} {g : Group}
    (horder : InOrder earlier (g.slice fields)) :
    Scoped AllowedBehind before (decodeGroup fields g) := by
  have hextent : Scoped AllowedBehind before (decodeExtent g.extent) := by
    match g.extent with
    | .variable => exact trivial
    | .fixed 0 => exact trivial
    | .fixed (bytes + 1) => exact ⟨trivial, trivial⟩
  have hbehind : Handles (before ++ decodeExtent g.extent) earlier := by
    simpa using hbefore.append (handles_decodeExtent g.extent)
  exact hextent.append (scoped_decodeFields hbehind horder 0)

theorem scoped_groups {fields : List Field} {groups : List Group}
    (horder : InOrder earlier (groups.flatMap (·.slice fields))) :
    Scoped AllowedBehind before (groups.flatMap (decodeGroup fields)) := by
  induction groups generalizing before earlier with
  | nil => exact trivial
  | cons g rest ih =>
    rw [List.flatMap_cons] at horder ⊢
    obtain ⟨hfirst, hrest⟩ := horder.split
    have hgroup := scoped_decodeGroup hbefore hfirst
    have hbehind := hbefore.append (handles_decodeGroup fields g)
    exact hgroup.append (ih hbehind hrest)

end Scope

theorem scoped_decodeSteps {fields : List Field} (horder : InOrder [] fields) :
    Scoped AllowedBehind [] (decodeSteps fields (Group.ofFields fields)) := by
  rw [← Group.flatMap_slice fields] at horder
  rw [decodeSteps]
  split
  · have hscratch : Handles [scratch (Group.largestFixed (Group.ofFields fields))] [] :=
      ⟨rfl, rfl, rfl⟩
    exact ⟨rfl, scoped_groups hscratch horder⟩
  · exact scoped_groups .nil horder

/-- A scratch buffer is made exactly if something is read. -/
theorem scratch_iff_read (fields : List Field) :
    (∃ bytes, .scratch bytes ∈ decodeSteps fields (Group.ofFields fields)) ↔
      ∃ size, .read size ∈ decodeSteps fields (Group.ofFields fields) := by
  have hcut : ∀ g ∈ Group.ofFields fields, g.CutFrom fields := fun g hg => Group.cut_of_mem hg
  rw [decodeSteps]
  by_cases hany : (Group.ofFields fields).any (·.extent ≠ .fixed 0)
  · rw [if_pos hany]
    refine ⟨fun _ => ?_, fun _ => ⟨_, List.mem_cons_self ..⟩⟩
    obtain ⟨g, hg, hextent⟩ := List.any_eq_true.mp hany
    obtain ⟨size, hread⟩ := (hcut g hg).read_mem_iff.mpr (of_decide_eq_true hextent)
    exact ⟨size, List.mem_append_right _ (List.mem_flatMap.mpr ⟨g, hg, hread⟩)⟩
  · rw [if_neg hany, List.nil_append]
    constructor
    · rintro ⟨bytes, h⟩
      obtain ⟨g, -, hscratch⟩ := List.mem_flatMap.mp h
      exact absurd hscratch (scratch_not_mem_decodeGroup bytes fields g)
    · rintro ⟨size, h⟩
      obtain ⟨g, hg, hread⟩ := List.mem_flatMap.mp h
      have hextent := (hcut g hg).read_mem_iff.mp ⟨size, hread⟩
      exact absurd (List.any_eq_true.mpr ⟨g, hg, decide_eq_true hextent⟩) hany

end DecodeStep

/-! ## Encoding -/

namespace EncodeStep

/-- An encoding counts the sequences, each once. -/
theorem counted_countSteps (fields : List Field) :
    (fields.flatMap countSteps).filterMap counted? = fields.filterMap Field.counting? := by
  induction fields with
  | nil => rfl
  | cons field rest ih =>
    have hfield : (countSteps field).filterMap counted? = [field].filterMap Field.counting? := by
      rw [countSteps, List.filterMap_cons, Field.counting?]
      cases field.type <;> rfl
    rw [List.flatMap_cons, List.filterMap_append, ih, hfield, ← List.filterMap_append,
      List.singleton_append]

theorem units_eq_counting (fields : List Field) :
    (fields.filterMap countedUnit).map Prod.fst = fields.filterMap Field.counting? := by
  rw [List.map_filterMap]
  congr 1
  funext field
  rw [countedUnit, Field.counting?]
  cases field.type <;> rfl

theorem nodup_counting {fields : List Field} (hnames : (fields.map Field.name).Nodup) :
    (fields.filterMap Field.counting?).Nodup := by
  rw [List.Nodup, List.pairwise_map] at hnames
  refine List.pairwise_filterMap.mpr (hnames.imp fun hne name h other hother heq => hne ?_)
  rw [Field.name_of_counting? h, Field.name_of_counting? hother, heq]

/-- A sequence is checked right behind the step that counts it. -/
theorem scoped_countSteps {earlier fields : List Field} (horder : InOrder earlier fields)
    {before : List EncodeStep}
    (hbefore : before.filterMap counted? = earlier.filterMap Field.counting?) :
    Scoped AllowedBehind before (fields.flatMap countSteps) := by
  induction horder generalizing before with
  | nil => exact trivial
  | @cons earlier rest field fresh counted later ih =>
    -- The field is new, so its own step is the first to count it.
    have hfield : Scoped AllowedBehind before (countSteps field) := by
      rw [countSteps]
      cases htype : field.type with
      | scalar type => exact trivial
      | array elem length fits => exact trivial
      | sequence elem length =>
        have hzero : (before.filterMap counted?).count field.name = 0 := by
          rw [List.count_eq_zero, hbefore]
          exact Field.not_mem_counting fresh
        refine ⟨fun name hname => absurd hname List.not_mem_nil, fun name hname => ?_, trivial⟩
        rw [List.mem_singleton.mp hname]
        simp [counted?, hzero]
    have hnext : (before ++ countSteps field).filterMap counted? =
        (earlier ++ [field]).filterMap Field.counting? := by
      have hone := counted_countSteps [field]
      rw [List.flatMap_singleton] at hone
      rw [List.filterMap_append, List.filterMap_append, hbefore, hone]
    rw [List.flatMap_cons]
    exact hfield.append (ih hnext)

/-- Steps that use no count may stand anywhere. -/
theorem scoped_of_countsUsed {before steps : List EncodeStep}
    (h : ∀ step ∈ steps, step.countsUsed = []) : Scoped AllowedBehind before steps := by
  induction steps generalizing before with
  | nil => exact trivial
  | cons step rest ih =>
    refine ⟨fun field hfield => ?_, ih fun s hs => h s (List.mem_cons_of_mem _ hs)⟩
    rw [h step (List.mem_cons_self ..)] at hfield
    cases hfield

/-- Every count that an encoding uses has been taken once in front of its use. -/
theorem scoped_encodeSteps {fields : List Field} (horder : InOrder [] fields) (groups : List Group) :
    Scoped AllowedBehind [] (encodeSteps fields groups) := by
  have hcounts : Scoped AllowedBehind [] (fields.flatMap countSteps) := scoped_countSteps horder rfl
  have hreserve : Scoped AllowedBehind ([] ++ fields.flatMap countSteps)
      [.reserve (Group.fixedSize groups) (fields.filterMap countedUnit)] := by
    refine ⟨fun name hname => ?_, trivial⟩
    rw [countsUsed, units_eq_counting] at hname
    rw [List.nil_append, counted_countSteps]
    have hnodup : (fields.filterMap Field.counting?).Nodup :=
      nodup_counting (horder.nodup_names List.nodup_nil)
    have hmost := List.nodup_iff_count.mp hnodup name
    have hleast := List.count_pos_iff.mpr hname
    omega
  rw [encodeSteps, List.append_assoc]
  refine (hcounts.append hreserve).append (scoped_of_countsUsed fun step hstep => ?_)
  rcases List.mem_append.mp hstep with hstep | hstep
  · obtain ⟨field, -, rfl⟩ := List.mem_map.mp hstep
    rfl
  · rw [List.mem_singleton.mp hstep]
    rfl

/-- An encoding writes once, at its end. -/
theorem write_last (fields : List Field) (groups : List Group) :
    ∃ front, encodeSteps fields groups = front ++ [.write] ∧ .write ∉ front := by
  refine ⟨_, rfl, fun h => ?_⟩
  rw [List.mem_append, List.mem_append] at h
  rcases h with (h | h) | h
  · obtain ⟨field, -, hwrite⟩ := List.mem_flatMap.mp h
    rw [countSteps] at hwrite
    split at hwrite <;> simp at hwrite
  · cases List.mem_singleton.mp h
  · obtain ⟨field, -, hwrite⟩ := List.mem_map.mp h
    cases hwrite

end EncodeStep

/-! ## Structs -/

/-- Fields in order make a codec that is well scoped. -/
theorem wellScoped_of_inOrder {s : StructType} (horder : InOrder [] s.fields) :
    s.compile.WellScoped where
  decode := DecodeStep.scoped_decodeSteps horder
  scratch := DecodeStep.scratch_iff_read s.fields
  bound := (DecodeStep.handles_decodeSteps s.fields).bound
  filled := (DecodeStep.handles_decodeSteps s.fields).filled
  distinct := horder.nodup_names List.nodup_nil
  encode := EncodeStep.scoped_encodeSteps horder _
  write := EncodeStep.write_last s.fields _

/-- Every struct is compiled to steps that use what steps in front of them have made.  So decoding
fails at an end of the input or at a length that has no value or no size, and encoding knows every
count that it asks for. -/
theorem compile_wellScoped {aliases : AliasTable} {decl : StructDecl} {s : StructType}
    (hbind : StructType.bind aliases decl = .ok s) :
    s.compile.WellScoped ∧
    (∀ input failure, s.compile.run input = .error failure →
      failure.error = .endOfInput ∨
      ∃ field ∈ s.fields, (∃ elem length, field.type = .sequence elem length) ∧
        ∃ fault, failure.error = .length field.name fault ∧
          (fault = .bytesOverflow ∨ fault = .evaluation .divisionByZero ∨
            ∃ op left right, fault = .evaluation (.overflow op left right))) ∧
    ∀ record output failure field, s.compile.encodeTo record output = .error failure →
      failure.error ≠ .length field .notCounted := by
  have horder := inOrder_of_bind hbind
  have hscoped := wellScoped_of_inOrder horder
  refine ⟨hscoped, fun input failure hrun => ?_,
    fun record output failure field hrun => hscoped.encodeTo_error hrun field⟩
  have hnot := hscoped.run_error hrun
  have hread : s.readRecord input = .error failure.error := by
    rw [← decodeRecord_of_inOrder horder, decodeRecord_eq_error]
    exact ⟨failure.reads, hrun⟩
  have hsequence {name : String} {fault : LengthFault} (herror : failure.error = .length name fault) :
      ∃ field ∈ s.fields, field.name = name ∧ ∃ elem length, field.type = .sequence elem length := by
    rw [herror] at hread
    exact readFields_error_length hread
  rcases readFields_error hread with herror | ⟨field, -, herror | ⟨cause, herror⟩⟩
  · exact .inl herror
  · obtain ⟨g, hg, hname, htype⟩ := hsequence herror
    exact .inr ⟨g, hg, htype, _, hname ▸ herror, .inl rfl⟩
  · obtain ⟨g, hg, hname, htype⟩ := hsequence herror
    refine .inr ⟨g, hg, htype, _, hname ▸ herror, .inr ?_⟩
    rw [herror] at hnot
    cases cause with
    | unknownField name => exact absurd trivial hnot
    | overflow op left right => exact .inr ⟨op, left, right, rfl⟩
    | divisionByZero => exact .inl rfl

theorem compile_wellScoped_telemetry :
    telemetry.compile.WellScoped ∧
    (∃ failure, telemetry.compile.run (0 :: telemetryBytes) = .error failure ∧
      failure.error = .length "samples" (.evaluation (.overflow .sub 0 1)) ∧
      ∃ field ∈ telemetry.fields, field.name = "samples" ∧
        ∃ elem length, field.type = .sequence elem length) ∧
    ∃ failure, telemetry.compile.encodeTo (.ofList [("count", .array [])]) (.start none) =
      .error failure ∧ failure.error ≠ .length "samples" .notCounted := by
  obtain ⟨hscoped, hdecode, hencode⟩ := compile_wellScoped bind_telemetry
  have hcount := hencode (.ofList [("count", .array [])]) (.start none) _ "samples" rfl
  refine ⟨hscoped, ⟨_, rfl, rfl, ?_⟩, ⟨_, rfl, hcount⟩⟩
  rcases hdecode (0 :: telemetryBytes) _ rfl with h | ⟨field, hfield, htype, fault, h, -⟩
  · cases h
  · exact ⟨field, hfield, (CodecError.length.inj h).1.symm, htype⟩

end WireCodec
