import WireCodec.Proofs.Layout.Cut

/-!
# The steps of fields and groups

The steps that take fields from a scratch buffer do nothing else, unless one of the fields is a
sequence, which is read on its own.  So a group is read once, in front of everything that it loads.
-/

namespace WireCodec

/-- A step for a field: it counts, reads, makes or loads that field, and only a sequence is read. -/
inductive DecodeStep.Takes (field : Field) : DecodeStep → Prop where
  | count (length : LengthExpr) : Takes field (.count field.name length)
  | read (unknown : field.type.size? = none) (unit : Nat) :
    Takes field (.read (.counted field.name unit))
  | newArray (length : Nat) (elem : ScalarType) : Takes field (.newArray field.name length elem)
  | newSequence (elem : ScalarType) : Takes field (.newSequence field.name elem)
  | load {slot : Slot} (name : slot.name = field.name) (type : ScalarType) (offset : Nat) :
    Takes field (.load slot type offset)

namespace StructType

/-! ## Fields -/

theorem decodeField_scalar {field : Field} {type : ScalarType} (htype : field.type = .scalar type)
    (offset : Nat) : decodeField offset field = [.load (.field field.name) type offset] := by
  rw [decodeField, htype]

theorem decodeField_array {field : Field} {elem : ScalarType} {length : Nat}
    {fits : elem.size * length < wordLimit} (htype : field.type = .array elem length fits)
    (offset : Nat) :
    decodeField offset field =
      .newArray field.name length elem ::
        if 0 < length then [.load (.elements field.name) elem offset] else [] := by
  rw [decodeField, htype]

theorem decodeField_sequence {field : Field} {elem : ScalarType} {length : LengthExpr}
    (htype : field.type = .sequence elem length) (offset : Nat) :
    decodeField offset field =
      [.count field.name length, .read (.counted field.name elem.size),
        .newSequence field.name elem, .load (.elements field.name) elem 0] := by
  rw [decodeField, htype]

/-- The second part of a run is loaded behind the bytes of the first. -/
theorem decodeFields_append (offset : Nat) (a b : List Field) :
    decodeFields offset (a ++ b) = decodeFields offset a ++ decodeFields (offset + runSize a) b := by
  induction a generalizing offset with
  | nil => rfl
  | cons field rest ih =>
    rw [List.cons_append, decodeFields, decodeFields, ih, runSize, List.append_assoc, Nat.add_assoc]

/-- Every step of a field is about that field. -/
theorem takes_of_mem_decodeField {field : Field} {offset : Nat} {step : DecodeStep}
    (h : step ∈ decodeField offset field) : step.Takes field := by
  cases htype : field.type with
  | scalar type =>
    rw [decodeField_scalar htype, List.mem_singleton] at h
    rw [h]
    exact .load rfl type offset
  | array elem length fits =>
    rw [decodeField_array htype] at h
    rcases List.mem_cons.mp h with rfl | h
    · exact .newArray length elem
    · split at h
      · rw [List.mem_singleton.mp h]
        exact .load rfl elem offset
      · cases h
  | sequence elem length =>
    rw [decodeField_sequence htype] at h
    simp only [List.mem_cons, List.not_mem_nil, or_false] at h
    rcases h with rfl | rfl | rfl | rfl
    · exact .count length
    · exact .read (by rw [htype]; rfl) elem.size
    · exact .newSequence elem
    · exact .load rfl elem 0

theorem takes_of_mem_decodeFields {fields : List Field} {offset : Nat} {step : DecodeStep}
    (h : step ∈ decodeFields offset fields) : ∃ field ∈ fields, step.Takes field := by
  induction fields generalizing offset with
  | nil => cases h
  | cons field rest ih =>
    rcases List.mem_append.mp h with h | h
    · exact ⟨field, List.mem_cons_self .., takes_of_mem_decodeField h⟩
    · obtain ⟨g, hg, htakes⟩ := ih h
      exact ⟨g, List.mem_cons_of_mem _ hg, htakes⟩

theorem not_isRead_of_known {run : List Field} (hrun : ∀ f ∈ run, f.type.size?.isSome) {offset : Nat}
    {step : DecodeStep} (h : step ∈ decodeFields offset run) : step.isRead = false := by
  obtain ⟨field, hfield, htakes⟩ := takes_of_mem_decodeFields h
  cases htakes with
  | read unknown unit =>
    have hknown := hrun field hfield
    rw [unknown] at hknown
    cases hknown
  | _ => rfl

/-! ## Groups -/

theorem decodeExtent_of_pos {bytes : Nat} (h : 0 < bytes) :
    decodeExtent (.fixed bytes) = [.read (.fixed bytes)] := by
  cases bytes with
  | zero => exact absurd h (Nat.lt_irrefl 0)
  | succ n => rfl

/-- A step of a group is the one read of its fixed bytes or a step for one of its fields. -/
theorem mem_decodeGroup {fields : List Field} {g : Group} {step : DecodeStep}
    (h : step ∈ decodeGroup fields g) :
    (∃ bytes, g.extent = .fixed bytes ∧ step = .read (.fixed bytes)) ∨
      ∃ field ∈ g.slice fields, step.Takes field := by
  rcases List.mem_append.mp h with h | h
  · match hextent : g.extent with
    | .variable =>
      rw [hextent] at h
      cases h
    | .fixed 0 =>
      rw [hextent] at h
      cases h
    | .fixed (n + 1) =>
      rw [hextent, decodeExtent_of_pos (Nat.succ_pos n)] at h
      exact .inl ⟨_, rfl, List.mem_singleton.mp h⟩
  · exact .inr (takes_of_mem_decodeFields h)

theorem decodeGroup_sequence {fields : List Field} {g : Group} {field : Field}
    (hslice : g.slice fields = [field]) (hextent : g.extent = .variable) :
    decodeGroup fields g = decodeField 0 field := by
  rw [decodeGroup, hextent, hslice, decodeExtent, List.nil_append, decodeFields, decodeFields,
    List.append_nil]

theorem scratch_not_mem_decodeGroup (bytes : Nat) (fields : List Field) (g : Group) :
    .scratch bytes ∉ decodeGroup fields g := by
  intro h
  rcases mem_decodeGroup h with ⟨n, -, h⟩ | ⟨field, -, h⟩
  · cases h
  · cases h

end StructType

open StructType

/-- Every group is read, unless it has no bytes. -/
theorem Group.CutFrom.read_mem_iff {fields : List Field} {g : Group} (hcut : g.CutFrom fields) :
    (∃ size, .read size ∈ decodeGroup fields g) ↔ g.extent ≠ .fixed 0 := by
  cases hcut with
  | run known extent =>
    rw [decodeGroup, extent]
    by_cases hzero : runSize (g.slice fields) = 0
    · rw [hzero]
      refine ⟨fun ⟨size, h⟩ => ?_, fun h => absurd rfl h⟩
      rw [decodeExtent, List.nil_append] at h
      cases not_isRead_of_known known h
    · rw [decodeExtent_of_pos (Nat.pos_of_ne_zero hzero)]
      exact ⟨fun _ h => hzero (Extent.fixed.inj h), fun _ => ⟨_, List.mem_cons_self ..⟩⟩
  | @sequence field elem length slice type extent =>
    rw [decodeGroup_sequence slice extent, decodeField_sequence type, extent]
    exact ⟨fun _ h => Extent.noConfusion h, fun _ => ⟨.counted field.name elem.size, by simp⟩⟩

/-! ## Structs -/

/-- What holds of the first step and of the steps of every group, and is kept by appending, holds of
all the steps together with all the fields. -/
theorem StructType.decodeSteps_closed (Does : List DecodeStep → List Field → Prop)
    (hnil : Does [] [])
    (happend : ∀ {a b xs ys}, Does a xs → Does b ys → Does (a ++ b) (xs ++ ys))
    (hscratch : ∀ bytes, Does [.scratch bytes] []) {fields : List Field}
    (hgroup : ∀ g : Group, g.CutFrom fields → Does (decodeGroup fields g) (g.slice fields)) :
    Does (decodeSteps fields (Group.ofFields fields)) fields := by
  have hgroups {groups : List Group} (hcut : ∀ g ∈ groups, g.CutFrom fields) :
      Does (groups.flatMap (decodeGroup fields)) (groups.flatMap (·.slice fields)) := by
    induction groups with
    | nil => exact hnil
    | cons g rest ih =>
      rw [List.flatMap_cons, List.flatMap_cons]
      have hfirst := hgroup g (hcut g (List.mem_cons_self ..))
      exact happend hfirst (ih fun g hg => hcut g (List.mem_cons_of_mem _ hg))
  have hall := hgroups fun g (hg : g ∈ Group.ofFields fields) => Group.cut_of_mem hg
  rw [Group.flatMap_slice] at hall
  rw [decodeSteps]
  split
  · exact happend (hscratch _) hall
  · exact hall

end WireCodec
