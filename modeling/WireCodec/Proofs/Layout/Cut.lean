import Mathlib.Algebra.Order.BigOperators.Group.List
import Mathlib.Algebra.Order.Group.Nat
import WireCodec.Proofs.Decoding.FieldReader
import WireCodec.Procedure.Codec

/-!
# What the groups of a struct are

A group is a run of fields of known size, together with the number of bytes that they take, or it is
one sequence.  The groups of a struct lie one behind the other and leave no field out.
-/

namespace WireCodec

open StructType

namespace Group

/-- What a group is to the fields from which it was cut. -/
inductive CutFrom (fields : List Field) (g : Group) : Prop where
  | run (known : ∀ f ∈ g.slice fields, f.type.size?.isSome)
    (extent : g.extent = .fixed (runSize (g.slice fields)))
  | sequence {field : Field} {elem : ScalarType} {length : LengthExpr}
    (slice : g.slice fields = [field]) (type : field.type = .sequence elem length)
    (extent : g.extent = .variable)

/-- A group that was cut behind `front` has the fields of the run. -/
theorem slice_run (front run rest : List Field) (extent : Extent) :
    Group.slice ⟨front.length, run.length, extent⟩ (front ++ run ++ rest) = run := by
  rw [slice, List.append_assoc, List.drop_left, List.take_left]

theorem cut_closeRun {run : List Field} (hrun : ∀ f ∈ run, f.type.size?.isSome)
    (front rest : List Field) :
    (∀ g ∈ closeRun front.length (front.length + run.length) (runSize run),
      g.CutFrom (front ++ run ++ rest)) ∧
    (closeRun front.length (front.length + run.length) (runSize run)).flatMap
      (·.slice (front ++ run ++ rest)) = run := by
  cases run with
  | nil => simp [closeRun]
  | cons field fields =>
    have hpos : front.length < front.length + (field :: fields).length := by simp
    have hslice := slice_run front (field :: fields) rest (.fixed (runSize (field :: fields)))
    rw [closeRun, if_pos hpos, Nat.add_sub_cancel_left]
    refine ⟨fun g hg => ?_, ?_⟩
    · rw [List.mem_singleton.mp hg]
      exact .run (by rwa [hslice]) (by rw [hslice])
    · rw [List.flatMap_singleton, hslice]

/-- The groups cut from the fields behind an open run: what each of them is, and that together they
are the run and those fields. -/
theorem cut_ofFieldsFrom {run : List Field} (hrun : ∀ f ∈ run, f.type.size?.isSome)
    (front rest : List Field) :
    (∀ g ∈ ofFieldsFrom front.length (front.length + run.length) (runSize run) rest,
      g.CutFrom (front ++ run ++ rest)) ∧
    (ofFieldsFrom front.length (front.length + run.length) (runSize run) rest).flatMap
      (·.slice (front ++ run ++ rest)) = run ++ rest := by
  induction rest generalizing front run with
  | nil =>
    rw [ofFieldsFrom, List.append_nil run]
    exact cut_closeRun hrun front []
  | cons field rest ih =>
    rw [ofFieldsFrom]
    cases hsize : field.type.size? with
    | some size =>
      -- A field of known size makes the open run longer.
      have hlonger : ∀ f ∈ run ++ [field], f.type.size?.isSome := by
        intro f hf
        rcases List.mem_append.mp hf with hf | hf
        · exact hrun f hf
        · rw [List.mem_singleton.mp hf, hsize]
          rfl
      have hnext := ih hlonger front
      rw [List.length_append, runSize_append, runSize, runSize, hsize] at hnext
      simpa [Nat.add_assoc] using hnext
    | none =>
      -- A sequence closes the run, is alone in its group, and leaves an empty run behind it.
      have hnone : ∀ f ∈ ([] : List Field), f.type.size?.isSome := by simp
      obtain ⟨hcut, hall⟩ := ih hnone (front ++ run ++ [field])
      obtain ⟨hcutRun, hallRun⟩ := cut_closeRun hrun front (field :: rest)
      have hlength : (front ++ run ++ [field]).length = front.length + run.length + 1 := by
        simp only [List.length_append, List.length_singleton]
      have hfields : front ++ run ++ [field] ++ rest = front ++ run ++ field :: rest := by simp
      have hslice := slice_run (front ++ run) [field] rest .variable
      rw [List.length_append, List.length_singleton, hfields] at hslice
      rw [List.append_nil, hlength, hfields] at hcut hall
      refine ⟨fun g hg => ?_, ?_⟩
      · rcases List.mem_append.mp hg with hg | hg
        · exact hcutRun g hg
        rcases List.mem_cons.mp hg with rfl | hg
        · cases htype : field.type with
          | scalar type => rw [htype] at hsize; cases hsize
          | array elem length fits => rw [htype] at hsize; cases hsize
          | sequence elem length => exact .sequence hslice htype rfl
        · exact hcut g hg
      · rw [List.flatMap_append, List.flatMap_cons, hallRun, hslice]
        exact congrArg (fun later => run ++ ([field] ++ later)) hall

/-- Every group of a struct is a run of fields of known size or one sequence. -/
theorem cut_of_mem {fields : List Field} {g : Group} (hg : g ∈ ofFields fields) :
    g.CutFrom fields := by
  have hnone : ∀ f ∈ ([] : List Field), f.type.size?.isSome := by simp
  exact (cut_ofFieldsFrom hnone [] fields).1 g hg

/-- The fields of the groups, one group behind the other, are all the fields. -/
theorem flatMap_slice (fields : List Field) :
    (ofFields fields).flatMap (·.slice fields) = fields := by
  have hnone : ∀ f ∈ ([] : List Field), f.type.size?.isSome := by simp
  exact (cut_ofFieldsFrom hnone [] fields).2

/-! ## Sizes -/

/-- No fixed group is larger than the largest, nor than all of them together. -/
theorem bytes_le {groups : List Group} {g : Group} (hg : g ∈ groups) {bytes : Nat}
    (hextent : g.extent = .fixed bytes) :
    bytes ≤ largestFixed groups ∧ bytes ≤ fixedSize groups := by
  have hbytes : bytes ∈ groups.filterMap bytes? :=
    List.mem_filterMap.mpr ⟨g, hg, by rw [bytes?, hextent]⟩
  obtain ⟨most, hmost⟩ := Option.isSome_iff_exists.mp (List.isSome_max?_of_mem hbytes)
  have hle := (List.max?_eq_some_iff.mp hmost).2 bytes hbytes
  constructor
  · rw [largestFixed, List.foldl_max, hmost]
    exact Nat.le_trans hle (Nat.le_max_right 0 most)
  · rw [fixedSize, ← List.sum_eq_foldl]
    exact List.le_sum_of_mem hbytes

end Group

end WireCodec
