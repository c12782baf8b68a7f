import WireCodec.Proofs.Decoding.Steps

/-!
# The points of a decoding

A decoding does not only hold what it holds between two steps.  A read makes room first and then
waits for its bytes, and a read in chunks does so many times.  `points` are all the states that
steps pass through, up to the failure if there is one.
-/

namespace WireCodec.DecodeState

/-- The state in which a read waits for its bytes. -/
def roomFor (s : DecodeState) (offset count : Nat) : DecodeState :=
  { s with scratch := s.scratch.growTo (offset + count) }

/-- A read first makes room, and then fills it or fails. -/
theorem readInto_eq (s : DecodeState) (offset count : Nat) :
    s.readInto offset count =
      if count ≤ s.input.length then
        .ok { s with
          input := s.input.drop count
          reads := s.reads ++ [count]
          scratch := (s.roomFor offset count).scratch.fill offset (s.input.take count) }
      else .error ⟨.endOfInput, s.reads ++ [count]⟩ := rfl

/-- The scratch buffer grows as far as the read goes, and never shrinks. -/
theorem size_readInto {s t : DecodeState} {offset count : Nat} (h : s.readInto offset count = .ok t) :
    t.scratch.size = max s.scratch.size (offset + count) := by
  have hroom : (s.roomFor offset count).scratch.size = max s.scratch.size (offset + count) :=
    s.scratch.size_growTo (offset + count)
  rw [readInto_eq] at h
  split at h
  · cases h
    have hlength : (s.input.take count).length = count := by
      rw [List.length_take]
      omega
    rw [Scratch.size_fill _ _ _ (by omega), hroom]
  · cases h

/-- The states of a read in chunks: before and after the bytes of every chunk. -/
def chunkPoints (s : DecodeState) (filled total : Nat) : List DecodeState :=
  if filled < total then
    let stop := min total (filled + chunkSize)
    s.roomFor filled (stop - filled) ::
      match s.readInto filled (stop - filled) with
      | .ok t => t :: t.chunkPoints stop total
      | .error _ => []
  else []
termination_by total - filled
decreasing_by
  simp only [chunkSize]
  omega

/-- The states inside of a step. -/
def within (s : DecodeState) : DecodeStep → List DecodeState
  | .read (.fixed bytes) => [s.roomFor 0 bytes]
  | .read (.counted field unit) =>
    match s.countOf field with
    | .ok count => if count * unit < wordLimit then s.chunkPoints 0 (count * unit) else []
    | .error _ => []
  | _ => []

/-- The states that steps pass through behind a state. -/
def points (s : DecodeState) : List DecodeStep → List DecodeState
  | [] => []
  | step :: rest =>
    s.within step ++
      match s.step step with
      | .ok t => t :: t.points rest
      | .error _ => []

/-- Only reads have states inside of them. -/
theorem within_of_not_isRead {s : DecodeState} {step : DecodeStep} (h : step.isRead = false) :
    s.within step = [] := by
  cases step with
  | read size => cases h
  | _ => rfl

theorem mem_within_counted {s t : DecodeState} {field : String} {unit : Nat}
    (h : t ∈ s.within (.read (.counted field unit))) : ∃ total, t ∈ s.chunkPoints 0 total := by
  rw [within] at h
  split at h
  · split at h
    · exact ⟨_, h⟩
    · cases h
  · cases h

/-! ## Steps in a row -/

/-- The states of steps are those inside the first, the one behind it, and those of the others. -/
theorem mem_points_cons {s t : DecodeState} {step : DecodeStep} {rest : List DecodeStep} :
    t ∈ s.points (step :: rest) ↔
      t ∈ s.within step ∨ ∃ u, s.step step = .ok u ∧ (t = u ∨ t ∈ u.points rest) := by
  rw [points, List.mem_append]
  cases s.step step <;> simp

theorem mem_points_single {s t : DecodeState} {step : DecodeStep} :
    t ∈ s.points [step] ↔ t ∈ s.within step ∨ s.step step = .ok t := by
  rw [mem_points_cons]
  simp [points]

theorem mem_points_append {s t : DecodeState} {a b : List DecodeStep} :
    t ∈ s.points (a ++ b) ↔
      t ∈ s.points a ∨ ∃ u, s.steps a = .ok u ∧ t ∈ u.points b := by
  induction a generalizing s with
  | nil =>
    have hnil : s.steps [] = .ok s := rfl
    rw [List.nil_append, points, hnil]
    simp
  | cons step rest ih =>
    rw [List.cons_append, mem_points_cons, mem_points_cons, steps_cons]
    cases s.step step with
    | error failure => simp [error_bind]
    | ok u => simp [ok_bind, ih, or_assoc]

theorem mem_points_of_steps {s t : DecodeState} {steps : List DecodeStep}
    (h : s.steps steps = .ok t) : t = s ∨ t ∈ s.points steps := by
  induction steps generalizing s with
  | nil =>
    cases h
    exact .inl rfl
  | cons step rest ih =>
    rw [steps_cons] at h
    obtain ⟨u, hu, hrest⟩ := bind_eq_ok.mp h
    exact .inr (mem_points_cons.mpr (.inr ⟨u, hu, ih hrest⟩))

/-! ## Reads in chunks -/

/-- What every chunk keeps, as the number of bytes filled grows, holds at every point of a read in
chunks and at its end. -/
theorem chunks_keep (Kept : Nat → DecodeState → Prop) (Safe : DecodeState → Prop)
    (hroom : ∀ s filled count, Kept filled s → count ≤ chunkSize → Safe (s.roomFor filled count))
    (hread : ∀ s t filled count, Kept filled s → count ≤ chunkSize →
      s.readInto filled count = .ok t → Kept (filled + count) t ∧ Safe t)
    {s : DecodeState} {filled total : Nat} (hle : filled ≤ total) (h : Kept filled s) :
    (∀ t ∈ s.chunkPoints filled total, Safe t) ∧
      ∀ t, s.readChunks filled total = .ok t → Kept total t := by
  -- Each round reads a chunk, or all that is missing, and leaves less missing.
  induction hmissing : total - filled using Nat.strongRecOn generalizing s filled with
  | _ missing ih =>
    rw [chunkPoints]
    by_cases hlt : filled < total
    · have hchunk : 0 < chunkSize := by decide
      obtain ⟨stop, hstop⟩ : ∃ stop, stop = min total (filled + chunkSize) := ⟨_, rfl⟩
      have hcount : stop - filled ≤ chunkSize := by omega
      have hnext : filled + (stop - filled) = stop := by omega
      rw [if_pos hlt, readChunks_of_missing s hlt hstop, ← hstop]
      dsimp only
      cases hinto : s.readInto filled (stop - filled) with
      | error failure =>
        refine ⟨fun t ht => ?_, fun t ht => by cases ht⟩
        rw [List.mem_singleton.mp ht]
        exact hroom s filled _ h hcount
      | ok u =>
        obtain ⟨hkept, hsafe⟩ := hread s u filled _ h hcount hinto
        rw [hnext] at hkept
        obtain ⟨hpoints, hend⟩ := ih (total - stop) (by omega) (by omega) hkept rfl
        refine ⟨fun t ht => ?_, hend⟩
        rcases List.mem_cons.mp ht with rfl | ht
        · exact hroom s filled _ h hcount
        rcases List.mem_cons.mp ht with rfl | ht
        · exact hsafe
        · exact hpoints t ht
    · have htotal : filled = total := by omega
      rw [if_neg hlt, readChunks_of_filled s (by omega)]
      refine ⟨fun t ht => absurd ht List.not_mem_nil, fun t ht => ?_⟩
      cases ht
      rwa [← htotal]

theorem size_le_of_readChunks (s : DecodeState) (total : Nat) :
    (∀ t ∈ s.chunkPoints 0 total, s.scratch.size ≤ t.scratch.size) ∧
      ∀ t, s.readChunks 0 total = .ok t → s.scratch.size ≤ t.scratch.size := by
  refine chunks_keep (fun _ t => s.scratch.size ≤ t.scratch.size)
    (fun t => s.scratch.size ≤ t.scratch.size) (fun t filled count ht _ => ?_)
    (fun t u filled count ht _ hread => ?_) (Nat.zero_le total) (Nat.le_refl _)
  · have hroom : (t.roomFor filled count).scratch.size = max t.scratch.size (filled + count) :=
      t.scratch.size_growTo (filled + count)
    omega
  · have hroom := size_readInto hread
    exact ⟨by omega, by omega⟩

/-- Behind the first step the scratch buffer only grows. -/
theorem size_le_of_step {s t : DecodeState} {step : DecodeStep} (h : s.step step = .ok t)
    (hscratch : ∀ bytes, step ≠ .scratch bytes) : s.scratch.size ≤ t.scratch.size := by
  by_cases hread : step.isRead = false
  · have hsame := (frame_of_step h hread hscratch).2
    exact Nat.le_of_eq (congrArg Scratch.size hsame.symm)
  · cases step with
    | read size =>
      cases size with
      | fixed bytes =>
        rw [size_readInto h]
        omega
      | counted field unit =>
        obtain ⟨count, -, -, hchunks⟩ := of_step_read_counted h
        exact (s.size_le_of_readChunks _).2 t hchunks
    | _ => exact absurd rfl hread

/-- Only a new scratch buffer is ever smaller than the one before. -/
theorem size_le_of_steps {s t : DecodeState} {list : List DecodeStep} (h : s.steps list = .ok t)
    (hscratch : ∀ step ∈ list, ∀ bytes, step ≠ .scratch bytes) : s.scratch.size ≤ t.scratch.size := by
  induction list generalizing s with
  | nil =>
    cases h
    exact Nat.le_refl _
  | cons step rest ih =>
    rw [steps_cons] at h
    obtain ⟨u, hu, hrest⟩ := bind_eq_ok.mp h
    have hfirst := size_le_of_step hu (hscratch step (List.mem_cons_self ..))
    have hlater := ih hrest fun step hstep => hscratch step (List.mem_cons_of_mem _ hstep)
    omega

end WireCodec.DecodeState

namespace WireCodec.Codec

/-- All the states of a decoding, from the first on. -/
def points (c : Codec) (input : List UInt8) : List DecodeState :=
  .start input :: (DecodeState.start input).points c.decode

theorem mem_points_of_run {c : Codec} {input : List UInt8} {decoded : Decoded}
    (h : c.run input = .ok decoded) :
    ∃ t ∈ c.points input, t.input = decoded.rest ∧ t.reads = decoded.reads := by
  obtain ⟨t, hsteps, h⟩ := bind_eq_ok.mp h
  obtain ⟨fields, -, h⟩ := bind_eq_ok.mp h
  cases h
  exact ⟨t, List.mem_cons.mpr (DecodeState.mem_points_of_steps hsteps), rfl, rfl⟩

end WireCodec.Codec
