import WireCodec.Proofs.Decoding.FieldReader
import WireCodec.Proofs.Encoding.Faults

/-!
# Values and their bytes

Reading a field gives a value of its type, and it takes the bytes of that value.  Nothing else is
read, so the bytes of a value of the type are read as that value.
-/

namespace WireCodec

/-! ## Types of values -/

/-- Values of a type.  The number of elements of a sequence is counted in a record. -/
def WireType.Admits (type : WireType) (record : Record) (value : Value) : Prop :=
  match type with
  | .scalar type => ∃ x, value = .scalar x ∧ x.kind = type.kind
  | .array elem length _ => ∃ xs : List Scalar, value = .array (xs.map .scalar) ∧
      (∀ x ∈ xs, x.kind = elem.kind) ∧ xs.length = length
  | .sequence elem length => ∃ count, length.eval (Record.count? record) = .ok count ∧
      ∃ xs : List Scalar, value = .sequence (xs.map .scalar) ∧
        (∀ x ∈ xs, x.kind = elem.kind) ∧ xs.length = count.toNat

/-- Records that agree on the fields that may count agree on the values of a type. -/
theorem admits_congr {earlier : List Field} {field : Field}
    (hcounted : StructType.CountedIn earlier field.type) {r t : Record}
    (h : ∀ g ∈ earlier, g.type.countsElements = true → r.get? g.name = t.get? g.name)
    {value : Value} (hvalue : field.type.Admits r value) : field.type.Admits t value := by
  cases htype : field.type with
  | scalar type => rw [htype] at hvalue; exact hvalue
  | array elem length fits => rw [htype] at hvalue; exact hvalue
  | sequence elem length =>
    rw [htype] at hvalue
    obtain ⟨count, heval, hvalue⟩ := hvalue
    rw [eval_count?_congr htype hcounted h] at heval
    exact ⟨count, heval, hvalue⟩

/-! ## Scalars -/

theorem readScalar_eq_ok {kind : ScalarKind} {input rest : List UInt8} {x : Scalar} :
    readScalar kind input = .ok (x, rest) ↔ x.kind = kind ∧ input = x.toBytes ++ rest := by
  unfold readScalar
  constructor
  · intro h
    split at h
    · rename_i hle
      cases h
      have hlength : (input.take kind.size).length = kind.size := by
        rw [List.length_take]
        omega
      rw [Scalar.toBytes_ofBytes kind _ hlength, List.take_append_drop]
      exact ⟨rfl, rfl⟩
    · cases h
  · rintro ⟨rfl, rfl⟩
    have hlength := x.length_toBytes
    rw [if_pos (by rw [List.length_append]; omega), List.take_left' hlength,
      List.drop_left' hlength, Scalar.ofBytes_toBytes]

/-- Scalars are read exactly from their bytes. -/
theorem readScalars_eq_ok {kind : ScalarKind} {count : Nat} {input rest : List UInt8}
    {xs : List Scalar} :
    readScalars kind count input = .ok (xs, rest) ↔
      (∀ x ∈ xs, x.kind = kind) ∧ xs.length = count ∧ input = xs.flatMap Scalar.toBytes ++ rest := by
  induction count generalizing input xs with
  | zero =>
    constructor
    · intro h
      cases h
      exact ⟨by simp, rfl, rfl⟩
    · rintro ⟨-, hlength, hinput⟩
      rw [List.eq_nil_of_length_eq_zero hlength] at hinput ⊢
      rw [hinput]
      rfl
  | succ count ih =>
    rw [readScalars, bind_eq_ok]
    constructor
    · rintro ⟨⟨x, middle⟩, hx, h⟩
      obtain ⟨⟨ys, last⟩, hys, h⟩ := bind_eq_ok.mp h
      cases h
      obtain ⟨hkind, rfl⟩ := readScalar_eq_ok.mp hx
      obtain ⟨hkinds, hlength, hmiddle⟩ := ih.mp hys
      refine ⟨?_, by rw [List.length_cons, hlength], ?_⟩
      · intro y hy
        rcases List.mem_cons.mp hy with rfl | hy
        · exact hkind
        · exact hkinds y hy
      · rw [List.flatMap_cons, List.append_assoc, hmiddle]
    · rintro ⟨hkinds, hlength, hinput⟩
      cases xs with
      | nil => cases hlength
      | cons x ys =>
        rw [List.flatMap_cons, List.append_assoc] at hinput
        have hx := readScalar_eq_ok.mpr ⟨hkinds x (List.mem_cons_self ..), hinput⟩
        have hys := ih.mpr ⟨fun y hy => hkinds y (List.mem_cons_of_mem _ hy),
          Nat.succ.inj hlength, (rfl : _ = ys.flatMap Scalar.toBytes ++ rest)⟩
        exact ⟨_, hx, bind_eq_ok.mpr ⟨_, hys, rfl⟩⟩

theorem flatMap_scalarBytes (xs : List Scalar) :
    (xs.map Value.scalar).flatMap Value.scalarBytes = xs.flatMap Scalar.toBytes := by
  rw [List.flatMap_map]
  rfl

theorem length_flatMap_toBytes {kind : ScalarKind} {xs : List Scalar}
    (h : ∀ x ∈ xs, x.kind = kind) : (xs.flatMap Scalar.toBytes).length = xs.length * kind.size := by
  induction xs with
  | nil => exact (Nat.zero_mul _).symm
  | cons x rest ih =>
    have hx := h x (List.mem_cons_self ..)
    have hrest := ih fun y hy => h y (List.mem_cons_of_mem _ hy)
    rw [List.flatMap_cons, List.length_append, Scalar.length_toBytes, hrest, hx, List.length_cons,
      Nat.succ_mul, Nat.add_comm]

/-! ## Fields -/

/-- A value is read exactly when it is of the type and its bytes, fewer than a word can count, stand
in front. -/
theorem readValue_eq_ok {before : Record} {field : Field} {input rest : List UInt8}
    {value : Value} :
    readValue before field input = .ok (value, rest) ↔
      field.type.Admits before value ∧ value.wireBytes.length < wordLimit ∧
        input = value.wireBytes ++ rest := by
  cases htype : field.type with
  | scalar type =>
    rw [readValue_scalar _ _ htype, bind_eq_ok]
    constructor
    · rintro ⟨⟨x, last⟩, hx, h⟩
      cases h
      obtain ⟨hkind, hinput⟩ := readScalar_eq_ok.mp hx
      have hlength : x.toBytes.length ≤ 8 := by
        rw [Scalar.length_toBytes]
        exact x.kind.size_le
      exact ⟨⟨x, rfl, hkind⟩, Nat.lt_of_le_of_lt hlength (by decide), hinput⟩
    · rintro ⟨⟨x, rfl, hkind⟩, -, hinput⟩
      exact ⟨(x, rest), readScalar_eq_ok.mpr ⟨hkind, hinput⟩, rfl⟩
  | array elem length fits =>
    rw [readValue_array _ _ htype, bind_eq_ok]
    constructor
    · rintro ⟨⟨xs, last⟩, hxs, h⟩
      cases h
      obtain ⟨hkinds, hlength, hinput⟩ := readScalars_eq_ok.mp hxs
      rw [Value.wireBytes, flatMap_scalarBytes, length_flatMap_toBytes hkinds, hlength, Nat.mul_comm]
      exact ⟨⟨xs, rfl, hkinds, hlength⟩, fits, hinput⟩
    · rintro ⟨⟨xs, rfl, hkinds, hlength⟩, -, hinput⟩
      rw [Value.wireBytes, flatMap_scalarBytes] at hinput
      exact ⟨(xs, rest), readScalars_eq_ok.mpr ⟨hkinds, hlength, hinput⟩, rfl⟩
  | sequence elem length =>
    rw [readValue_sequence _ _ htype]
    constructor
    · intro h
      split at h
      · cases h
      · rename_i count heval
        split at h
        · rename_i hfits
          obtain ⟨⟨xs, last⟩, hxs, h⟩ := bind_eq_ok.mp h
          cases h
          obtain ⟨hkinds, hlength, hinput⟩ := readScalars_eq_ok.mp hxs
          rw [Value.wireBytes, flatMap_scalarBytes, length_flatMap_toBytes hkinds, hlength]
          exact ⟨⟨count, heval, xs, rfl, hkinds, hlength⟩, hfits, hinput⟩
        · cases h
    · rintro ⟨⟨count, heval, xs, rfl, hkinds, hlength⟩, hfits, hinput⟩
      rw [Value.wireBytes, flatMap_scalarBytes] at hfits hinput
      rw [length_flatMap_toBytes hkinds, hlength] at hfits
      have hxs := readScalars_eq_ok.mpr ⟨hkinds, hlength, hinput⟩
      have hfits : count.toNat * elem.size < wordLimit := hfits
      simp only [heval, if_pos hfits]
      rw [hxs, ok_bind]

end WireCodec
