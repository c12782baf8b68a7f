import WireCodec.Proofs.Source.Arithmetic
import WireCodec.Proofs.Source.Loads
import WireCodec.Proofs.Target.Statement

/-!
# Generated stores

The two statements that store a scalar bind its bit pattern and push the bytes of the pattern.  What
they push are the bytes that a run of the codec appends.
-/

namespace WireCodec

/-! ## Bytes of a number -/

/-- The low bytes of a number are those that come down when it is shifted byte by byte. -/
theorem lowBytes_eq (count n : Nat) :
    lowBytes count n = (List.range count).map fun index => UInt8.ofNat (n >>> (8 * index)) := by
  induction count generalizing n with
  | zero => rfl
  | succ count ih =>
    have hshift (index : Nat) : (n / 256) >>> (8 * index) = n >>> (8 * (index + 1)) := by
      rw [Nat.mul_succ, Nat.add_comm, Nat.shiftRight_add, Nat.shiftRight_eq_div_pow n 8]
    have hfirst : UInt8.ofNat (n % 256) = UInt8.ofNat n := UInt8.ofNat_mod_size
    rw [lowBytes, ih, List.range_succ_eq_map, List.map_cons, List.map_map, hfirst]
    simp only [Function.comp_def, hshift]
    rfl

namespace Scalar

/-- In the unsigned kind an integer has the bits that it has. -/
theorem ofInt_toInt (s : Scalar) :
    ofInt s.kind.unsigned s.toInt = ofBits s.kind.unsigned s.bits := by
  have hlt := s.bits_lt
  have hpos := byteRange_pos s.kind.size
  have hbits : (s.toInt % byteRange s.kind.size).toNat = s.bits := by
    unfold toInt
    split
    · rw [Int.sub_emod_right, ← Int.natCast_emod, Int.toNat_natCast, Nat.mod_eq_of_lt hlt]
    · rw [← Int.natCast_emod, Int.toNat_natCast, Nat.mod_eq_of_lt hlt]
  rw [ofInt, ScalarKind.size_unsigned, hbits]

theorem bits_ofBits_unsigned (s : Scalar) : (ofBits s.kind.unsigned s.bits).bits = s.bits := by
  have hlt := s.bits_lt
  rw [← ScalarKind.size_unsigned] at hlt
  exact Nat.mod_eq_of_lt hlt

end Scalar

namespace Source

open Target

/-! ## Bit patterns -/

def bitsExpr (type : ScalarType) (value : Expr) : Expr :=
  if !type.kind.isInteger then .call (.member value "to_bits") []
  else if type.aliasName.isNone && type.kind.isUnsigned then value
  else .cast value type.kind.unsigned.name

theorem binds_patternOfScalar {type : ScalarType} {text : String} {value : Expr}
    (hvalue : Binds castLevel text value)
    (hfloat : type.kind.isInteger = false → Operand text value) :
    Binds 0 (patternOfScalar type text) (bitsExpr type value) := by
  unfold patternOfScalar bitsExpr
  simp only [toString]
  split
  · next hkind =>
    have hmember := (hfloat (by simpa using hkind)).member
      (isWord_of_all (by decide) (by decide) : IsWord "to_bits") rfl
    have hmethod := hmember.callNone
    have hname : "." ++ "to_bits" ++ "()" = ".to_bits()" := by decide
    rw [String.append_assoc, hname] at hmethod
    exact hmethod.binds 0
  · split
    · exact hvalue.mono (Nat.zero_le _)
    · have hcast := hvalue.cast (isWord_kind type.kind.unsigned)
      rw [← String.append_assoc] at hcast
      exact hcast.mono (Nat.zero_le _)

/-- The expression stands for the scalar; a float may also be there by reference. -/
def Yields (env : Env) (value : Expr) (s : Scalar) : Prop :=
  value.eval env = .ok (.scalar s) ∨
    s.kind.isInteger = false ∧ value.eval env = .ok (.reference s)

/-- The pattern of a value is that of its bits, in the unsigned kind of its size. -/
theorem eval_bitsExpr {env : Env} {type : ScalarType} {value : Expr} {s : Scalar}
    (hkind : s.kind = type.kind) (h : Yields env value s) :
    (bitsExpr type value).eval env = .ok (.scalar (.ofBits s.kind.unsigned s.bits)) := by
  unfold bitsExpr
  rw [← hkind]
  split
  · next hfloat =>
    -- A method call looks through a reference, so both ways to yield the float do.
    have hbits : floatBits s = some (.scalar (.ofBits s.kind.unsigned s.bits)) := by
      rw [floatBits, if_neg (by simpa using hfloat)]
    rcases h with h | ⟨-, h⟩
    · exact eval_method h hbits
    · exact eval_method h hbits
  · next hinteger =>
    have hvalue : value.eval env = .ok (.scalar s) := by
      rcases h with h | ⟨hfloat, -⟩
      · exact h
      · rw [hfloat] at hinteger
        exact absurd rfl hinteger
    split
    · next hplain =>
      have hunsigned : s.kind.unsigned = s.kind := by
        rw [Bool.and_eq_true] at hplain
        have hplain := hplain.2
        revert hplain
        cases s.kind <;> decide
      rw [hvalue, hunsigned, Scalar.ofBits_bits]
    · have hkinds : s.kind.isInteger = true ∧ s.kind.unsigned.isInteger = true := by
        refine ⟨by simpa using hinteger, ?_⟩
        cases s.kind <;> rfl
      refine eval_cast (kind?_name env _) hvalue ?_
      rw [castTo, if_pos hkinds, Scalar.ofInt_toInt]

/-! ## Bytes of the pattern -/

/-- The byte of the pattern `v` that is `index` places above the lowest. -/
def patternByteExpr (index : Nat) : Expr :=
  .cast (if index = 0 then .name "v" else .binary .shiftRight (.name "v") (.literal (8 * index) ""))
    "u8"

theorem binds_byteOfPattern (index : Nat) :
    Binds 0 (byteOfPattern index) (patternByteExpr index) := by
  have hpattern : Operand "v" (.name "v") := operand_word ⟨by decide, fun _ => rfl⟩ rfl
  have hbyte : IsWord "u8" := isWord_kind .u8
  unfold byteOfPattern patternByteExpr
  split
  · have hcast := (hpattern.binds castLevel).cast hbyte
    exact hcast.mono (Nat.zero_le _)
  · have hshift : Spells " >> " [.double '>'] := fun _ => rfl
    have hshifted := Binds.binary (hpattern.binds Infix.shiftRight.level)
      (binds_number (8 * index) (Infix.shiftRight.level + 1)) hshift
      (separates_of_space rfl) rfl
    have hcast := ((hshifted.mono (Nat.zero_le _)).parens.binds castLevel).cast hbyte
    have hgroup (a b c d e f g : String) :
        a ++ (b ++ (c ++ d) ++ e) ++ (f ++ g) = a ++ b ++ c ++ d ++ (e ++ f ++ g) := by
      simp only [String.append_assoc]
    have hopen : "(" ++ "v" ++ " >> " = "(v >> " := by decide
    have hclose : ")" ++ " as " ++ "u8" = ") as u8" := by decide
    rw [hgroup, hopen, hclose] at hcast
    exact hcast.mono (Nat.zero_le _)

/-- That byte is the one at its place in the pattern. -/
theorem eval_patternByteExpr {env : Env} {s : Scalar}
    (hpattern : env.locals "v" = some (.scalar (.ofBits s.kind.unsigned s.bits))) {index : Nat}
    (hindex : index < s.kind.size) :
    (patternByteExpr index).eval env =
      .ok (.scalar (.ofBits .u8 (s.bits >>> (8 * index)))) := by
  have hunsigned := ScalarKind.isUnsigned_unsigned s.kind
  have hsize := ScalarKind.size_unsigned s.kind
  have hshifted : (if index = 0 then Expr.name "v"
      else .binary .shiftRight (.name "v") (.literal (8 * index) "")).eval env =
      .ok (.scalar (.ofBits s.kind.unsigned (s.bits >>> (8 * index)))) := by
    split
    · next hzero => rw [eval_name hpattern, hzero, Nat.mul_zero, Nat.shiftRight_zero]
    · have hwidth : 8 * index < s.kind.unsigned.bitWidth := by
        rw [ScalarKind.bitWidth, hsize]
        omega
      have hnumber : literalValue (8 * index) "" = some (.number (8 * index)) := by
        refine literalValue_number ?_
        have hle := s.kind.size_le
        have hlimit : wordLimit = 2 ^ 64 := rfl
        omega
      refine eval_binary (eval_name hpattern) (eval_literal hnumber) ?_
      rw [applyInfix, if_pos ⟨hunsigned, hwidth⟩, Scalar.kind_ofBits, Scalar.bits_ofBits_unsigned]
  refine eval_cast (kind?_name env .u8) hshifted ?_
  exact castTo_ofUnsigned hunsigned rfl (by rw [hsize]; exact s.kind.size_pos) _

/-- The expression that appends the bytes of the pattern `v`. -/
def appendExpr (kind : ScalarKind) : Expr :=
  if kind.size = 1 then .call (.member (.name "buf") "push") [.name "v"]
  else
    .call (.member (.name "buf") "extend_from_slice")
      [.borrow (.array ((List.range kind.size).map patternByteExpr))]

/-- The text that appends a pattern is read as one statement. -/
theorem statement?_appendPattern (kind : ScalarKind) :
    statement? (appendPattern kind) = some (.effect (appendExpr kind)) := by
  have hbuffer : Operand "buf" (.name "buf") := operand_word ⟨by decide, fun _ => rfl⟩ rfl
  unfold appendPattern appendExpr
  simp only [toString]
  split
  · have hpattern : Operand "v" (.name "v") := operand_word ⟨by decide, fun _ => rfl⟩ rfl
    have hmethod : IsWord "push" := isWord_of_all (by decide) (by decide)
    have hpush := (hbuffer.member hmethod rfl).call
      (hpattern.binds 0)
    have hstatement := statement?_effect (hpush.binds 0)
    have htext : "buf" ++ ("." ++ "push") ++ ("(" ++ ("v" ++ ")")) ++ ";" = "buf.push(v);" := by
      decide
    rwa [htext] at hstatement
  · have hnonempty : List.range kind.size ≠ [] := by
      have hpos := kind.size_pos
      simp
      omega
    have harray := operand_array (fun index _ => binds_byteOfPattern index) hnonempty
    have hextend := (hbuffer.member
      (isWord_of_all (by decide) (by decide) : IsWord "extend_from_slice") rfl).call
      (harray.borrow.mono (Nat.zero_le 6))
    have hstatement := statement?_effect (hextend.binds 0)
    have hgroup (a b c d e f g h i x : String) :
        a ++ (b ++ c) ++ (d ++ (e ++ (f ++ (x ++ g)) ++ h)) ++ i =
          (a ++ b ++ c ++ d ++ e ++ f) ++ x ++ (g ++ h ++ i) := by
      simp only [String.append_assoc]
    have hopen : "buf" ++ "." ++ "extend_from_slice" ++ "(" ++ "&" ++ "[" =
      "buf.extend_from_slice(&[" := by decide
    have hclose : "]" ++ ")" ++ ";" = "]);" := by decide
    rwa [hgroup, hopen, hclose] at hstatement

theorem evalAll_map {env : Env} {places : List Nat} {item : Nat → Expr} {value : Nat → Target.Value}
    (h : ∀ index ∈ places, (item index).eval env = .ok (value index)) :
    evalAll env (places.map item) = .ok (places.map value) := by
  induction places with
  | nil => rfl
  | cons index later ih =>
    rw [List.map_cons, evalAll, h index (List.mem_cons_self ..),
      ih fun i hi => h i (List.mem_cons_of_mem index hi)]
    rfl

theorem byte?_ofBits (n : Nat) : byte? (.scalar (.ofBits .u8 n)) = some (UInt8.ofNat n) := by
  have hbits : UInt8.ofNat (n % byteRange 1) = UInt8.ofNat n := UInt8.ofNat_mod_size
  exact congrArg some hbits

theorem eval_bytes {env : Env} {places : List Nat} {item : Nat → Expr} {pattern : Nat → Nat}
    (h : ∀ index ∈ places, (item index).eval env = .ok (.scalar (.ofBits .u8 (pattern index)))) :
    (Expr.borrow (.array (places.map item))).eval env =
      .ok (.bytes (places.map fun index => UInt8.ofNat (pattern index))) := by
  have hbytes : (places.map fun index => Target.Value.scalar (.ofBits .u8 (pattern index))).mapM
      byte? = some (places.map fun index => UInt8.ofNat (pattern index)) := by
    clear h
    induction places with
    | nil => rfl
    | cons index later ih =>
      rw [List.map_cons, List.mapM_cons, byte?_ofBits, ih]
      rfl
  rw [Expr.eval, Expr.eval, evalAll_map h]
  simp only [bind, Except.bind, hbytes]
  rfl

/-- Behind the binding of its pattern, the bytes of a scalar are pushed. -/
theorem run_appendExpr {env : Env} {s : Scalar} {output : List UInt8}
    (hpattern : env.locals "v" = some (.scalar (.ofBits s.kind.unsigned s.bits)))
    (houtput : env.locals "buf" = some (.bytes output)) :
    (Statement.effect (appendExpr s.kind)).run env =
      .ok (env.set "buf" (.bytes (output ++ s.toBytes))) := by
  unfold appendExpr
  split
  · next hsize =>
    -- One byte is pushed as it is, without a shift and without a cast.
    have hunsigned : s.kind.unsigned = .u8 := by
      revert hsize
      cases s.kind <;> decide
    have hbyte : s.toBytes = [UInt8.ofNat s.bits] := by
      rw [Scalar.toBytes, hsize, lowBytes_eq]
      rfl
    rw [hbyte]
    refine run_append houtput (eval_name hpattern) ?_
    rw [appended, hunsigned, byte?_ofBits]
    rfl
  · have hitems : ∀ index ∈ List.range s.kind.size, (patternByteExpr index).eval env =
        .ok (.scalar (.ofBits .u8 (s.bits >>> (8 * index)))) := fun index hindex =>
      eval_patternByteExpr hpattern (List.mem_range.mp hindex)
    rw [Scalar.toBytes, lowBytes_eq]
    exact run_append houtput (eval_bytes hitems) rfl

/-! ## Slots -/

def storedText (type : ScalarType) : Slot → String
  | .field field => ownField field
  | .elements _ => if type.kind.isInteger then "*e" else "e"

def storedExpr (type : ScalarType) : Slot → Expr
  | .field field => .member (.name "self") field
  | .elements _ => if type.kind.isInteger then .deref (.name "e") else .name "e"

/-- The value that a store takes: a field of the record, or what the loop over the elements is
at. -/
def Stored (env : Env) (s : Scalar) : Slot → Prop
  | .field field => ∃ fields, env.locals "self" = some (.record fields) ∧ fields field = some s
  | .elements _ => env.locals "e" = some (.reference s)

def patternLine (type : ScalarType) (slot : Slot) : String :=
  s!"let v: {type.kind.unsigned.name} = {patternOfScalar type (storedText type slot)};"

/-- A store is two lines in a block: one binds the pattern, one appends it. -/
theorem encodeLines_store (stores : Bool) (slot : Slot) (type : ScalarType) :
    ∃ header, encodeLines stores (.store slot type) =
      block header [.line (patternLine type slot), .line (appendPattern type.kind)] "\x7d" := by
  cases slot with
  | field field => exact ⟨_, rfl⟩
  | elements field => exact ⟨_, rfl⟩

theorem binds_stored (type : ScalarType) {slot : Slot}
    (hname : ∀ field, slot = .field field → Text.isIdentifier field = true) :
    Binds 0 (patternOfScalar type (storedText type slot))
      (bitsExpr type (storedExpr type slot)) := by
  cases slot with
  | field field =>
    have hfield := operand_ownField (hname field rfl)
    exact binds_patternOfScalar (hfield.binds castLevel) fun _ => hfield
  | elements field =>
    have helement : Operand "e" (.name "e") := operand_word ⟨by decide, fun _ => rfl⟩ rfl
    simp only [storedText, storedExpr]
    split
    · next hinteger =>
      refine binds_patternOfScalar (helement.deref.mono (by decide)) fun hfloat => ?_
      rw [hfloat] at hinteger
      cases hinteger
    · exact binds_patternOfScalar (helement.binds castLevel) fun _ => helement

theorem statement?_patternLine {type : ScalarType} {slot : Slot}
    (hname : ∀ field, slot = .field field → Text.isIdentifier field = true) :
    statement? (patternLine type slot) =
      some (.bind "v" type.kind.unsigned.name (bitsExpr type (storedExpr type slot))) := by
  have hbefore : Spells ("let v: " ++ type.kind.unsigned.name ++ " = ")
      [.word "let", .word "v", .mark ':', .word type.kind.unsigned.name, .mark '='] := by
    cases type.kind <;> exact fun _ => rfl
  have hstatement := statement?_bind (binds_stored type hname) hbefore
  rw [← String.append_assoc] at hstatement
  exact hstatement

/-- What a store takes is the scalar of the record, or the element that the loop is at. -/
theorem yields_stored {env : Env} {type : ScalarType} {slot : Slot} {s : Scalar}
    (hkind : s.kind = type.kind) (h : Stored env s slot) : Yields env (storedExpr type slot) s := by
  cases slot with
  | field field =>
    obtain ⟨fields, hself, hfield⟩ := h
    refine .inl (eval_member (eval_name hself) ?_)
    rw [fieldOf, hfield]
    rfl
  | elements field =>
    simp only [storedExpr]
    split
    · exact .inl (eval_deref (eval_name h) rfl)
    · next hfloat =>
      refine .inr ⟨?_, eval_name h⟩
      rw [hkind]
      simpa using hfloat

/-- The two statements of a store push the bytes of the scalar. -/
theorem run_store {env : Env} {type : ScalarType} {slot : Slot} {s : Scalar} {output : List UInt8}
    (hkind : s.kind = type.kind) (hstored : Stored env s slot)
    (houtput : env.locals "buf" = some (.bytes output)) :
    ∃ env',
      [.bind "v" type.kind.unsigned.name (bitsExpr type (storedExpr type slot)),
        .effect (appendExpr type.kind)].foldlM Statement.run env = .ok env' ∧
      env'.locals "buf" = some (.bytes (output ++ s.toBytes)) := by
  have hbits := eval_bitsExpr hkind (yields_stored hkind hstored)
  rw [← hkind]
  let bound := env.set "v" (.scalar (.ofBits s.kind.unsigned s.bits))
  have hbind : (Statement.bind "v" s.kind.unsigned.name
      (bitsExpr type (storedExpr type slot))).run env = .ok bound :=
    run_bind (kind?_name env s.kind.unsigned) hbits
  have houtput' : bound.locals "buf" = some (.bytes output) :=
    (env.locals_set_of_ne (by decide) _).trans houtput
  have happend := run_appendExpr (env.locals_set "v" _) houtput'
  refine ⟨bound.set "buf" (.bytes (output ++ s.toBytes)), ?_, bound.locals_set "buf" _⟩
  rw [List.foldlM_cons, hbind]
  exact (congrArg (· >>= pure) happend)

/-! ## Loads and stores -/

/-- The scratch buffer is the variable `buf`, and no longer than the machine can count. -/
def InBuffer (env : Env) (scratch : Scratch) : Prop :=
  env.locals "buf" = some (.bytes scratch.bytes.toList) ∧ scratch.size < wordLimit

/-- A load gives the scalar that the bytes at its place spell. -/
theorem load_eq {scratch : Scratch} {kind : ScalarKind} {place : Nat}
    (h : place + kind.size ≤ scratch.size) :
    scratch.load kind place =
      some (.ofBytes kind (bytesFrom scratch.bytes.toList place kind.size)) := by
  rw [Scratch.load, if_pos h, Array.toList_extract, List.extract_eq_take_drop,
    Nat.add_sub_cancel_left]
  rfl

/-- What is generated for the loads and stores of a type does what a run of the codec does.  The
text of a load is one expression, for a field as for an element, and wherever its alias stands for
its kind, the value is the scalar that a run loads.  A store is two statements, which push the bytes
that a run appends. -/
theorem loads_and_stores {aliases : AliasTable} {name : String} {type : ScalarType}
    (hresolve : aliases.resolve name = .ok type) (hword : IsWord name) :
    (∀ offset, ∃ x,
      expression? (scalarOfBytes type fun index => toString (offset + index)) = some x ∧
      ∀ (env : Env) (scratch : Scratch),
        (type.aliasName = some name → env.types name = some type.kind) → InBuffer env scratch →
        offset + type.size ≤ scratch.size →
          ∃ s, scratch.load type.kind offset = some s ∧ x.eval env = .ok (.scalar s)) ∧
    (∀ offset, ∃ p x, expression? (elementPlace offset type.size) = some p ∧
      expression? (scalarOfBytes type behindPlace) = some x ∧
      ∀ (env : Env) (scratch : Scratch) (index : Nat),
        (type.aliasName = some name → env.types name = some type.kind) → InBuffer env scratch →
        env.locals "i" = some (.number index) →
        offset + index * type.size + type.size ≤ scratch.size →
          ∃ s, scratch.load type.kind (offset + index * type.size) = some s ∧
            p.eval env = .ok (.number (offset + index * type.size)) ∧
            x.eval (env.set "p" (.number (offset + index * type.size))) = .ok (.scalar s)) ∧
    (∀ stores slot, (∀ field, slot = .field field → Text.isIdentifier field = true) →
      ∃ header pattern append first second,
        encodeLines stores (.store slot type) =
          block header [.line pattern, .line append] "\x7d" ∧
        statement? pattern = some first ∧ statement? append = some second ∧
        ∀ (env : Env) (output : List UInt8) (s : Scalar), s.kind = type.kind → Stored env s slot →
          env.locals "buf" = some (.bytes output) →
            ∃ env', [first, second].foldlM Statement.run env = .ok env' ∧
              env'.locals "buf" = some (.bytes (output ++ s.toBytes))) := by
  have hname := isWord_of_resolve hresolve hword
  refine ⟨fun offset => ?_, fun offset => ?_, fun stores slot hslot => ?_⟩
  · refine ⟨_, expression?_of_binds (binds_scalarOfBytes hname fun index => binds_number _ 0), ?_⟩
    rintro env scratch halias ⟨hbuffer, hfits⟩ hreaches
    have hplaces := consecutive_numbers hbuffer hfits hreaches
    exact ⟨_, load_eq hreaches, hplaces.scalar (kind?_of_resolve hresolve halias)⟩
  · refine ⟨_, _, expression?_of_binds (binds_elementPlace offset type.size),
      expression?_of_binds (binds_scalarOfBytes hname binds_behindPlace), ?_⟩
    rintro env scratch index halias ⟨hbuffer, hfits⟩ hindex hreaches
    have hplace := eval_elementExpr hfits hindex type.kind.size_pos hreaches
    have hplaces := consecutive_behind
      (show (env.set "p" (.number (offset + index * type.size))).locals "buf" = _ from hbuffer)
      hfits (env.locals_set "p" _) hreaches
    exact ⟨_, load_eq hreaches, hplace,
      hplaces.scalar (kind?_of_resolve hresolve halias)⟩
  · obtain ⟨header, hlines⟩ := encodeLines_store stores slot type
    refine ⟨header, _, _, _, _, hlines, statement?_patternLine hslot,
      statement?_appendPattern type.kind, fun env output s hkind hstored houtput => ?_⟩
    exact run_store hkind hstored houtput

/-- Temperatures of two bytes. -/
def celsius : AliasTable := .ofList [("Celsius", "i16")]

def celsiusType : ScalarType := ⟨some "Celsius", .i16⟩

def frost : Scalar := .ofInt .i16 (-2)

/-- A generated procedure with the buffer and, if it encodes, a record. -/
def celsiusEnv (buffer : List UInt8) : Env where
  types name := if name = "Celsius" then some .i16 else none
  locals name :=
    if name = "buf" then some (.bytes buffer)
    else if name = "self" then
      some (.record fun field => if field = "low" then some frost else none)
    else none

theorem loads_and_stores_celsius :
    celsius.resolve "Celsius" = .ok celsiusType ∧ IsWord "Celsius" ∧
      (∃ x, expression? (scalarOfBytes celsiusType fun index => toString (1 + index)) = some x ∧
        x.eval (celsiusEnv [7, 0xFE, 0xFF]) = .ok (.scalar frost)) ∧
      ∃ header pattern append first second,
        encodeLines true (.store (.field "low") celsiusType) =
          block header [.line pattern, .line append] "\x7d" ∧
        statement? pattern = some first ∧ statement? append = some second ∧
        ∃ env', [first, second].foldlM Statement.run (celsiusEnv [7]) = .ok env' ∧
          env'.locals "buf" = some (.bytes [7, 0xFE, 0xFF]) := by
  have hresolve : celsius.resolve "Celsius" = .ok celsiusType := by decide
  have hword : IsWord "Celsius" := isWord_of_all (by decide) (by decide)
  obtain ⟨hload, -, hstore⟩ := loads_and_stores hresolve hword
  refine ⟨hresolve, hword, ?_, ?_⟩
  · obtain ⟨x, hread, hvalue⟩ := hload 1
    obtain ⟨s, hs, heval⟩ := hvalue (celsiusEnv [7, 0xFE, 0xFF]) ⟨#[7, 0xFE, 0xFF]⟩ (fun _ => rfl)
      ⟨rfl, by decide⟩ (by decide)
    have hfrost : s = frost := by
      have hexpected : Scratch.load ⟨#[7, 0xFE, 0xFF]⟩ .i16 1 = some frost := by decide
      exact Option.some.inj (hs.symm.trans hexpected)
    exact ⟨x, hread, hfrost ▸ heval⟩
  · obtain ⟨header, pattern, append, first, second, hlines, hpattern, happend, hrun⟩ :=
      hstore true (.field "low") fun _ h => by cases h; decide
    exact ⟨header, pattern, append, first, second, hlines, hpattern, happend,
      hrun (celsiusEnv [7]) [7] frost rfl ⟨_, rfl, rfl⟩ rfl⟩

end Source

end WireCodec
