import Mathlib.Algebra.Group.Nat.Defs
import WireCodec.Proofs.Aliases.Reached
import WireCodec.Proofs.Target.Evaluation
import WireCodec.Proofs.Target.Reading
import WireCodec.Run.Scratch
import WireCodec.Source.Spelling

/-!
# Generated loads

The text that takes a scalar from the scratch buffer is read back as one expression, whose value is
the scalar that a run of the codec loads there.
-/

namespace WireCodec

/-! ## Bytes of a number -/

/-- So many bytes have so many bits. -/
theorem byteRange_eq (count : Nat) : byteRange count = 2 ^ (8 * count) := Nat.one_shiftLeft _

/-- A byte behind others is the highest of the number that they spell. -/
theorem ofLowBytes_concat (bytes : List UInt8) (b : UInt8) :
    ofLowBytes (bytes ++ [b]) = ofLowBytes bytes + byteRange bytes.length * b.toNat := by
  induction bytes with
  | nil => simp [ofLowBytes, byteRange]
  | cons first rest ih =>
    rw [List.cons_append, ofLowBytes, ih, ofLowBytes, List.length_cons, byteRange_succ,
      Nat.mul_add, Nat.mul_assoc, Nat.add_assoc]

/-- The byte behind others is put in by an or. -/
theorem ofLowBytes_or (bytes : List UInt8) (b : UInt8) :
    ofLowBytes bytes ||| b.toNat <<< (8 * bytes.length) = ofLowBytes (bytes ++ [b]) := by
  have hlt : ofLowBytes bytes < 2 ^ (8 * bytes.length) := by
    rw [← byteRange_eq]
    exact ofLowBytes_lt bytes
  rw [Nat.or_comm, ← Nat.shiftLeft_add_eq_or_of_lt hlt, Nat.shiftLeft_eq, ofLowBytes_concat,
    byteRange_eq, Nat.add_comm, Nat.mul_comm]

theorem ScalarKind.isUnsigned_unsigned (kind : ScalarKind) : kind.unsigned.isUnsigned = true := by
  cases kind <;> rfl

theorem ScalarKind.size_unsigned (kind : ScalarKind) : kind.unsigned.size = kind.size := by
  cases kind <;> rfl

namespace Scalar

theorem ofBits_mod (kind : ScalarKind) (n : Nat) :
    ofBits kind (n % byteRange kind.size) = ofBits kind n :=
  ext rfl (Nat.mod_mod _ _)

/-- An or of two patterns is taken bit by bit, in every kind. -/
theorem ofBits_or (kind : ScalarKind) (m n : Nat) :
    ofBits kind ((ofBits kind m).bits ||| (ofBits kind n).bits) = ofBits kind (m ||| n) := by
  rw [← ofBits_mod kind (m ||| n), byteRange_eq, Nat.or_mod_two_pow, ← byteRange_eq]
  rfl

/-- A byte is no more than its value in any kind. -/
theorem bits_ofBits_byte (kind : ScalarKind) (b : UInt8) :
    (ofBits kind b.toNat).bits = b.toNat := by
  have hle : byteRange 1 ≤ byteRange kind.size := by cases kind <;> decide
  exact Nat.mod_eq_of_lt (Nat.lt_of_lt_of_le b.toNat_lt hle)

end Scalar

namespace Source

open Target

/-! ## Types in generated code -/

theorem isWord_kind (kind : ScalarKind) : IsWord kind.name :=
  isWord_of_all (by cases kind <;> decide) (by cases kind <;> decide)

theorem kind?_name (env : Env) (kind : ScalarKind) : env.kind? kind.name = some kind := by
  rw [Env.kind?, ScalarKind.lookup_name]

/-- What a name resolves to can be read, if the name can. -/
theorem isWord_of_resolve {aliases : AliasTable} {name : String} {type : ScalarType}
    (h : aliases.resolve name = .ok type) (hword : IsWord name) : IsWord type.name := by
  obtain ⟨alias?, kind⟩ := type
  cases alias? with
  | none => exact isWord_kind kind
  | some a =>
    obtain ⟨rfl, -⟩ := AliasTable.alias_of_resolve h
    exact hword

/-- What a name resolves to stands for its kind, if its alias does.  No alias hides a kind: names of
kinds are not looked up among the aliases. -/
theorem kind?_of_resolve {aliases : AliasTable} {name : String} {type : ScalarType}
    (h : aliases.resolve name = .ok type) {env : Env}
    (halias : type.aliasName = some name → env.types name = some type.kind) :
    env.kind? type.name = some type.kind := by
  obtain ⟨alias?, kind⟩ := type
  cases alias? with
  | none => exact kind?_name env kind
  | some a =>
    obtain ⟨rfl, -⟩ := AliasTable.alias_of_resolve h
    have hlookup : ScalarKind.lookup a = .ok none := by
      unfold AliasTable.resolve at h
      split at h
      · cases h
      · assumption
      · cases h
    rw [Env.kind?, show ScalarType.name ⟨some a, kind⟩ = a from rfl, hlookup]
    exact halias rfl

/-! ## One byte -/

def byteExpr (place : Expr) : Expr := .index (.name "buf") place

theorem operand_byte {text : String} {place : Expr} (h : Binds 0 text place) :
    Operand ("buf[" ++ text ++ "]") (byteExpr place) := by
  have hbuffer : Operand "buf" (.name "buf") := operand_word ⟨by decide, fun _ => rfl⟩ rfl
  have hindex := hbuffer.index h
  rwa [← String.append_assoc, ← String.append_assoc] at hindex

def wideningName (unsigned : ScalarKind) : String := unsigned.name ++ "::from"

theorem operand_widening (unsigned : ScalarKind) :
    Operand (wideningName unsigned) (.name (wideningName unsigned)) := by
  cases unsigned <;> exact operand_word ⟨by decide, fun _ => rfl⟩ rfl

/-- The byte that is `index` places above the lowest, in its place in the word. -/
def shiftedExpr (unsigned : ScalarKind) (place : Nat → Expr) (index : Nat) : Expr :=
  let byte := Expr.call (.name (wideningName unsigned)) [byteExpr (place index)]
  if index = 0 then byte else .binary .shiftLeft byte (.literal (8 * index) "")

theorem binds_number (n : Nat) (level : Nat) : Binds level (toString n) (.literal n "") := by
  have hliteral : Operand (toString n ++ "") (.literal n "") :=
    operand_literal n (by simp) (by simp)
  rw [String.append_empty] at hliteral
  exact hliteral.binds level

/-- A widened and shifted byte is read as one operand of an or. -/
theorem binds_shiftedByte (unsigned : ScalarKind) {byteAt : Nat → String} {place : Nat → Expr}
    {index : Nat} (h : Binds 0 (byteAt index) (place index)) :
    Binds 2 (shiftedByte unsigned byteAt index) (shiftedExpr unsigned place index) := by
  have hbyte := (operand_widening unsigned).call ((operand_byte h).binds 0)
  have hgroup (a b c d t e f : String) :
      a ++ b ++ (c ++ (d ++ t ++ e ++ f)) = a ++ (b ++ c ++ d) ++ t ++ (e ++ f) := by
    simp only [String.append_assoc]
  have hopen : "::from" ++ "(" ++ "buf[" = "::from(buf[" := by decide
  have hclose : "]" ++ ")" = "])" := by decide
  rw [wideningName, hgroup, hopen, hclose] at hbyte
  unfold shiftedByte shiftedExpr wideningName
  simp only [toString]
  split
  · exact hbyte.binds 2
  · have hshift : Spells " << " [.double '<'] := fun _ => rfl
    have hseparates : Separates " << " := separates_of_space rfl
    have hshifted := Binds.binary (hbyte.binds Infix.shiftLeft.level)
      (binds_number (8 * index) (Infix.shiftLeft.level + 1)) hshift hseparates rfl
    rwa [← String.append_assoc] at hshifted

/-! ## Several bytes -/

/-- The or of the parts up to an index. -/
def orExpr (part : Nat → Expr) : Nat → Expr
  | 0 => part 0
  | index + 1 => .binary .or (orExpr part index) (part (index + 1))

/-- Parts with bars between them are read as one or, from the left. -/
theorem binds_orExpr {text : Nat → String} {part : Nat → Expr} {last : Nat}
    (h : ∀ index ≤ last, Binds 2 (text index) (part index)) :
    Binds 1 (String.intercalate " | " ((List.range (last + 1)).map text)) (orExpr part last) := by
  induction last with
  | zero => exact (h 0 (Nat.le_refl 0)).mono (by decide)
  | succ last ih =>
    have hor : Spells " | " [.mark '|'] := fun _ => rfl
    have hseparates : Separates " | " := separates_of_space rfl
    have hleft := ih fun index hle => h index (Nat.le_succ_of_le hle)
    have hright := h (last + 1) (Nat.le_refl _)
    have hnonempty : (List.range (last + 1)).map text ≠ [] := by simp
    rw [List.range_succ, List.map_append, List.map_singleton,
      String.intercalate_append_of_ne_nil hnonempty (List.cons_ne_nil _ _),
      String.intercalate_singleton, String.append_assoc]
    have hlower : Binds Infix.or.level _ (orExpr part last) := hleft
    exact hlower.binary hright hor hseparates rfl

/-- The pattern that the bytes of a scalar spell. -/
def patternExpr (kind : ScalarKind) (place : Nat → Expr) : Expr :=
  if kind.size = 1 then byteExpr (place 0)
  else orExpr (shiftedExpr kind.unsigned place) (kind.size - 1)

theorem binds_patternOfBytes (kind : ScalarKind) {byteAt : Nat → String} {place : Nat → Expr}
    (h : ∀ index, Binds 0 (byteAt index) (place index)) :
    Binds 1 (patternOfBytes kind byteAt) (patternExpr kind place) := by
  unfold patternOfBytes patternExpr
  split
  · exact (operand_byte (h 0)).binds 1
  · -- The text joins the bytes below `size`, the expression stops at the last of them.
    have hsize : kind.size = kind.size - 1 + 1 := by
      have := kind.size_pos
      omega
    rw [hsize]
    exact binds_orExpr fun index _ => binds_shiftedByte kind.unsigned (h index)

/-- A lone byte may be followed by `as` without parentheses. -/
theorem operand_patternOfBytes {kind : ScalarKind} (hsize : kind.size = 1)
    {byteAt : Nat → String} {place : Nat → Expr} (h : Binds 0 (byteAt 0) (place 0)) :
    Operand (patternOfBytes kind byteAt) (patternExpr kind place) := by
  rw [patternOfBytes, if_pos hsize, patternExpr, if_pos hsize]
  exact operand_byte h

/-- The scalar that bytes spell. -/
def scalarExpr (type : ScalarType) (place : Nat → Expr) : Expr :=
  let pattern := patternExpr type.kind place
  if !type.kind.isInteger then
    let float := Expr.call (.name (type.kind.name ++ "::from_bits")) [pattern]
    match type.aliasName with
    | some name => .cast float name
    | none => float
  else if type.name = type.kind.unsigned.name then pattern
  else .cast pattern type.name

/-- The text of a load is read as the scalar that the bytes spell. -/
theorem binds_scalarOfBytes {type : ScalarType} (hword : IsWord type.name) {byteAt : Nat → String}
    {place : Nat → Expr} (h : ∀ index, Binds 0 (byteAt index) (place index)) :
    Binds 0 (scalarOfBytes type byteAt) (scalarExpr type place) := by
  have hpattern := binds_patternOfBytes type.kind h
  unfold scalarOfBytes scalarExpr
  simp only [toString]
  split
  · have hfunction : Operand (type.kind.name ++ "::from_bits")
        (.name (type.kind.name ++ "::from_bits")) := by
      cases type.kind <;> exact operand_word ⟨by decide, fun _ => rfl⟩ rfl
    have hopen : "::from_bits" ++ "(" = "::from_bits(" := by decide
    have hgroup (a b c d e : String) : a ++ b ++ (c ++ (d ++ e)) = a ++ (b ++ c) ++ d ++ e := by
      simp only [String.append_assoc]
    have hfloat := hfunction.call (hpattern.mono (Nat.zero_le 1))
    rw [hgroup, hopen] at hfloat
    cases halias : type.aliasName with
    | some name =>
      have hname : type.name = name := by rw [ScalarType.name, halias, Option.getD_some]
      have hcast := (hfloat.binds castLevel).cast (hname ▸ hword)
      rw [← String.append_assoc] at hcast
      exact hcast.mono (Nat.zero_le _)
    | none => exact hfloat.binds 0
  · split
    · exact hpattern.mono (Nat.zero_le 1)
    · split
      · next hsize =>
        have hcast := ((operand_patternOfBytes hsize (h 0)).binds castLevel).cast hword
        rw [← String.append_assoc] at hcast
        exact hcast.mono (Nat.zero_le _)
      · have hcast := ((hpattern.mono (Nat.zero_le 1)).parens.binds castLevel).cast hword
        have hclose : ")" ++ " as " = ") as " := by decide
        have hgroup (a b c d e : String) : a ++ (b ++ c) ++ (d ++ e) = a ++ b ++ (c ++ d) ++ e := by
          simp only [String.append_assoc]
        rw [hgroup, hclose] at hcast
        exact hcast.mono (Nat.zero_le _)

/-! ## Values -/

/-- The places are those of consecutive bytes in the buffer. -/
structure Consecutive (env : Env) (place : Nat → Expr) (buffer : List UInt8) (start size : Nat) :
    Prop where
  buffer_eq : env.locals "buf" = some (.bytes buffer)
  place_eq : ∀ index < size, (place index).eval env = .ok (.number (start + index))
  reaches : start + size ≤ buffer.length

def bytesFrom (buffer : List UInt8) (start size : Nat) : List UInt8 := (buffer.drop start).take size

theorem bytesFrom_succ {buffer : List UInt8} {start size : Nat} {b : UInt8}
    (h : buffer[start + size]? = some b) :
    bytesFrom buffer start (size + 1) = bytesFrom buffer start size ++ [b] := by
  rw [bytesFrom, List.take_add_one, List.getElem?_drop, h]
  rfl

theorem literalValue_number {n : Nat} (h : n < wordLimit) :
    literalValue n "" = some (.number n) := by
  rw [literalValue, if_pos rfl, if_pos h]

section

variable {env : Env} {place : Nat → Expr} {buffer : List UInt8} {start size : Nat}
  (h : Consecutive env place buffer start size)

include h

theorem Consecutive.byte {index : Nat} (hindex : index < size) :
    ∃ b, buffer[start + index]? = some b ∧
      (byteExpr (place index)).eval env = .ok (.scalar (.ofBits .u8 b.toNat)) := by
  have hin : start + index < buffer.length := by
    have hreaches := h.reaches
    omega
  refine ⟨buffer[start + index], List.getElem?_eq_getElem hin, ?_⟩
  refine eval_index (eval_name h.buffer_eq) (h.place_eq index hindex) ?_
  rw [byteAt, List.getElem?_eq_getElem hin]
  rfl

variable {unsigned : ScalarKind} (hunsigned : unsigned.isUnsigned = true)

include hunsigned

/-- A byte of the buffer, widened and shifted to its place. -/
theorem Consecutive.shifted (hfits : size ≤ unsigned.size) {index : Nat} (hindex : index < size) :
    ∃ b, buffer[start + index]? = some b ∧
      (shiftedExpr unsigned place index).eval env =
        .ok (.scalar (.ofBits unsigned (b.toNat <<< (8 * index)))) := by
  obtain ⟨b, hb, hbyte⟩ := h.byte hindex
  have hwide : (Expr.call (.name (wideningName unsigned)) [byteExpr (place index)]).eval env =
      .ok (.scalar (.ofBits unsigned b.toNat)) := by
    refine eval_function hbyte ?_
    rw [wideningName, applyFunction_widening, widened,
      if_pos ⟨rfl, hunsigned, unsigned.size_pos⟩, Scalar.bits_ofBits_byte]
  refine ⟨b, hb, ?_⟩
  unfold shiftedExpr
  dsimp only
  split
  · next hzero => rw [hwide, hzero, Nat.mul_zero, Nat.shiftLeft_zero]
  · have hwidth : 8 * index < unsigned.bitWidth := by
      rw [ScalarKind.bitWidth]
      omega
    have hnumber : literalValue (8 * index) "" = some (.number (8 * index)) := by
      refine literalValue_number ?_
      have hle := unsigned.size_le
      have hlimit : wordLimit = 2 ^ 64 := rfl
      omega
    refine eval_binary hwide (eval_literal hnumber) ?_
    rw [applyInfix, if_pos ⟨hunsigned, hwidth⟩, Scalar.kind_ofBits, Scalar.bits_ofBits_byte]

/-- The or of the bytes up to one of them is the number that they spell. -/
theorem Consecutive.pattern (hfits : size ≤ unsigned.size) {last : Nat} (hlast : last < size) :
    (orExpr (shiftedExpr unsigned place) last).eval env =
      .ok (.scalar (.ofBits unsigned (ofLowBytes (bytesFrom buffer start (last + 1))))) := by
  induction last with
  | zero =>
    obtain ⟨b, hb, hshifted⟩ := h.shifted hunsigned hfits hlast
    rw [orExpr, hshifted, bytesFrom_succ hb]
    simp [bytesFrom, ofLowBytes]
  | succ last ih =>
    obtain ⟨b, hb, hshifted⟩ := h.shifted hunsigned hfits hlast
    have hlength : (bytesFrom buffer start (last + 1)).length = last + 1 := by
      have hreaches := h.reaches
      rw [bytesFrom, List.length_take, List.length_drop]
      omega
    have hor := ofLowBytes_or (bytesFrom buffer start (last + 1)) b
    rw [hlength] at hor
    refine eval_binary (ih (Nat.lt_of_succ_lt hlast)) hshifted ?_
    rw [applyInfix, if_pos ⟨hunsigned, rfl⟩, Scalar.kind_ofBits, Scalar.ofBits_or, hor,
      bytesFrom_succ hb]

end

/-- A cast from an unsigned kind that is no narrower keeps the lowest bits. -/
theorem castTo_ofUnsigned {unsigned kind : ScalarKind} (hunsigned : unsigned.isUnsigned = true)
    (hinteger : kind.isInteger = true) (hsize : kind.size ≤ unsigned.size) (n : Nat) :
    castTo kind (.scalar (.ofBits unsigned n)) = some (.scalar (.ofBits kind n)) := by
  rw [ScalarKind.isUnsigned, Bool.and_eq_true, Bool.not_eq_true'] at hunsigned
  have hto : (Scalar.ofBits unsigned n).toInt = ((n % byteRange unsigned.size : Nat) : Int) := by
    rw [Scalar.toInt, Scalar.kind_ofBits, hunsigned.2, Bool.false_and, if_neg Bool.false_ne_true]
    rfl
  have hdvd : byteRange kind.size ∣ byteRange unsigned.size := by
    rw [byteRange_eq, byteRange_eq]
    exact Nat.pow_dvd_pow 2 (Nat.mul_le_mul_left 8 hsize)
  rw [castTo, Scalar.kind_ofBits, if_pos ⟨hunsigned.1, hinteger⟩, hto, Scalar.ofInt,
    ← Int.natCast_emod, Int.toNat_natCast, Nat.mod_mod_of_dvd _ hdvd, Scalar.ofBits_mod]

/-- The float of the bits keeps them. -/
theorem ofFloatBits_unsigned {kind : ScalarKind} (hfloat : kind.isInteger = false) (n : Nat) :
    ofFloatBits kind (.ofBits kind.unsigned n) = some (.scalar (.ofBits kind n)) := by
  have hbits : Scalar.ofBits kind (Scalar.ofBits kind.unsigned n).bits = .ofBits kind n := by
    rw [← Scalar.ofBits_mod kind n, ← ScalarKind.size_unsigned]
    rfl
  rw [ofFloatBits, if_pos ⟨hfloat, rfl⟩, hbits]

section

variable {env : Env} {place : Nat → Expr} {buffer : List UInt8} {start : Nat}

theorem Consecutive.patternExpr {kind : ScalarKind}
    (h : Consecutive env place buffer start kind.size) :
    (patternExpr kind place).eval env =
      .ok (.scalar (.ofBits kind.unsigned (ofLowBytes (bytesFrom buffer start kind.size)))) := by
  have hpos := kind.size_pos
  unfold Source.patternExpr
  split
  · next hsize =>
    obtain ⟨b, hb, hbyte⟩ := h.byte hpos
    have hunsigned : kind.unsigned = .u8 := by
      revert hsize
      cases kind <;> decide
    rw [hbyte, hunsigned, hsize, bytesFrom_succ hb]
    simp [bytesFrom, ofLowBytes]
  · have hlast := h.pattern (ScalarKind.isUnsigned_unsigned kind)
      (Nat.le_of_eq (ScalarKind.size_unsigned kind).symm) (Nat.sub_lt hpos Nat.one_pos)
    rwa [Nat.sub_add_cancel hpos] at hlast

/-- The expression of a load stands for the scalar in the buffer. -/
theorem Consecutive.scalar {type : ScalarType}
    (hname : env.kind? type.name = some type.kind)
    (h : Consecutive env place buffer start type.kind.size) :
    (scalarExpr type place).eval env =
      .ok (.scalar (.ofBytes type.kind (bytesFrom buffer start type.kind.size))) := by
  have hpattern := h.patternExpr
  unfold scalarExpr
  dsimp only
  split
  · next hfloat =>
    have hkind : type.kind.isInteger = false := by simpa using hfloat
    have hvalue := eval_function hpattern
      ((applyFunction_fromBits type.kind _).trans (ofFloatBits_unsigned hkind _))
    cases halias : type.aliasName with
    | some name =>
      have htype : type.name = name := by rw [ScalarType.name, halias, Option.getD_some]
      refine eval_cast (htype ▸ hname) hvalue ?_
      rw [castTo, Scalar.kind_ofBits, hkind, if_neg (fun h => Bool.false_ne_true h.1), if_pos rfl]
      rfl
    | none => exact hvalue
  · next hinteger =>
    split
    · next hsame =>
      -- Without a cast the name is that of an unsigned kind, so the scalar has this kind itself.
      have hsame : type.kind = type.kind.unsigned := by
        rw [hsame, kind?_name, Option.some.injEq] at hname
        exact hname.symm
      rw [hpattern, ← hsame]
      rfl
    · exact eval_cast hname hpattern
        (castTo_ofUnsigned (ScalarKind.isUnsigned_unsigned _) (by simpa using hinteger)
          (Nat.le_of_eq (ScalarKind.size_unsigned _).symm) _)

end

/-! ## Places -/

/-- The place of the first byte of element `i`. -/
def elementExpr (offset size : Nat) : Expr :=
  let scaled := if size = 1 then .name "i" else Expr.binary .mul (.name "i") (.literal size "")
  if offset = 0 then scaled else .binary .add (.literal offset "") scaled

/-- The place of a byte behind the place `p`. -/
def behindExpr (index : Nat) : Expr :=
  if index = 0 then .name "p" else .binary .add (.name "p") (.literal index "")

theorem binds_elementPlace (offset size : Nat) :
    Binds 0 (elementPlace offset size) (elementExpr offset size) := by
  have helement : Operand "i" (.name "i") := operand_word ⟨by decide, fun _ => rfl⟩ rfl
  have hscaled : Binds (Infix.add.level + 1) (if size = 1 then "i" else s!"i * {size}")
      (if size = 1 then .name "i" else .binary .mul (.name "i") (.literal size "")) := by
    split
    · exact helement.binds _
    · have hmul : Spells " * " [.mark '*'] := fun _ => rfl
      have hproduct := Binds.binary (helement.binds Infix.mul.level)
        (binds_number size (Infix.mul.level + 1)) hmul
        (separates_of_space rfl) rfl
      have hopen : "i" ++ " * " = "i * " := by decide
      rw [← String.append_assoc, hopen] at hproduct
      simp only [toString]
      exact hproduct
  unfold elementPlace elementExpr
  dsimp only
  split
  · exact hscaled.mono (Nat.zero_le _)
  · have hadd : Spells " + " [.mark '+'] := fun _ => rfl
    have hsum := Binds.binary (binds_number offset Infix.add.level) hscaled hadd
      (separates_of_space rfl) rfl
    rw [← String.append_assoc] at hsum
    exact hsum.mono (Nat.zero_le _)

theorem binds_behindPlace (index : Nat) : Binds 0 (behindPlace index) (behindExpr index) := by
  have hplace : Operand "p" (.name "p") := operand_word ⟨by decide, fun _ => rfl⟩ rfl
  unfold behindPlace behindExpr
  split
  · exact hplace.binds 0
  · have hadd : Spells " + " [.mark '+'] := fun _ => rfl
    have hsum := Binds.binary (hplace.binds Infix.add.level)
      (binds_number index (Infix.add.level + 1)) hadd
      (separates_of_space rfl) rfl
    have hopen : "p" ++ " + " = "p + " := by decide
    rw [← String.append_assoc, hopen] at hsum
    exact hsum.mono (Nat.zero_le _)

section

variable {env : Env} {buffer : List UInt8} (hbuffer : env.locals "buf" = some (.bytes buffer))
  (hfits : buffer.length < wordLimit)

include hbuffer hfits

theorem consecutive_numbers {offset size : Nat} (hreaches : offset + size ≤ buffer.length) :
    Consecutive env (fun index => .literal (offset + index) "") buffer offset size where
  buffer_eq := hbuffer
  place_eq index hindex := eval_literal (literalValue_number (by omega))
  reaches := hreaches

theorem consecutive_behind {place size : Nat} (hplace : env.locals "p" = some (.number place))
    (hreaches : place + size ≤ buffer.length) : Consecutive env behindExpr buffer place size where
  buffer_eq := hbuffer
  place_eq index hindex := by
    unfold behindExpr
    split
    · next hzero => rw [hzero, Nat.add_zero, eval_name hplace]
    · have hnumber := literalValue_number (show index < wordLimit by omega)
      refine eval_binary (eval_name hplace) (eval_literal hnumber) ?_
      exact if_pos (show place + index < wordLimit by omega)
  reaches := hreaches

omit hbuffer

/-- The place of an element is its number times the size of an element, behind the offset. -/
theorem eval_elementExpr {index offset size : Nat} (hindex : env.locals "i" = some (.number index))
    (hpos : 0 < size) (hreaches : offset + index * size + size ≤ buffer.length) :
    (elementExpr offset size).eval env = .ok (.number (offset + index * size)) := by
  have hscaled : (if size = 1 then .name "i"
      else Expr.binary .mul (.name "i") (.literal size "") : Expr).eval env =
      .ok (.number (index * size)) := by
    split
    · next hone => rw [hone, Nat.mul_one, eval_name hindex]
    · have hnumber := literalValue_number (show size < wordLimit by omega)
      refine eval_binary (eval_name hindex) (eval_literal hnumber) ?_
      exact if_pos (show index * size < wordLimit by omega)
  unfold elementExpr
  dsimp only
  split
  · next hzero => rw [hscaled, hzero, Nat.zero_add]
  · have hnumber := literalValue_number (show offset < wordLimit by omega)
    refine eval_binary (eval_literal hnumber) hscaled ?_
    exact if_pos (show offset + index * size < wordLimit by omega)

end

end Source

end WireCodec
