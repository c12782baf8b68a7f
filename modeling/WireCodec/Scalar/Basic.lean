import WireCodec.Scalar.Kind

/-!
# Scalars

A scalar is a kind with a bit pattern of exactly the kind's width, so that floats keep every bit,
also those of a NaN.  On the wire it is its bytes, the least significant first: `ofBytes_toBytes`
and `toBytes_ofBytes` say that bytes and scalars of a kind stand for each other.
-/

namespace WireCodec

/-! ## Little-endian bytes -/

/-- The number of values that so many bytes can spell. -/
def byteRange (count : Nat) : Nat := 1 <<< (8 * count)

/-- The lowest bytes of a number, the least significant first. -/
def lowBytes : Nat → Nat → List UInt8
  | 0, _ => []
  | count + 1, n => UInt8.ofNat (n % 256) :: lowBytes count (n / 256)

def ofLowBytes : List UInt8 → Nat
  | [] => 0
  | b :: rest => b.toNat + 256 * ofLowBytes rest

theorem byteRange_pos (count : Nat) : 0 < byteRange count := by
  rw [byteRange, Nat.one_shiftLeft]
  exact Nat.two_pow_pos _

theorem byteRange_succ (count : Nat) : byteRange (count + 1) = 256 * byteRange count := by
  rw [byteRange, byteRange, Nat.one_shiftLeft, Nat.one_shiftLeft, Nat.mul_succ, Nat.pow_add,
    Nat.mul_comm]

@[simp] theorem length_lowBytes (count n : Nat) : (lowBytes count n).length = count := by
  induction count generalizing n with
  | zero => rfl
  | succ count ih => simp [lowBytes, ih]

/-- Reading the low bytes of a number back drops what is above them. -/
theorem ofLowBytes_lowBytes (count n : Nat) :
    ofLowBytes (lowBytes count n) = n % byteRange count := by
  induction count generalizing n with
  | zero => exact (Nat.mod_one n).symm
  | succ count ih =>
    have h : (UInt8.ofNat (n % 256)).toNat = n % 256 := by simp
    rw [lowBytes, ofLowBytes, ih, h, byteRange_succ, Nat.mod_mul]

/-- Bytes are the low bytes of the number they spell. -/
theorem lowBytes_ofLowBytes (bytes : List UInt8) :
    lowBytes bytes.length (ofLowBytes bytes) = bytes := by
  induction bytes with
  | nil => rfl
  | cons b rest ih =>
    have hb : b.toNat < 256 := b.toNat_lt
    have h₁ : (b.toNat + 256 * ofLowBytes rest) % 256 = b.toNat := by omega
    have h₂ : (b.toNat + 256 * ofLowBytes rest) / 256 = ofLowBytes rest := by omega
    simp [lowBytes, ofLowBytes, h₁, h₂, ih]

theorem ofLowBytes_lt (bytes : List UInt8) : ofLowBytes bytes < byteRange bytes.length := by
  induction bytes with
  | nil => exact byteRange_pos 0
  | cons b rest ih =>
    have hb : b.toNat < 256 := b.toNat_lt
    rw [ofLowBytes, List.length_cons, byteRange_succ]
    omega

/-! ## Scalars -/

structure Scalar where
  kind : ScalarKind
  /-- The bit pattern as an unsigned number. -/
  bits : Nat
  /-- The pattern has no bit above the kind's width. -/
  bits_lt : bits < byteRange kind.size
  deriving DecidableEq, Repr

namespace Scalar

def ofBits (kind : ScalarKind) (n : Nat) : Scalar :=
  ⟨kind, n % byteRange kind.size, Nat.mod_lt _ (byteRange_pos _)⟩

/-- The scalar that stands for an integer, in two's complement and without what is too high. -/
def ofInt (kind : ScalarKind) (n : Int) : Scalar :=
  ofBits kind (n % byteRange kind.size).toNat

def zero (kind : ScalarKind) : Scalar := ofBits kind 0

instance : Inhabited Scalar := ⟨zero .u8⟩

def toBytes (s : Scalar) : List UInt8 := lowBytes s.kind.size s.bits

def ofBytes (kind : ScalarKind) (bytes : List UInt8) : Scalar := ofBits kind (ofLowBytes bytes)

/-- The value of an unsigned integer; other kinds have none to count with. -/
def count? (s : Scalar) : Option UInt64 :=
  if s.kind.isUnsigned then some (UInt64.ofNat s.bits) else none

def toInt (s : Scalar) : Int :=
  if s.kind.isSigned && byteRange s.kind.size / 2 ≤ s.bits then
    (s.bits : Int) - byteRange s.kind.size
  else s.bits

@[ext] theorem ext {s t : Scalar} (hk : s.kind = t.kind) (hb : s.bits = t.bits) : s = t := by
  cases s
  cases t
  cases hk
  cases hb
  rfl

@[simp] theorem kind_ofBits (kind : ScalarKind) (n : Nat) : (ofBits kind n).kind = kind := rfl

@[simp] theorem kind_ofBytes (kind : ScalarKind) (bytes : List UInt8) :
    (ofBytes kind bytes).kind = kind := rfl

/-- A scalar is rebuilt from its own bits. -/
@[simp] theorem ofBits_bits (s : Scalar) : ofBits s.kind s.bits = s :=
  ext rfl (Nat.mod_eq_of_lt s.bits_lt)

@[simp] theorem length_toBytes (s : Scalar) : s.toBytes.length = s.kind.size :=
  length_lowBytes _ _

/-- Writing a scalar and reading it back gives the same scalar. -/
@[simp] theorem ofBytes_toBytes (s : Scalar) : ofBytes s.kind s.toBytes = s := by
  rw [ofBytes, toBytes, ofLowBytes_lowBytes, Nat.mod_eq_of_lt s.bits_lt, ofBits_bits]

/-- Reading as many bytes as the kind has and writing them gives the same bytes. -/
theorem toBytes_ofBytes (kind : ScalarKind) (bytes : List UInt8) (h : bytes.length = kind.size) :
    (ofBytes kind bytes).toBytes = bytes := by
  have hlt : ofLowBytes bytes < byteRange kind.size := by
    rw [← h]
    exact ofLowBytes_lt bytes
  have hbits : (ofBytes kind bytes).bits = ofLowBytes bytes := Nat.mod_eq_of_lt hlt
  rw [toBytes, kind_ofBytes, hbits, ← h, lowBytes_ofLowBytes]

theorem bits_lt_word (s : Scalar) : s.bits < UInt64.size :=
  Nat.lt_of_lt_of_le s.bits_lt (by cases s.kind <;> decide)

/-- An unsigned integer counts as much as its bits say. -/
theorem toNat_of_count? {s : Scalar} {n : UInt64} (h : s.count? = some n) : n.toNat = s.bits := by
  have hs := s.bits_lt_word
  simp only [count?] at h
  split at h
  · cases h
    simpa using hs
  · cases h

end Scalar

/-! ## Scalar types -/

structure ScalarType where
  /-- The alias by which generated code refers to the kind. -/
  aliasName : Option String
  kind : ScalarKind
  deriving DecidableEq, Repr

namespace ScalarType

/-- The name in generated code: that of the alias, if any. -/
def name (t : ScalarType) : String := t.aliasName.getD t.kind.name

def size (t : ScalarType) : Nat := t.kind.size

end ScalarType

end WireCodec
