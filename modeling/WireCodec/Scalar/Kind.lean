/-!
# Scalar kinds

The ten kinds of number that can go on the wire, their names and widths, and the primitive names
that look like kinds but have no exact width there.
-/

namespace WireCodec

inductive ScalarKind where
  | u8
  | i8
  | u16
  | i16
  | u32
  | i32
  | u64
  | i64
  | f32
  | f64
  deriving DecidableEq, Repr, Inhabited

inductive Unrepresentable where
  /-- The width depends on the platform. -/
  | platformSized (name : String)
  | noWireForm (name : String)
  deriving DecidableEq, Repr

namespace Unrepresentable

def reason : Unrepresentable → String
  | platformSized name =>
    s!"{name}: type size differs based on platform, please choose an exact-sized one"
  | noWireForm name => s!"{name} has no wire representation"

end Unrepresentable

namespace ScalarKind

def all : List ScalarKind := [u8, i8, u16, i16, u32, i32, u64, i64, f32, f64]

def name : ScalarKind → String
  | u8 => "u8"
  | i8 => "i8"
  | u16 => "u16"
  | i16 => "i16"
  | u32 => "u32"
  | i32 => "i32"
  | u64 => "u64"
  | i64 => "i64"
  | f32 => "f32"
  | f64 => "f64"

def size : ScalarKind → Nat
  | u8 | i8 => 1
  | u16 | i16 => 2
  | u32 | i32 | f32 => 4
  | u64 | i64 | f64 => 8

def bitWidth (k : ScalarKind) : Nat := 8 * k.size

def isInteger : ScalarKind → Bool
  | f32 | f64 => false
  | _ => true

def isSigned : ScalarKind → Bool
  | i8 | i16 | i32 | i64 => true
  | _ => false

def isUnsigned (k : ScalarKind) : Bool := k.isInteger && !k.isSigned

def unsigned (k : ScalarKind) : ScalarKind :=
  match k.size with
  | 1 => u8
  | 2 => u16
  | 4 => u32
  | _ => u64

/-- The kind that a name stands for.  A name that is no primitive stands for none and may be an
alias; the primitives without a wire form are refused. -/
def lookup (name : String) : Except Unrepresentable (Option ScalarKind) :=
  match name with
  | "u8" => .ok u8
  | "i8" => .ok i8
  | "u16" => .ok u16
  | "i16" => .ok i16
  | "u32" => .ok u32
  | "i32" => .ok i32
  | "u64" => .ok u64
  | "i64" => .ok i64
  | "f32" => .ok f32
  | "f64" => .ok f64
  | "usize" | "isize" => .error (.platformSized name)
  | "bool" | "char" | "str" | "String" | "u128" | "i128" => .error (.noWireForm name)
  | _ => .ok none

def isKindName (name : String) : Bool :=
  match lookup name with
  | .ok (some _) => true
  | _ => false

/-- Every kind is found by its own name. -/
@[simp] theorem lookup_name (k : ScalarKind) : lookup k.name = .ok (some k) := by
  cases k <;> rfl

theorem name_injective {j k : ScalarKind} (h : j.name = k.name) : j = k := by
  have := lookup_name j
  rw [h, lookup_name] at this
  simpa using this.symm

theorem size_pos (k : ScalarKind) : 0 < k.size := by
  cases k <;> decide

theorem size_le (k : ScalarKind) : k.size ≤ 8 := by
  cases k <;> decide

inductive WidthError where
  | integer (bits : Nat)
  | float (bits : Nat)
  deriving DecidableEq, Repr

/-- The kind of a width in bits; floats do not ask for a sign. -/
def ofWidth (bits : Nat) (integer signed : Bool) : Except WidthError ScalarKind :=
  match bits, integer, signed with
  | 8, true, false => .ok u8
  | 8, true, true => .ok i8
  | 16, true, false => .ok u16
  | 16, true, true => .ok i16
  | 32, true, false => .ok u32
  | 32, true, true => .ok i32
  | 64, true, false => .ok u64
  | 64, true, true => .ok i64
  | 32, false, _ => .ok f32
  | 64, false, _ => .ok f64
  | bits, true, _ => .error (.integer bits)
  | bits, false, _ => .error (.float bits)

theorem ofWidth_bitWidth (k : ScalarKind) :
    ofWidth k.bitWidth k.isInteger k.isSigned = .ok k := by
  cases k <;> rfl

end ScalarKind

end WireCodec
