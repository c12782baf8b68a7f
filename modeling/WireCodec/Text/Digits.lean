/-!
# Numerals

Reading a run of digits in a base up to sixteen, and the bound every number on the wire keeps.
-/

namespace WireCodec

/-- One more than the largest size, count or 64-bit value. -/
def wordLimit : Nat := UInt64.size

end WireCodec

namespace WireCodec.Text

/-- The value of a digit; letters of either case stand for ten and above. -/
def digitValue (c : Char) : Option Nat :=
  if '0' ≤ c ∧ c ≤ '9' then some (c.toNat - '0'.toNat)
  else if 'a' ≤ c ∧ c ≤ 'f' then some (c.toNat - 'a'.toNat + 10)
  else if 'A' ≤ c ∧ c ≤ 'F' then some (c.toNat - 'A'.toNat + 10)
  else none

def digitIn (base : Nat) (c : Char) : Option Nat :=
  (digitValue c).filter (· < base)

def readDigits (base : Nat) : List Char → Option Nat
  | [] => none
  | digits => digits.foldlM (fun n c => (digitIn base c).map (n * base + ·)) 0

/-- The number that digits spell, when it is below the limit. -/
def readWord (base : Nat) (digits : List Char) : Option Nat :=
  (readDigits base digits).filter (· < wordLimit)

end WireCodec.Text
