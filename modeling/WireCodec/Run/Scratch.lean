import WireCodec.Scalar.Basic

/-!
# The scratch buffer

A decoding reads into one buffer that is never cleared: a read overwrites its first bytes, and what
a longer read left behind them stays.  `Holds` says what stands at the front of the buffer.  By
`Holds.load` a scalar taken from inside those bytes does not depend on what is behind them.
-/

namespace WireCodec

structure Scratch where
  bytes : Array UInt8

namespace Scratch

def zeros (size : Nat) : Scratch := ⟨(List.replicate size 0).toArray⟩

def size (s : Scratch) : Nat := s.bytes.size

/-- Makes the buffer longer with zeros, unless it is long enough. -/
def growTo (s : Scratch) (size : Nat) : Scratch :=
  if s.size < size then ⟨s.bytes ++ (List.replicate (size - s.size) 0).toArray⟩ else s

/-- Overwrites bytes from an offset on; the buffer is to reach that far. -/
def fill (s : Scratch) (offset : Nat) (data : List UInt8) : Scratch :=
  ⟨s.bytes.extract 0 offset ++ data.toArray ++ s.bytes.extract (offset + data.length) s.size⟩

/-- The scalar of a kind whose bytes start at an offset, if the buffer reaches behind them. -/
def load (s : Scratch) (kind : ScalarKind) (offset : Nat) : Option Scalar :=
  if offset + kind.size ≤ s.size then
    some (Scalar.ofBytes kind (s.bytes.extract offset (offset + kind.size)).toList)
  else none

theorem size_growTo (s : Scratch) (n : Nat) : (s.growTo n).size = max s.size n := by
  unfold growTo
  split
  · simp only [size, Array.size_append, List.size_toArray, List.length_replicate]
    simp only [size] at *
    omega
  · omega

theorem size_fill (s : Scratch) (offset : Nat) (data : List UInt8)
    (h : offset + data.length ≤ s.size) : (s.fill offset data).size = s.size := by
  simp only [fill, size, Array.size_append, Array.size_extract, List.size_toArray] at *
  omega

def Holds (s : Scratch) (data : List UInt8) : Prop := data <+: s.bytes.toList

theorem holds_nil (s : Scratch) : s.Holds [] := List.nil_prefix

theorem Holds.length_le {s : Scratch} {data : List UInt8} (h : s.Holds data) :
    data.length ≤ s.size := by
  have hle := List.IsPrefix.length_le h
  rwa [Array.length_toList] at hle

theorem Holds.growTo {s : Scratch} {data : List UInt8} (h : s.Holds data) (n : Nat) :
    (s.growTo n).Holds data := by
  unfold Scratch.growTo
  split
  · rw [Holds, Array.toList_append]
    exact List.IsPrefix.trans h (List.prefix_append _ _)
  · exact h

/-- Bytes filled in behind those at the front continue them. -/
theorem Holds.fill {s : Scratch} {front : List UInt8} (h : s.Holds front) (data : List UInt8) :
    (s.fill front.length data).Holds (front ++ data) := by
  obtain ⟨rest, hrest⟩ := h
  have hfront : (s.bytes.extract 0 front.length).toList = front := by
    rw [Array.toList_extract, ← hrest, List.extract_eq_take_drop, Nat.sub_zero, List.drop_zero,
      List.take_left]
  rw [Holds, Scratch.fill, Array.toList_append, Array.toList_append, hfront]
  exact List.prefix_append _ _

/-- A scalar inside the bytes at the front is spelled by those bytes alone. -/
theorem Holds.load {s : Scratch} {data : List UInt8} (h : s.Holds data) {kind : ScalarKind}
    {offset : Nat} (hle : offset + kind.size ≤ data.length) :
    s.load kind offset = some (Scalar.ofBytes kind ((data.drop offset).take kind.size)) := by
  have hsize : offset + kind.size ≤ s.size := Nat.le_trans hle h.length_le
  obtain ⟨rest, hrest⟩ := h
  rw [Scratch.load, if_pos hsize, Array.toList_extract, ← hrest, List.extract_eq_take_drop,
    Nat.add_sub_cancel_left, List.drop_append_of_le_length (by omega),
    List.take_append_of_le_length (by rw [List.length_drop]; omega)]

end Scratch

end WireCodec
