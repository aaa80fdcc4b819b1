import RiceVM.Core
import RiceVM.Lib.Buffer

/-!
Words, bigs and bytes in the flat buffers of the machine. A read outside the
buffer gives zero and a write outside it is dropped.
-/
namespace RiceVM.Memory
open Buffer

/-- `isize::MAX`: no allocation is larger. -/
def maxAlloc : Nat := 2 ^ 63 - 1

/-- `vec![0; n]`, which panics beyond the largest allocation. -/
def zeroed (n : Nat) : Option (List Byte) :=
  if n ≤ maxAlloc then some (List.replicate n 0) else none

def readWord (buf : List Byte) (offset : Nat) : Word :=
  if offset + 4 ≤ buf.length then BitVec.ofNat 32 (leNat (slice buf offset 4)) else 0

def writeWord (buf : List Byte) (offset : Nat) (val : Word) : List Byte :=
  if offset + 4 ≤ buf.length then splice buf offset (leBytes 4 val.toNat) else buf

def readBig (buf : List Byte) (offset : Nat) : Big :=
  if offset + 8 ≤ buf.length then BitVec.ofNat 64 (leNat (slice buf offset 8)) else 0

def writeBig (buf : List Byte) (offset : Nat) (val : Big) : List Byte :=
  if offset + 8 ≤ buf.length then splice buf offset (leBytes 8 val.toNat) else buf

def readByte (buf : List Byte) (offset : Nat) : Byte := buf.getD offset 0

def writeByte (buf : List Byte) (offset : Nat) (val : Byte) : List Byte :=
  buf.set offset val

@[simp] theorem length_writeWord (buf : List Byte) (offset : Nat) (val : Word) :
    (writeWord buf offset val).length = buf.length := by
  unfold writeWord
  split
  · exact length_splice (by rwa [length_leBytes])
  · rfl

@[simp] theorem length_writeBig (buf : List Byte) (offset : Nat) (val : Big) :
    (writeBig buf offset val).length = buf.length := by
  unfold writeBig
  split
  · exact length_splice (by rwa [length_leBytes])
  · rfl

@[simp] theorem length_writeByte (buf : List Byte) (offset : Nat) (val : Byte) :
    (writeByte buf offset val).length = buf.length := List.length_set

theorem readWord_writeWord_self {buf : List Byte} {offset : Nat} (val : Word)
    (h : offset + 4 ≤ buf.length) : readWord (writeWord buf offset val) offset = val := by
  have hl : offset + (leBytes 4 val.toNat).length ≤ buf.length := by rwa [length_leBytes]
  have hs := slice_splice_self hl
  rw [length_leBytes] at hs
  rw [readWord, length_writeWord, if_pos h, writeWord, if_pos h, hs, leNat_leBytes]
  apply BitVec.eq_of_toNat_eq
  rw [BitVec.toNat_ofNat]
  have := val.isLt
  omega

/-- Writing one word leaves the words that do not overlap it alone. -/
theorem readWord_writeWord_disjoint {buf : List Byte} {offset at' : Nat} (val : Word)
    (h : at' + 4 ≤ offset ∨ offset + 4 ≤ at') :
    readWord (writeWord buf offset val) at' = readWord buf at' := by
  unfold writeWord
  split
  · next hi =>
      have hl : offset + (leBytes 4 val.toNat).length ≤ buf.length := by rwa [length_leBytes]
      rw [readWord, readWord, length_splice hl,
        slice_splice_disjoint hl (by rwa [length_leBytes])]
  · rfl

theorem readWord_take {buf : List Byte} {offset n : Nat} (h : offset + 4 ≤ n) :
    readWord (buf.take n) offset = readWord buf offset := by
  by_cases hl : offset + 4 ≤ buf.length
  · rw [readWord, readWord, if_pos hl, if_pos (by rw [List.length_take]; omega), slice_take h]
  · rw [readWord, readWord, if_neg hl, if_neg (by rw [List.length_take]; omega)]

theorem readWord_append {buf rest : List Byte} {offset : Nat} (h : offset + 4 ≤ buf.length) :
    readWord (buf ++ rest) offset = readWord buf offset := by
  rw [readWord, readWord, if_pos h, if_pos (by rw [List.length_append]; omega), slice_append h]

theorem readWord_append_right (low buf : List Byte) (offset : Nat) :
    readWord (low ++ buf) (low.length + offset) = readWord buf offset := by
  have hslice : slice (low ++ buf) (low.length + offset) 4 = slice buf offset 4 := by
    rw [slice, slice, List.drop_length_add_append]
  simp only [readWord, List.length_append, hslice, Nat.add_assoc, Nat.add_le_add_iff_left]

theorem writeWord_append_right (low buf : List Byte) (offset : Nat) (val : Word) :
    writeWord (low ++ buf) (low.length + offset) val = low ++ writeWord buf offset val := by
  simp only [writeWord, List.length_append, Nat.add_assoc, Nat.add_le_add_iff_left]
  split
  · exact splice_append_right low buf offset _
  · rfl

theorem writeWord_append_left {buf : List Byte} {offset : Nat} (h : offset + 4 ≤ buf.length)
    (val : Word) (high : List Byte) :
    writeWord (buf ++ high) offset val = writeWord buf offset val ++ high := by
  rw [writeWord, writeWord, if_pos h, if_pos (by rw [List.length_append]; omega)]
  exact splice_append_left (by rwa [length_leBytes]) high

end RiceVM.Memory
