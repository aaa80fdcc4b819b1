import Mathlib.Logic.Function.Basic

/-!
Memory by words, each under the offset of its first byte. A double word is its low word, and its
high word behind it.
-/

abbrev Words := Nat → BitVec 32

namespace Words

variable (m : Words) (off : Nat)

def set (v : BitVec 32) : Words := Function.update m off v

def low (v : BitVec 64) : BitVec 32 := v.truncate 32

def high (v : BitVec 64) : BitVec 32 := (v >>> 32).truncate 32

def setWide (v : BitVec 64) : Words := (m.set off (low v)).set (off + 4) (high v)

def wide : BitVec 64 := m (off + 4) ++ m off

@[simp] theorem set_self (v : BitVec 32) : m.set off v off = v := by
  rw [set, Function.update_self]

theorem set_other {off other : Nat} (h : other ≠ off) (v : BitVec 32) :
    m.set off v other = m other := by
  rw [set, Function.update_of_ne h]

@[simp] theorem set_set (v w : BitVec 32) : (m.set off v).set off w = m.set off w := by
  rw [set, set, set, Function.update_idem]

@[simp] theorem setWide_self (v : BitVec 64) : m.setWide off v off = low v := by
  rw [setWide, set_other _ (by omega), set_self]

theorem setWide_other {off other : Nat} (h : other ≠ off) (h' : other ≠ off + 4)
    (v : BitVec 64) : m.setWide off v other = m other := by
  rw [setWide, set_other _ h', set_other _ h]

@[simp] theorem wide_setWide (v : BitVec 64) : (m.setWide off v).wide off = v := by
  rw [wide, setWide_self, setWide, set_self]
  refine BitVec.eq_of_getLsbD_eq fun i hi => ?_
  rw [BitVec.getLsbD_append]
  by_cases hlow : i < 32
  · simp [hlow, low]
  · have hback : 32 + (i - 32) = i := by omega
    have hhigh : i - 32 < 32 := by omega
    simp [hlow, high, hback, hhigh]

/-- A double word depends on the words at its two offsets only. -/
theorem wide_congr {m m' : Words} {off : Nat} (hlow : m off = m' off)
    (hhigh : m (off + 4) = m' (off + 4)) : m.wide off = m'.wide off := by
  rw [wide, wide, hlow, hhigh]

end Words
