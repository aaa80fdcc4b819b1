import RiceVM.Ops.Lists
import RiceVM.Ops.Power

/-!
Arithmetic on words, bytes and bigs. The second operand is the middle one, or what the destination
holds; a difference, a quotient and a shift are those of the second operand by the first.
-/
namespace RiceVM.Ops
open Exec

/-- The exception of a division by zero. -/
def zeroDivide : String := "zero divide"

def srcByte : VM Byte := do
  let vm ← get
  return vm.readByteAt vm.src vm.immSrc

def midOrDstByte : VM Byte := do
  let vm ← get
  if vm.mid = .none then return vm.readByteAt vm.dst vm.immDst
  else return vm.readByteAt vm.mid vm.immMid

section Shifts

variable {n : Nat}

def wrappingShl (m : BitVec n) (count : Nat) : BitVec n := m <<< (count % n)

/-- `wrapping_shr` of a signed integer. -/
def wrappingShr (m : BitVec n) (count : Nat) : BitVec n := m.sshiftRight (count % n)

/-- `wrapping_shr` of an unsigned integer. -/
def wrappingLsr (m : BitVec n) (count : Nat) : BitVec n := m >>> (count % n)

end Shifts

/-! ### Words -/

/-- Store what `f` makes of the source and the second operand. -/
def wordArith (f : Word → Word → Word) : VM Unit := do
  let s ← srcWord
  let m ← midOrDstWord
  setDstWord (f s m)

/-- The same, unless the source is zero. -/
def wordDivision (f : Word → Word → Word) : VM Unit := do
  let s ← srcWord
  let m ← midOrDstWord
  if s = 0 then raiseException zeroDivide else setDstWord (f s m)

/-- The second operand of an instruction. -/
def secondWord (vm : VmState) : Word :=
  if vm.mid = .none then vm.readWordAt vm.dst vm.immDst else vm.readWordAt vm.mid vm.immMid

theorem midOrDstWord_apply (vm : VmState) : midOrDstWord vm = .ok (secondWord vm) vm := by
  rw [midOrDstWord, secondWord, bind_ok (get_apply vm)]
  split <;> rfl

theorem wordDivision_apply (f : Word → Word → Word) (vm : VmState) :
    wordDivision f vm =
      if vm.readWordAt vm.src vm.immSrc = 0 then raiseException zeroDivide vm
      else setDstWord (f (vm.readWordAt vm.src vm.immSrc) (secondWord vm)) vm := by
  rw [wordDivision, bind_ok (srcWord_apply vm), bind_ok (midOrDstWord_apply vm)]
  split <;> rfl

def opAddw : VM Unit := wordArith fun s m => s + m
def opSubw : VM Unit := wordArith fun s m => m - s
def opMulw : VM Unit := wordArith fun s m => s * m
def opDivw : VM Unit := wordDivision fun s m => m.sdiv s
def opModw : VM Unit := wordDivision fun s m => m.srem s
def opAndw : VM Unit := wordArith fun s m => s &&& m
def opOrw : VM Unit := wordArith fun s m => s ||| m
def opXorw : VM Unit := wordArith fun s m => s ^^^ m
def opShlw : VM Unit := wordArith fun s m => wrappingShl m s.toNat
def opShrw : VM Unit := wordArith fun s m => wrappingShr m s.toNat
def opLsrw : VM Unit := wordArith fun s m => wrappingLsr m s.toNat

/-! ### Bytes, which are unsigned -/

def byteArith (f : Byte → Byte → Byte) : VM Unit := do
  let s ← srcByte
  let m ← midOrDstByte
  setDstByte (f s m)

def byteDivision (f : Byte → Byte → Byte) : VM Unit := do
  let s ← srcByte
  let m ← midOrDstByte
  if s = 0 then raiseException zeroDivide else setDstByte (f s m)

def secondByte (vm : VmState) : Byte :=
  if vm.mid = .none then vm.readByteAt vm.dst vm.immDst else vm.readByteAt vm.mid vm.immMid

theorem midOrDstByte_apply (vm : VmState) : midOrDstByte vm = .ok (secondByte vm) vm := by
  rw [midOrDstByte, secondByte, bind_ok (get_apply vm)]
  split <;> rfl

theorem byteDivision_apply (f : Byte → Byte → Byte) (vm : VmState) :
    byteDivision f vm =
      if vm.readByteAt vm.src vm.immSrc = 0 then raiseException zeroDivide vm
      else setDstByte (f (vm.readByteAt vm.src vm.immSrc) (secondByte vm)) vm := by
  have hsrc : srcByte vm = .ok (vm.readByteAt vm.src vm.immSrc) vm := rfl
  rw [byteDivision, bind_ok hsrc, bind_ok (midOrDstByte_apply vm)]
  split <;> rfl

def opAddb : VM Unit := byteArith fun s m => s + m
def opSubb : VM Unit := byteArith fun s m => m - s
def opMulb : VM Unit := byteArith fun s m => s * m
def opDivb : VM Unit := byteDivision fun s m => m / s
def opModb : VM Unit := byteDivision fun s m => m % s
def opAndb : VM Unit := byteArith fun s m => s &&& m
def opOrb : VM Unit := byteArith fun s m => s ||| m
def opXorb : VM Unit := byteArith fun s m => s ^^^ m
def opShlb : VM Unit := byteArith fun s m => wrappingShl m s.toNat
def opShrb : VM Unit := byteArith fun s m => wrappingLsr m s.toNat

/-! ### Bigs -/

def bigArith (f : Big → Big → Big) : VM Unit := do
  let s ← srcBig
  let m ← midOrDstBig
  setDstBig (f s m)

def bigDivision (f : Big → Big → Big) : VM Unit := do
  let s ← srcBig
  let m ← midOrDstBig
  if s = 0 then raiseException zeroDivide else setDstBig (f s m)

def secondBig (vm : VmState) : Big :=
  if vm.mid = .none then vm.readBigAt vm.dst vm.immDst else vm.readBigAt vm.mid vm.immMid

theorem midOrDstBig_apply (vm : VmState) : midOrDstBig vm = .ok (secondBig vm) vm := by
  rw [midOrDstBig, secondBig, bind_ok (get_apply vm)]
  split <;> rfl

theorem bigDivision_apply (f : Big → Big → Big) (vm : VmState) :
    bigDivision f vm =
      if vm.readBigAt vm.src vm.immSrc = 0 then raiseException zeroDivide vm
      else setDstBig (f (vm.readBigAt vm.src vm.immSrc) (secondBig vm)) vm := by
  have hsrc : srcBig vm = .ok (vm.readBigAt vm.src vm.immSrc) vm := rfl
  rw [bigDivision, bind_ok hsrc, bind_ok (midOrDstBig_apply vm)]
  split <;> rfl

/-- The count of a shift is a word. -/
def bigShift (f : Big → Nat → Big) : VM Unit := do
  let s ← srcWord
  let m ← midOrDstBig
  setDstBig (f m s.toNat)

def opAddl : VM Unit := bigArith fun s m => s + m
def opSubl : VM Unit := bigArith fun s m => m - s
def opMull : VM Unit := bigArith fun s m => s * m
def opDivl : VM Unit := bigDivision fun s m => m.sdiv s
def opModl : VM Unit := bigDivision fun s m => m.srem s
def opAndl : VM Unit := bigArith fun s m => s &&& m
def opOrl : VM Unit := bigArith fun s m => s ||| m
def opXorl : VM Unit := bigArith fun s m => s ^^^ m
def opShll : VM Unit := bigShift wrappingShl
def opShrl : VM Unit := bigShift wrappingShr
def opLsrl : VM Unit := bigShift wrappingLsr

/-! ### Quotients and remainders -/

section Division

variable {n : Nat}

/-- The quotient of a division that rounds towards zero, and its remainder, which has the sign of
the dividend. The quotient wraps where the least number is divided by -1. -/
structure Splits (value : BitVec n → Int) (m s q r : BitVec n) : Prop where
  sum : q * s + r = m
  small : (value r).natAbs < (value s).natAbs
  sign : 0 ≤ value r * value m

theorem tmod_mul_nonneg (a b : Int) : 0 ≤ a.tmod b * a := by
  rcases Int.le_total 0 a with ha | ha
  · exact Int.mul_nonneg (Int.tmod_nonneg b ha) ha
  · have hneg := Int.tmod_nonneg b (Int.neg_nonneg_of_nonpos ha)
    rw [Int.neg_tmod] at hneg
    have hprod := Int.mul_nonneg hneg (Int.neg_nonneg_of_nonpos ha)
    rwa [Int.neg_mul_neg] at hprod

theorem splits_signed {m s : BitVec n} (hs : s ≠ 0) :
    Splits BitVec.toInt m s (m.sdiv s) (m.srem s) := by
  refine ⟨?_, ?_, ?_⟩
  · apply BitVec.eq_of_toInt_eq
    rw [BitVec.toInt_add, BitVec.toInt_mul, BitVec.toInt_sdiv, BitVec.toInt_srem,
      Int.bmod_mul_bmod, Int.bmod_add_bmod, Int.tdiv_mul_add_tmod, BitVec.toInt_bmod_cancel]
  · have hpos : 0 < s.toInt.natAbs :=
      Int.natAbs_pos.mpr fun h => hs (BitVec.eq_of_toInt_eq (h.trans BitVec.toInt_zero.symm))
    rw [BitVec.toInt_srem, Int.natAbs_tmod]
    exact Nat.mod_lt _ hpos
  · rw [BitVec.toInt_srem]
    exact tmod_mul_nonneg _ _

theorem splits_unsigned {m s : BitVec n} (hs : s ≠ 0) :
    Splits (fun v => v.toNat) m s (m / s) (m % s) := by
  refine ⟨?_, ?_, ?_⟩
  · apply BitVec.eq_of_toNat_eq
    have hle : m.toNat / s.toNat * s.toNat + m.toNat % s.toNat = m.toNat :=
      Nat.div_add_mod' _ _
    rw [BitVec.toNat_add, BitVec.toNat_mul, BitVec.toNat_udiv, BitVec.toNat_umod,
      Nat.mod_add_mod, hle, Nat.mod_eq_of_lt m.isLt]
  · have hpos : 0 < s.toNat := Nat.pos_of_ne_zero fun h => hs (BitVec.eq_of_toNat_eq h)
    rw [BitVec.toNat_umod]
    exact Nat.mod_lt _ hpos
  · exact Int.mul_nonneg (Int.natCast_nonneg _) (Int.natCast_nonneg _)

/-- The two instructions of a division are both stopped by a zero, or they store what the dividend
splits into. -/
def DividesInto (vm : VmState) (value : BitVec n → Int) (m s : BitVec n)
    (set : BitVec n → VM Unit) (div mod : VM Unit) : Prop :=
  if s = 0 then div vm = raiseException zeroDivide vm ∧ mod vm = raiseException zeroDivide vm
  else ∃ q r, Splits value m s q r ∧ div vm = set q vm ∧ mod vm = set r vm

theorem dividesInto {vm : VmState} {value : BitVec n → Int} {m s : BitVec n}
    {set : BitVec n → VM Unit} {div mod : VM Unit} {q r : BitVec n}
    (hdiv : div vm = if s = 0 then raiseException zeroDivide vm else set q vm)
    (hmod : mod vm = if s = 0 then raiseException zeroDivide vm else set r vm)
    (h : s ≠ 0 → Splits value m s q r) : DividesInto vm value m s set div mod := by
  rw [DividesInto]
  split
  · rename_i hs
    exact ⟨hdiv.trans (if_pos hs), hmod.trans (if_pos hs)⟩
  · rename_i hs
    exact ⟨q, r, h hs, hdiv.trans (if_neg hs), hmod.trans (if_neg hs)⟩

/-- Division at every width, of words and bigs with their sign and of bytes without. -/
theorem division_splits (vm : VmState) :
    DividesInto vm BitVec.toInt (secondWord vm) (vm.readWordAt vm.src vm.immSrc) setDstWord
      opDivw opModw ∧
    DividesInto vm BitVec.toInt (secondBig vm) (vm.readBigAt vm.src vm.immSrc) setDstBig
      opDivl opModl ∧
    DividesInto vm (fun v => v.toNat) (secondByte vm) (vm.readByteAt vm.src vm.immSrc) setDstByte
      opDivb opModb :=
  ⟨dividesInto (wordDivision_apply _ vm) (wordDivision_apply _ vm) splits_signed,
    dividesInto (bigDivision_apply _ vm) (bigDivision_apply _ vm) splits_signed,
    dividesInto (byteDivision_apply _ vm) (byteDivision_apply _ vm) splits_unsigned⟩

end Division

/-! ### Narrow conversions -/

def opCvtbw : VM Unit := do setDstWord ((← srcByte).setWidth 32)

def opCvtwb : VM Unit := do setDstByte ((← srcWord).setWidth 8)

/-- The low 16 bits of a word, with their sign. -/
def signedShort (w : Word) : Word := (w.setWidth 16).signExtend 32

def opCvtws : VM Unit := do setDstWord (signedShort (← srcWord))

def opCvtsw : VM Unit := do setDstWord (signedShort (← srcWord))

end RiceVM.Ops
