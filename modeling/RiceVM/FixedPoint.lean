import Mathlib.Data.BitVec
import RiceVM.Lib.Wrapping
import RiceVM.Ops.FixedPoint
import RiceVM.Views

/-!
The fixed-point instructions against their definition over the integers. The definition is stated
once for any arithmetic: the unbounded one, and that of the machine, where values wrap at 64 bits
and a shift counts modulo 64.
-/
namespace RiceVM.FixedPoint

/-- What becomes of an intermediate value, what a shift amount counts as, and the bits that
rounding adds before a right shift. -/
structure Arith where
  wrap : Int → Int
  amount : Int → Int
  mask : Int → Int

/-- The bits a right shift drops. -/
def dropped (scale : Int) : Int := if 0 ≤ scale then 0 else 2 ^ (-scale).toNat - 1

def unbounded : Arith := ⟨id, id, dropped⟩

def machine : Arith :=
  ⟨(·.bmod (2 ^ 64)), (·.tmod 64), fun scale => if scale ≤ -63 then 0 else dropped scale⟩

/-- Times a power of two; a negative one divides and rounds down. -/
def shifted (v scale : Int) : Int :=
  if 0 ≤ scale then v * 2 ^ scale.toNat else v / 2 ^ (-scale).toNat

/-- Zero counts as positive. -/
def Differ (x y : Int) : Prop := (0 ≤ x ∧ y < 0) ∨ (x < 0 ∧ 0 ≤ y)

instance (x y : Int) : Decidable (Differ x y) := by
  unfold Differ
  infer_instance

/-- Two rounding flags and a scale, as the rounded variants find them in one word. -/
structure Rounding where
  vnz : Bool
  wnz : Bool
  scale : Int

def Rounding.ofWord (p : Word) : Rounding := ⟨p &&& 2 ≠ 0, p &&& 1 ≠ 0, p.toInt / 4⟩

namespace Arith

variable (A : Arith)

def scaled (v scale : Int) : Int := A.wrap (shifted v (A.amount scale))

/-- Division by a residual, where there is one. -/
def reduced (z a : Int) : Int := if a = 0 then z else A.wrap (z.tdiv a)

def mulx (x y scale : Int) : Int := A.scaled (A.wrap (x * y)) scale

def mulx0 (x y scale a : Int) : Int :=
  if x = 0 ∨ y = 0 then 0 else A.reduced (A.scaled (A.wrap (x * y)) scale) a

/-- What a rounded product is added before its scale and after it. -/
def roundsBefore (x y : Int) (r : Rounding) : Int :=
  if r.wnz ∧ ((¬ r.vnz ∧ ((0 < x ∧ y < 0) ∨ (x < 0 ∧ 0 < y))) ∨
      (r.vnz ∧ ((0 < x ∧ 0 < y) ∨ (x < 0 ∧ y < 0)))) then A.mask r.scale else 0

def roundsAfter (x y a : Int) (r : Rounding) : Int :=
  if r.vnz then (if Differ x y then -(a - 1) else a - 1) else 0

/-- A rounded product before it is divided by the residual. -/
def rounded (x y a : Int) (r : Rounding) : Int :=
  A.wrap (A.scaled (A.wrap (A.wrap (x * y) + A.roundsBefore x y r)) r.scale + roundsAfter x y a r)

def mulx1 (x y a : Int) (r : Rounding) : Int :=
  if x = 0 ∨ y = 0 then 0 else A.reduced (A.rounded x y a r) a

def divx (x y scale : Int) : Int := A.wrap ((A.scaled x scale).tdiv y)

/-- A dividend times the residual, where there is one. -/
def dividend (x b : Int) : Int := if b = 0 then x else A.wrap (x * b)

def divx0 (x y scale b : Int) : Int :=
  if x = 0 then 0 else A.wrap ((A.scaled (A.dividend x b) scale).tdiv y)

/-- A rounded dividend before its scale. -/
def roundedDividend (x b : Int) (r : Rounding) : Int :=
  A.wrap (A.wrap (b * x) + if r.wnz ∧ x ≤ 0 then A.mask r.scale else 0)

def divx1 (x y b : Int) (r : Rounding) : Int :=
  if x = 0 then 0
  else A.wrap (A.wrap ((A.scaled (A.roundedDividend x b r) r.scale).tdiv y) +
    if r.vnz then (if Differ x y then -1 else 1) else 0)

/-- The conversions are products with one. -/
def cvtxx (x scale : Int) : Int := A.mulx x 1 scale

def cvtxx0 (x scale a : Int) : Int := A.mulx0 x 1 scale a

def cvtxx1 (x a : Int) (r : Rounding) : Int := A.mulx1 x 1 a r

end Arith

open Exec Ops

/-! The operations on machine words, read as integers. -/

theorem toInt_toBig (w : Word) : (toBig w).toInt = w.toInt :=
  BitVec.toInt_signExtend_of_le (by decide)

theorem eq_zero_iff {w : Nat} (v : BitVec w) : v = 0 ↔ v.toInt = 0 := by
  constructor
  · rintro rfl
    exact BitVec.toInt_zero
  · intro h
    apply BitVec.eq_of_toInt_eq
    rw [h]
    exact BitVec.toInt_zero.symm

theorem setWidth_eq_ofInt (v : Big) : v.setWidth 32 = BitVec.ofInt 32 v.toInt := by
  apply BitVec.eq_of_toInt_eq
  rw [BitVec.toInt_setWidth, BitVec.toInt_ofInt, BitVec.toInt_eq_toNat_bmod,
    Int.bmod_bmod_of_dvd (by decide)]

theorem bmod_toInt (v : Big) : v.toInt.bmod (2 ^ 64) = v.toInt :=
  (Fits.bmod_eq_iff (by decide)).mpr (Fits.toInt v)

theorem toInt_safeDiv (a b : Big) :
    (safeDiv a b).toInt = (a.toInt.tdiv b.toInt).bmod (2 ^ 64) := by
  unfold safeDiv
  split
  · next h =>
      rw [(eq_zero_iff b).mp h, Int.tdiv_zero]
      exact BitVec.toInt_zero
  · exact BitVec.toInt_sdiv a b

theorem toInt_shiftLeft (v : Big) (k : Nat) :
    (v <<< k).toInt = (v.toInt * 2 ^ k).bmod (2 ^ 64) := by
  rw [BitVec.toInt_shiftLeft, BitVec.toInt_eq_toNat_bmod v, Int.bmod_mul_bmod, Nat.shiftLeft_eq]
  push_cast
  rfl

theorem toInt_sshiftRight (v : Big) (k : Nat) : (v.sshiftRight k).toInt = v.toInt / 2 ^ k := by
  rw [BitVec.toInt_sshiftRight, Int.shiftRight_eq_div_pow]
  push_cast
  rfl

theorem toInt_neg_of_ne {w : Word} (h : w ≠ .intMin 32) : (-w).toInt = -w.toInt :=
  BitVec.toInt_neg_of_ne_intMin h

theorem machine_scaled (v scale : Int) :
    machine.scaled v scale = (shifted v (scale.tmod 64)).bmod (2 ^ 64) := rfl

theorem machine_wrap (v : Int) : machine.wrap v = v.bmod (2 ^ 64) := rfl

theorem toNat_neg {scale : Word} (h : scale ≠ .intMin 32) (hneg : scale.toInt < 0) :
    ((-scale).toNat : Int) = -scale.toInt := by
  have hsign : (-scale).msb = false := by
    rw [BitVec.msb_eq_toInt, toInt_neg_of_ne h]
    exact decide_eq_false (by omega)
  rw [← toInt_neg_of_ne h, BitVec.toInt_eq_toNat_of_msb hsign]

/-- The shift of every scale but the least. -/
theorem applyScale_apply (v : Big) {scale : Word} (h : scale ≠ .intMin 32) (vm : VmState) :
    ∃ z, applyScale v scale vm = .ok z vm ∧ z.toInt = machine.scaled v.toInt scale.toInt := by
  unfold applyScale
  by_cases hsign : 0 ≤ scale.toInt
  · rw [if_pos hsign]
    refine ⟨_, rfl, ?_⟩
    have hnat : (scale.toNat : Int) = scale.toInt := by
      rw [BitVec.toInt_eq_toNat_of_msb]
      rw [BitVec.msb_eq_toInt]
      exact decide_eq_false (by omega)
    have hmod : scale.toInt.tmod 64 = ((scale.toNat % 64 : Nat) : Int) := by
      rw [← hnat]
      rfl
    rw [toInt_shiftLeft, machine_scaled, shifted, hmod, if_pos (Int.natCast_nonneg _),
      Int.toNat_natCast]
  · rw [if_neg hsign, if_neg h]
    refine ⟨_, rfl, ?_⟩
    have hnat := toNat_neg h (Int.not_le.mp hsign)
    have hmod : scale.toInt.tmod 64 = -(((-scale).toNat % 64 : Nat) : Int) := by
      rw [← Int.neg_neg scale.toInt, ← hnat, Int.neg_tmod]
      rfl
    have hshift := toInt_sshiftRight v ((-scale).toNat % 64)
    rw [machine_scaled, hmod, shifted]
    by_cases hzero : (-scale).toNat % 64 = 0
    · rw [hzero] at hshift ⊢
      rw [if_pos (by decide), ← bmod_toInt, hshift]
      simp
    · rw [if_neg (by omega), Int.neg_neg, Int.toNat_natCast, ← hshift, bmod_toInt]

theorem toInt_mul_toBig (x y : Word) :
    (toBig x * toBig y).toInt = machine.wrap (x.toInt * y.toInt) := by
  rw [BitVec.toInt_mul, toInt_toBig, toInt_toBig, machine_wrap]

/-- A conversion is a product with one. -/
theorem wrap_mul_one (x : Word) : machine.wrap (x.toInt * 1) = x.toInt := by
  rw [Int.mul_one, ← toInt_toBig, machine_wrap, bmod_toInt]

theorem toInt_scale (p : Word) : (p.sshiftRight 2).toInt = p.toInt / 4 := by
  rw [BitVec.toInt_sshiftRight, Int.shiftRight_eq_div_pow]
  rfl

/-- A scale that shares its word with two flags is not the least word. -/
theorem scale_ne_intMin (p : Word) : p.sshiftRight 2 ≠ .intMin 32 := by
  intro h
  have hscale := toInt_scale p
  rw [h] at hscale
  have hmin : (BitVec.intMin 32).toInt = -2 ^ 31 := by decide
  have := BitVec.le_toInt p
  omega

theorem toInt_roundingMask {scale : Word} (h : scale ≠ .intMin 32) :
    (roundingMask scale).toInt = machine.mask scale.toInt := by
  have hmask : machine.mask scale.toInt =
      if scale.toInt ≤ -63 then 0 else dropped scale.toInt := rfl
  rw [hmask]
  unfold roundingMask dropped
  by_cases hsign : 0 ≤ scale.toInt
  · rw [if_pos (.inl hsign), if_neg (by omega), if_pos hsign]
    exact BitVec.toInt_zero
  · have hnat := toNat_neg h (Int.not_le.mp hsign)
    by_cases hfar : 63 ≤ (-scale).toNat
    · rw [if_pos (.inr hfar), if_pos (by omega)]
      exact BitVec.toInt_zero
    · rw [if_neg (by omega), if_neg (by omega), if_neg hsign, BitVec.toInt_sub, toInt_shiftLeft,
        ← hnat, Int.toNat_natCast]
      generalize (-scale).toNat = k at hfar
      have hone : (1 : Big).toInt = 1 := rfl
      have hpos : (1 : Int) ≤ 2 ^ k := Int.pow_pos (by decide)
      have hle : (2 : Int) ^ k ≤ 2 ^ 62 := by
        exact_mod_cast Nat.pow_le_pow_right (n := 2) (by decide) (by omega : k ≤ 62)
      have hfits : Fits 64 (2 ^ k) := ⟨by omega, by omega⟩
      have hfits' : Fits 64 (2 ^ k - 1) := ⟨by omega, by omega⟩
      rw [hone, Int.one_mul, (Fits.bmod_eq_iff (by decide)).mpr hfits,
        (Fits.bmod_eq_iff (by decide)).mpr hfits']

/-- A residual less one, of either sign. -/
theorem toInt_residual (a : Word) :
    (toBig a - 1).toInt = a.toInt - 1 ∧ (-(toBig a - 1)).toInt = -(a.toInt - 1) := by
  have hlow := BitVec.le_toInt a
  have hhigh := BitVec.toInt_lt (x := a)
  have hone : (1 : Big).toInt = 1 := rfl
  have hfits : Fits 64 (a.toInt - 1) := ⟨by omega, by omega⟩
  have hfits' : Fits 64 (-(a.toInt - 1)) := ⟨by omega, by omega⟩
  have hsub : (toBig a - 1).toInt = a.toInt - 1 := by
    rw [BitVec.toInt_sub, toInt_toBig, hone, (Fits.bmod_eq_iff (by decide)).mpr hfits]
  refine ⟨hsub, ?_⟩
  rw [BitVec.toInt_neg, hsub, (Fits.bmod_eq_iff (by decide)).mpr hfits']

theorem toBig_eq_zero (w : Word) : toBig w = 0 ↔ w.toInt = 0 := by
  rw [eq_zero_iff, toInt_toBig]

theorem reduced_toInt (z : Big) (a : Word) :
    (if toBig a ≠ 0 then safeDiv z (toBig a) else z).setWidth 32 =
      BitVec.ofInt 32 (machine.reduced z.toInt a.toInt) := by
  rw [Arith.reduced]
  by_cases h : a.toInt = 0
  · rw [if_neg (not_not.mpr ((toBig_eq_zero a).mpr h)), if_pos h, setWidth_eq_ofInt]
  · rw [if_pos (mt (toBig_eq_zero a).mp h), if_neg h, setWidth_eq_ofInt, toInt_safeDiv,
      toInt_toBig, machine_wrap]

/-! The instructions. -/

section
variable (vm : VmState)

def srcOperand : Word := vm.readWordAt vm.src vm.immSrc
def midOperand : Word := vm.readWordAt vm.mid vm.immMid

theorem srcWord_ok : srcWord vm = .ok (srcOperand vm) vm := rfl
theorem midWord_ok : midWord vm = .ok (midOperand vm) vm := rfl

theorem opMulx_apply (hs : readDtmp vm ≠ .intMin 32) :
    opMulx vm = setDstWord (.ofInt 32 (machine.mulx (midOperand vm).toInt (srcOperand vm).toInt
      (readDtmp vm).toInt)) vm := by
  obtain ⟨z, hz, hvalue⟩ := applyScale_apply (toBig (midOperand vm) * toBig (srcOperand vm)) hs vm
  rw [toInt_mul_toBig] at hvalue
  rw [opMulx, bind_ok (srcWord_ok vm), bind_ok (midWord_ok vm), bind_ok (get_apply vm),
    bind_ok hz, setWidth_eq_ofInt, hvalue, Arith.mulx]

theorem opMulx0_apply (hs : readDtmp vm ≠ .intMin 32) :
    opMulx0 vm = setDstWord (.ofInt 32 (machine.mulx0 (midOperand vm).toInt (srcOperand vm).toInt
      (readDtmp vm).toInt (readStmp vm).toInt)) vm := by
  rw [opMulx0, bind_ok (srcWord_ok vm), bind_ok (midWord_ok vm), Arith.mulx0]
  simp only [toBig_eq_zero]
  split
  · rfl
  · obtain ⟨z, hz, hvalue⟩ :=
      applyScale_apply (toBig (midOperand vm) * toBig (srcOperand vm)) hs vm
    rw [toInt_mul_toBig] at hvalue
    rw [bind_ok (get_apply vm), bind_ok (get_apply vm), bind_ok hz, reduced_toInt, hvalue]

theorem opCvtxx_apply (hs : midOperand vm ≠ .intMin 32) :
    opCvtxx vm = setDstWord (.ofInt 32 (machine.cvtxx (srcOperand vm).toInt
      (midOperand vm).toInt)) vm := by
  obtain ⟨z, hz, hvalue⟩ := applyScale_apply (toBig (srcOperand vm)) hs vm
  rw [opCvtxx, bind_ok (srcWord_ok vm), bind_ok (midWord_ok vm), bind_ok hz,
    setWidth_eq_ofInt, hvalue, toInt_toBig, Arith.cvtxx, Arith.mulx, wrap_mul_one]

theorem opCvtxx0_apply (hs : midOperand vm ≠ .intMin 32) :
    opCvtxx0 vm = setDstWord (.ofInt 32 (machine.cvtxx0 (srcOperand vm).toInt
      (midOperand vm).toInt (readStmp vm).toInt)) vm := by
  have hnone : ¬ (1 : Int) = 0 := by decide
  rw [opCvtxx0, bind_ok (srcWord_ok vm), Arith.cvtxx0, Arith.mulx0, wrap_mul_one]
  simp only [toBig_eq_zero, hnone, or_false]
  split
  · rfl
  · obtain ⟨z, hz, hvalue⟩ := applyScale_apply (toBig (srcOperand vm)) hs vm
    rw [bind_ok (get_apply vm), bind_ok (midWord_ok vm), bind_ok hz, reduced_toInt, hvalue,
      toInt_toBig]

theorem opDivx_apply :
    ((srcOperand vm).toInt = 0 → opDivx vm = .error divideFault vm) ∧
    ((srcOperand vm).toInt ≠ 0 → readDtmp vm ≠ .intMin 32 →
      opDivx vm = setDstWord (.ofInt 32 (machine.divx (midOperand vm).toInt
        (srcOperand vm).toInt (readDtmp vm).toInt)) vm) := by
  rw [opDivx, bind_ok (srcWord_ok vm)]
  simp only [toBig_eq_zero]
  refine ⟨fun h => by rw [if_pos h]; rfl, fun h hs => ?_⟩
  obtain ⟨z, hz, hvalue⟩ := applyScale_apply (toBig (midOperand vm)) hs vm
  rw [toInt_toBig] at hvalue
  rw [if_neg h, bind_ok (midWord_ok vm), bind_ok (get_apply vm), bind_ok hz, setWidth_eq_ofInt,
    toInt_safeDiv, toInt_toBig, hvalue, Arith.divx, machine_wrap]

theorem toInt_dividend (x b : Word) :
    (if toBig b ≠ 0 then toBig x * toBig b else toBig x).toInt =
      machine.dividend x.toInt b.toInt := by
  rw [Arith.dividend]
  by_cases h : b.toInt = 0
  · rw [if_neg (not_not.mpr ((toBig_eq_zero b).mpr h)), if_pos h, toInt_toBig]
  · rw [if_pos (mt (toBig_eq_zero b).mp h), if_neg h, toInt_mul_toBig]

theorem opDivx0_apply :
    ((srcOperand vm).toInt = 0 → opDivx0 vm = .error divideFault vm) ∧
    ((srcOperand vm).toInt ≠ 0 → readDtmp vm ≠ .intMin 32 →
      opDivx0 vm = setDstWord (.ofInt 32 (machine.divx0 (midOperand vm).toInt
        (srcOperand vm).toInt (readDtmp vm).toInt (readStmp vm).toInt)) vm) := by
  rw [opDivx0, bind_ok (srcWord_ok vm)]
  simp only [toBig_eq_zero]
  refine ⟨fun h => by rw [if_pos h]; rfl, fun h hs => ?_⟩
  rw [if_neg h, bind_ok (midWord_ok vm), Arith.divx0]
  by_cases hx : (midOperand vm).toInt = 0
  · rw [if_pos hx, if_pos hx]
    rfl
  · have hdividend := toInt_dividend (midOperand vm) (readStmp vm)
    rw [if_neg hx, if_neg hx, bind_ok (get_apply vm), bind_ok (get_apply vm)]
    simp only [ne_eq, toBig_eq_zero] at hdividend ⊢
    obtain ⟨z, hz, hvalue⟩ := applyScale_apply (if ¬ (readStmp vm).toInt = 0 then
      toBig (midOperand vm) * toBig (readStmp vm) else toBig (midOperand vm)) hs vm
    rw [hdividend] at hvalue
    rw [bind_ok hz, setWidth_eq_ofInt, toInt_safeDiv, toInt_toBig, hvalue, machine_wrap]

theorem signsDiffer_iff (x y : Word) : signsDiffer (toBig x) (toBig y) ↔ Differ x.toInt y.toInt := by
  rw [signsDiffer, toInt_toBig, toInt_toBig, Differ]

theorem toInt_mask (p : Word) :
    (roundingMask (p.sshiftRight 2)).toInt = machine.mask (p.toInt / 4) := by
  rw [toInt_roundingMask (scale_ne_intMin p), toInt_scale]

theorem toInt_productBefore (x y p : Word) :
    (productBefore (p &&& 2 ≠ 0) (p &&& 1 ≠ 0) (toBig x) (toBig y) (p.sshiftRight 2)).toInt =
      machine.roundsBefore x.toInt y.toInt (.ofWord p) := by
  rw [productBefore, apply_ite BitVec.toInt, toInt_mask, toInt_toBig, toInt_toBig]
  rfl

theorem toInt_productAfter (x y a p : Word) :
    (productAfter (p &&& 2 ≠ 0) (toBig x) (toBig y) (toBig a)).toInt =
      Arith.roundsAfter x.toInt y.toInt a.toInt (.ofWord p) := by
  simp only [productAfter, apply_ite BitVec.toInt, toInt_residual, signsDiffer_iff]
  rfl

/-- A conversion is added what a product with one is added. -/
theorem toInt_conversionBefore (x p : Word) :
    (conversionBefore (p &&& 2 ≠ 0) (p &&& 1 ≠ 0) (toBig x) (p.sshiftRight 2)).toInt =
      machine.roundsBefore x.toInt 1 (.ofWord p) := by
  rw [conversionBefore, apply_ite BitVec.toInt, toInt_mask, toInt_toBig, Arith.roundsBefore]
  have hpos : (0 : Int) < 1 := by decide
  have hneg : ¬ (1 : Int) < 0 := by decide
  simp only [hpos, hneg, and_true, and_false, or_false, false_or]
  rfl

theorem toInt_conversionAfter (x a p : Word) :
    (conversionAfter (p &&& 2 ≠ 0) (toBig x) (toBig a)).toInt =
      Arith.roundsAfter x.toInt 1 a.toInt (.ofWord p) := by
  have hpos : (0 : Int) ≤ 1 := by decide
  have hneg : ¬ (1 : Int) < 0 := by decide
  simp only [conversionAfter, apply_ite BitVec.toInt, toInt_residual, toInt_toBig,
    Arith.roundsAfter, Differ, hpos, hneg, and_true, and_false, false_or]
  rfl

theorem opMulx1_apply :
    opMulx1 vm = setDstWord (.ofInt 32 (machine.mulx1 (midOperand vm).toInt (srcOperand vm).toInt
      (readStmp vm).toInt (.ofWord (readDtmp vm)))) vm := by
  rw [opMulx1, bind_ok (srcWord_ok vm), bind_ok (midWord_ok vm), bind_ok (get_apply vm),
    bind_ok (get_apply vm), Arith.mulx1]
  simp only [toBig_eq_zero]
  split
  · rfl
  · generalize midOperand vm = x, srcOperand vm = y, readStmp vm = a, readDtmp vm = p
    obtain ⟨z, hz, hvalue⟩ := applyScale_apply (toBig x * toBig y +
      productBefore (p &&& 2 ≠ 0) (p &&& 1 ≠ 0) (toBig x) (toBig y) (p.sshiftRight 2))
      (scale_ne_intMin p) vm
    rw [BitVec.toInt_add, toInt_mul_toBig, toInt_productBefore, toInt_scale] at hvalue
    have hrounded : (z + productAfter (p &&& 2 ≠ 0) (toBig x) (toBig y) (toBig a)).toInt =
        machine.rounded x.toInt y.toInt a.toInt (.ofWord p) := by
      rw [BitVec.toInt_add, hvalue, toInt_productAfter]
      rfl
    have hreduced := reduced_toInt
      (z + productAfter (p &&& 2 ≠ 0) (toBig x) (toBig y) (toBig a)) a
    rw [hrounded] at hreduced
    simp only [ne_eq, toBig_eq_zero] at hreduced ⊢
    rw [bind_ok hz, hreduced]

theorem opDivx1_apply :
    ((srcOperand vm).toInt = 0 → opDivx1 vm = .error divideFault vm) ∧
    ((srcOperand vm).toInt ≠ 0 →
      opDivx1 vm = setDstWord (.ofInt 32 (machine.divx1 (midOperand vm).toInt
        (srcOperand vm).toInt (readStmp vm).toInt (.ofWord (readDtmp vm)))) vm) := by
  rw [opDivx1, bind_ok (srcWord_ok vm)]
  simp only [toBig_eq_zero]
  refine ⟨fun h => by rw [if_pos h]; rfl, fun h => ?_⟩
  rw [if_neg h, bind_ok (midWord_ok vm), bind_ok (get_apply vm), bind_ok (get_apply vm),
    Arith.divx1]
  split
  · rfl
  · generalize midOperand vm = x, srcOperand vm = y, readStmp vm = b, readDtmp vm = p
    have hbefore : (quotientBefore (p &&& 1 ≠ 0) (toBig x) (p.sshiftRight 2)).toInt =
        if (Rounding.ofWord p).wnz ∧ x.toInt ≤ 0 then machine.mask (p.toInt / 4) else 0 := by
      rw [quotientBefore, apply_ite BitVec.toInt, toInt_mask, toInt_toBig]
      rfl
    have hafter : (quotientAfter (p &&& 2 ≠ 0) (toBig x) (toBig y)).toInt =
        if (Rounding.ofWord p).vnz then (if Differ x.toInt y.toInt then -1 else 1) else 0 := by
      simp only [quotientAfter, apply_ite BitVec.toInt, signsDiffer_iff]
      rfl
    obtain ⟨z, hz, hvalue⟩ := applyScale_apply (toBig b * toBig x +
      quotientBefore (p &&& 1 ≠ 0) (toBig x) (p.sshiftRight 2)) (scale_ne_intMin p) vm
    rw [BitVec.toInt_add, toInt_mul_toBig, hbefore, toInt_scale] at hvalue
    rw [bind_ok hz, setWidth_eq_ofInt, BitVec.toInt_add, toInt_safeDiv, toInt_toBig, hvalue, hafter]
    rfl

theorem opCvtxx1_apply :
    opCvtxx1 vm = setDstWord (.ofInt 32 (machine.cvtxx1 (srcOperand vm).toInt
      (readStmp vm).toInt (.ofWord (midOperand vm)))) vm := by
  have hnone : ¬ (1 : Int) = 0 := by decide
  rw [opCvtxx1, bind_ok (srcWord_ok vm), bind_ok (midWord_ok vm), bind_ok (get_apply vm),
    Arith.cvtxx1, Arith.mulx1]
  simp only [toBig_eq_zero, hnone, or_false]
  split
  · rfl
  · generalize srcOperand vm = x, readStmp vm = a, midOperand vm = p
    obtain ⟨z, hz, hvalue⟩ := applyScale_apply (toBig x +
      conversionBefore (p &&& 2 ≠ 0) (p &&& 1 ≠ 0) (toBig x) (p.sshiftRight 2))
      (scale_ne_intMin p) vm
    rw [BitVec.toInt_add, toInt_toBig, toInt_conversionBefore, toInt_scale] at hvalue
    have hrounded : (z + conversionAfter (p &&& 2 ≠ 0) (toBig x) (toBig a)).toInt =
        machine.rounded x.toInt 1 a.toInt (.ofWord p) := by
      rw [BitVec.toInt_add, hvalue, toInt_conversionAfter, Arith.rounded, wrap_mul_one]
      rfl
    have hreduced := reduced_toInt (z + conversionAfter (p &&& 2 ≠ 0) (toBig x) (toBig a)) a
    rw [hrounded] at hreduced
    simp only [ne_eq, toBig_eq_zero] at hreduced ⊢
    rw [bind_ok hz, hreduced]

end

/-! The machine against the unbounded definition. -/

theorem wrap_of_fits {z : Int} (h : Fits 64 z) : machine.wrap z = z :=
  (Fits.bmod_eq_iff (by decide)).mpr h

theorem ofInt_wrap (z : Int) : BitVec.ofInt 32 (machine.wrap z) = .ofInt 32 z := by
  apply BitVec.eq_of_toInt_eq
  rw [BitVec.toInt_ofInt, BitVec.toInt_ofInt, machine_wrap, Int.bmod_bmod_of_dvd (by decide)]

theorem tmod_of_lt {s : Int} (hlow : -64 < s) (hhigh : s < 64) : s.tmod 64 = s := by
  obtain ⟨n, rfl | rfl⟩ := Int.eq_nat_or_neg s
  · exact Int.tmod_eq_of_lt (by omega) hhigh
  · rw [Int.neg_tmod, Int.tmod_eq_of_lt (by omega) (by omega)]

theorem machine_scaled_of_lt {s : Int} (hlow : -64 < s) (hhigh : s < 64) (v : Int) :
    machine.scaled v s = machine.wrap (unbounded.scaled v s) := by
  rw [machine_scaled, tmod_of_lt hlow hhigh]
  rfl

theorem fits_mul (x y : Word) : (x.toInt * y.toInt).natAbs ≤ 2 ^ 62 := by
  rw [Int.natAbs_mul]
  exact Fits.two_pow_mul_le (n := 32) (by decide) (Fits.natAbs_le (Fits.toInt x))
    (Fits.natAbs_le (Fits.toInt y))

theorem wrap_mul (x y : Word) : machine.wrap (x.toInt * y.toInt) = x.toInt * y.toInt :=
  wrap_of_fits (Fits.of_natAbs_le (by decide) (fits_mul x y))

theorem machine_mask {s : Int} (h : -63 < s) : machine.mask s = dropped s := if_neg (by omega)

theorem dropped_bounds {s : Int} (h : -63 < s) : 0 ≤ dropped s ∧ dropped s < 2 ^ 62 := by
  unfold dropped
  split
  · exact ⟨Int.le_refl _, by decide⟩
  · have hpos : (1 : Int) ≤ 2 ^ (-s).toNat := Int.pow_pos (by decide)
    have hle : (2 : Int) ^ (-s).toNat ≤ 2 ^ 62 := by
      exact_mod_cast Nat.pow_le_pow_right (n := 2) (by decide) (by omega : (-s).toNat ≤ 62)
    omega

/-- A product and the bits that round it stay within 64 bits. -/
theorem wrap_mul_add (x y : Word) {w : Int} (hlow : 0 ≤ w) (hhigh : w < 2 ^ 62) :
    machine.wrap (machine.wrap (x.toInt * y.toInt) + w) = x.toInt * y.toInt + w := by
  have := fits_mul x y
  rw [wrap_mul]
  exact wrap_of_fits ⟨by omega, by omega⟩

theorem wrap_wrap_add (z v : Int) : machine.wrap (machine.wrap z + v) = machine.wrap (z + v) :=
  Int.bmod_add_bmod

theorem ofInt_reduced (z a : Int) :
    BitVec.ofInt 32 (machine.reduced z a) = .ofInt 32 (unbounded.reduced z a) := by
  unfold Arith.reduced
  split
  · rfl
  · exact ofInt_wrap _

theorem mulx_exact (x y : Word) {s : Int} (hlow : -64 < s) (hhigh : s < 64) :
    BitVec.ofInt 32 (machine.mulx x.toInt y.toInt s) =
      .ofInt 32 (unbounded.mulx x.toInt y.toInt s) := by
  rw [Arith.mulx, wrap_mul, machine_scaled_of_lt hlow hhigh, ofInt_wrap]
  rfl

theorem mulx0_exact (x y : Word) {s : Int} (a : Int) (hlow : -64 < s) (hhigh : s < 64)
    (hfits : Fits 64 (unbounded.mulx x.toInt y.toInt s)) :
    BitVec.ofInt 32 (machine.mulx0 x.toInt y.toInt s a) =
      .ofInt 32 (unbounded.mulx0 x.toInt y.toInt s a) := by
  unfold Arith.mulx0
  split
  · rfl
  · rw [wrap_mul, machine_scaled_of_lt hlow hhigh]
    change BitVec.ofInt 32 (machine.reduced (machine.wrap (unbounded.mulx x.toInt y.toInt s)) a) = _
    rw [wrap_of_fits hfits, ofInt_reduced]
    rfl

theorem rounded_exact (x y : Word) (a : Int) {r : Rounding} (hlow : -63 < r.scale)
    (hhigh : r.scale < 64) (hfits : Fits 64 (unbounded.rounded x.toInt y.toInt a r)) :
    machine.rounded x.toInt y.toInt a r = unbounded.rounded x.toInt y.toInt a r := by
  have hbefore : machine.roundsBefore x.toInt y.toInt r = unbounded.roundsBefore x.toInt y.toInt r := by
    rw [Arith.roundsBefore, machine_mask hlow]
    rfl
  have hbounds : 0 ≤ unbounded.roundsBefore x.toInt y.toInt r ∧
      unbounded.roundsBefore x.toInt y.toInt r < 2 ^ 62 := by
    unfold Arith.roundsBefore
    split
    · exact dropped_bounds hlow
    · exact ⟨Int.le_refl _, by decide⟩
  rw [Arith.rounded, hbefore, wrap_mul_add x y hbounds.1 hbounds.2,
    machine_scaled_of_lt (by omega) hhigh, wrap_wrap_add]
  exact wrap_of_fits hfits

theorem mulx1_exact (x y : Word) (a : Int) {r : Rounding} (hlow : -63 < r.scale)
    (hhigh : r.scale < 64) (hfits : Fits 64 (unbounded.rounded x.toInt y.toInt a r)) :
    BitVec.ofInt 32 (machine.mulx1 x.toInt y.toInt a r) =
      .ofInt 32 (unbounded.mulx1 x.toInt y.toInt a r) := by
  unfold Arith.mulx1
  split
  · rfl
  · rw [rounded_exact x y a hlow hhigh hfits, ofInt_reduced]

theorem divx_exact (x y : Int) {s : Int} (hlow : -64 < s) (hhigh : s < 64)
    (hfits : Fits 64 (unbounded.scaled x s)) :
    BitVec.ofInt 32 (machine.divx x y s) = .ofInt 32 (unbounded.divx x y s) := by
  rw [Arith.divx, machine_scaled_of_lt hlow hhigh, wrap_of_fits hfits, ofInt_wrap]
  rfl

theorem divx0_exact (x b : Word) (y : Int) {s : Int} (hlow : -64 < s) (hhigh : s < 64)
    (hfits : Fits 64 (unbounded.scaled (unbounded.dividend x.toInt b.toInt) s)) :
    BitVec.ofInt 32 (machine.divx0 x.toInt y s b.toInt) =
      .ofInt 32 (unbounded.divx0 x.toInt y s b.toInt) := by
  have hdividend : machine.dividend x.toInt b.toInt = unbounded.dividend x.toInt b.toInt := by
    rw [Arith.dividend, wrap_mul]
    rfl
  unfold Arith.divx0
  split
  · rfl
  · rw [hdividend, machine_scaled_of_lt hlow hhigh, wrap_of_fits hfits, ofInt_wrap]
    rfl

theorem divx1_exact (x b : Word) (y : Int) {r : Rounding} (hlow : -63 < r.scale)
    (hhigh : r.scale < 64)
    (hfits : Fits 64 (unbounded.scaled (unbounded.roundedDividend x.toInt b.toInt r) r.scale)) :
    BitVec.ofInt 32 (machine.divx1 x.toInt y b.toInt r) =
      .ofInt 32 (unbounded.divx1 x.toInt y b.toInt r) := by
  have hdividend : machine.roundedDividend x.toInt b.toInt r =
      unbounded.roundedDividend x.toInt b.toInt r := by
    have hbounds : 0 ≤ (if r.wnz ∧ x.toInt ≤ 0 then dropped r.scale else 0) ∧
        (if r.wnz ∧ x.toInt ≤ 0 then dropped r.scale else 0) < 2 ^ 62 := by
      split
      · exact dropped_bounds hlow
      · exact ⟨Int.le_refl _, by decide⟩
    rw [Arith.roundedDividend, machine_mask hlow, wrap_mul_add b x hbounds.1 hbounds.2]
    rfl
  unfold Arith.divx1
  split
  · rfl
  · rw [hdividend, machine_scaled_of_lt (by omega) hhigh, wrap_of_fits hfits, wrap_wrap_add,
      ofInt_wrap]
    rfl

inductive FixedOp where
  | mulx
  | mulx0
  | mulx1
  | divx
  | divx0
  | divx1
  | cvtxx
  | cvtxx0
  | cvtxx1
  deriving DecidableEq, Repr

namespace FixedOp

def run : FixedOp → VM Unit
  | mulx => opMulx
  | mulx0 => opMulx0
  | mulx1 => opMulx1
  | divx => opDivx
  | divx0 => opDivx0
  | divx1 => opDivx1
  | cvtxx => opCvtxx
  | cvtxx0 => opCvtxx0
  | cvtxx1 => opCvtxx1

def divides : FixedOp → Prop
  | divx | divx0 | divx1 => True
  | _ => False

/-- The scale shares its word with two rounding flags. -/
def rounds : FixedOp → Prop
  | mulx1 | divx1 | cvtxx1 => True
  | _ => False

/-- The word that holds the scale. -/
def scaleWord (vm : VmState) : FixedOp → Word
  | cvtxx | cvtxx0 | cvtxx1 => midOperand vm
  | _ => readDtmp vm

def scale (op : FixedOp) (vm : VmState) : Int :=
  match op with
  | mulx1 | divx1 | cvtxx1 => (op.scaleWord vm).toInt / 4
  | _ => (op.scaleWord vm).toInt

/-- What an instruction computes, in an arithmetic. -/
def value (A : Arith) (op : FixedOp) (vm : VmState) : Int :=
  let x := (midOperand vm).toInt
  let y := (srcOperand vm).toInt
  let a := (readStmp vm).toInt
  let s := op.scale vm
  let r := Rounding.ofWord (op.scaleWord vm)
  match op with
  | mulx => A.mulx x y s
  | mulx0 => A.mulx0 x y s a
  | mulx1 => A.mulx1 x y a r
  | divx => A.divx x y s
  | divx0 => A.divx0 x y s a
  | divx1 => A.divx1 x y a r
  | cvtxx => A.cvtxx y s
  | cvtxx0 => A.cvtxx0 y s a
  | cvtxx1 => A.cvtxx1 y a r

/-- The value that is divided at the end, for the instructions that divide. -/
def divided (op : FixedOp) (vm : VmState) : Option Int :=
  let x := (midOperand vm).toInt
  let y := (srcOperand vm).toInt
  let a := (readStmp vm).toInt
  let s := op.scale vm
  let r := Rounding.ofWord (op.scaleWord vm)
  match op with
  | mulx | cvtxx => none
  | mulx0 => some (unbounded.mulx x y s)
  | mulx1 => some (unbounded.rounded x y a r)
  | divx => some (unbounded.scaled x s)
  | divx0 => some (unbounded.scaled (unbounded.dividend x a) s)
  | divx1 => some (unbounded.scaled (unbounded.roundedDividend x a r) s)
  | cvtxx0 => some (unbounded.cvtxx y s)
  | cvtxx1 => some (unbounded.rounded y 1 a r)

/-- The shift is less than the width, a rounded one by one more, and 64 bits hold the value that
is divided. -/
structure InRange (op : FixedOp) (vm : VmState) : Prop where
  low : -64 < op.scale vm
  high : op.scale vm < 64
  rounded : op.rounds → -63 < op.scale vm
  fits : ∀ z, op.divided vm = some z → Fits 64 z

end FixedOp

/-- Every instruction completes, the least scale of the variants without rounding apart: it
raises the divide fault for a zero divisor, and otherwise stores the value of the machine's
arithmetic. In range that is the value of the unbounded one. -/
theorem fixedPoint_completes (op : FixedOp) (vm : VmState)
    (hscale : ¬ op.rounds → op.scaleWord vm ≠ .intMin 32) :
    (op.divides → (srcOperand vm).toInt = 0 → op.run vm = .error divideFault vm) ∧
    ((op.divides → (srcOperand vm).toInt ≠ 0) →
      op.run vm = setDstWord (.ofInt 32 (op.value machine vm)) vm) ∧
    (op.InRange vm →
      BitVec.ofInt 32 (op.value machine vm) = .ofInt 32 (op.value unbounded vm)) := by
  have hone : (1 : Word).toInt = 1 := rfl
  cases op with
  | mulx =>
      exact ⟨nofun, fun _ => opMulx_apply vm (hscale nofun),
        fun h => mulx_exact _ _ h.low h.high⟩
  | mulx0 =>
      exact ⟨nofun, fun _ => opMulx0_apply vm (hscale nofun),
        fun h => mulx0_exact _ _ _ h.low h.high (h.fits _ rfl)⟩
  | mulx1 =>
      exact ⟨nofun, fun _ => opMulx1_apply vm,
        fun h => mulx1_exact _ _ _ (h.rounded trivial) h.high (h.fits _ rfl)⟩
  | divx =>
      exact ⟨fun _ => (opDivx_apply vm).1, fun hy => (opDivx_apply vm).2 (hy trivial) (hscale nofun),
        fun h => divx_exact _ _ h.low h.high (h.fits _ rfl)⟩
  | divx0 =>
      exact ⟨fun _ => (opDivx0_apply vm).1,
        fun hy => (opDivx0_apply vm).2 (hy trivial) (hscale nofun),
        fun h => divx0_exact _ _ _ h.low h.high (h.fits _ rfl)⟩
  | divx1 =>
      exact ⟨fun _ => (opDivx1_apply vm).1, fun hy => (opDivx1_apply vm).2 (hy trivial),
        fun h => divx1_exact _ _ _ (h.rounded trivial) h.high (h.fits _ rfl)⟩
  | cvtxx =>
      refine ⟨nofun, fun _ => opCvtxx_apply vm (hscale nofun), fun h => ?_⟩
      have hexact := mulx_exact (srcOperand vm) 1 h.low h.high
      rw [hone] at hexact
      exact hexact
  | cvtxx0 =>
      refine ⟨nofun, fun _ => opCvtxx0_apply vm (hscale nofun), fun h => ?_⟩
      have hexact := mulx0_exact (srcOperand vm) 1 (readStmp vm).toInt h.low h.high
      rw [hone] at hexact
      exact hexact (h.fits _ rfl)
  | cvtxx1 =>
      refine ⟨nofun, fun _ => opCvtxx1_apply vm, fun h => ?_⟩
      have hexact := mulx1_exact (srcOperand vm) 1 (readStmp vm).toInt
        (r := .ofWord (midOperand vm)) (h.rounded trivial) h.high
      rw [hone] at hexact
      exact hexact (h.fits _ rfl)

/-- One instruction that divides by a residual, at a small scale. -/
theorem mulx0_completes : ∃ vm : VmState, opMulx0 vm =
    setDstWord (.ofInt 32 (FixedOp.mulx0.value machine vm)) vm := by
  obtain ⟨vm, vm', -, hscale⟩ := exists_run []
    (fun vm => { vm with src := .immediate, immSrc := 6, mid := .immediate, immMid := 7 }) (pure ())
    (fun vm _ => readDtmp vm ≠ .intMin 32) (by decide +kernel)
  exact ⟨vm, (fixedPoint_completes .mulx0 vm fun _ => hscale).2.1 nofun⟩

/-- A scale of 64 shifts by nothing, and the least scale cannot be negated. -/
theorem scale_wraps :
    (∃ vm vm' : VmState, opCvtxx vm = .ok () vm' ∧ (srcOperand vm).toInt = 5 ∧
      (midOperand vm).toInt = 64 ∧ vm'.readWordAt vm.dst vm.immDst = 5 ∧
      BitVec.ofInt 32 (unbounded.cvtxx 5 64) = 0) ∧
    ∃ vm : VmState, (srcOperand vm).toInt = 5 ∧ (midOperand vm).toInt = -2 ^ 31 ∧
      opCvtxx vm = .panic := by
  constructor
  · obtain ⟨vm, vm', hrun, hsrc, hmid, hstored⟩ := exists_run []
      (fun vm => { vm with
        mp := [0, 0, 0, 0], dst := .mp 0, src := .immediate, immSrc := 5
        mid := .immediate, immMid := 64 }) opCvtxx
      (fun vm vm' => (srcOperand vm).toInt = 5 ∧ (midOperand vm).toInt = 64 ∧
        vm'.readWordAt vm.dst vm.immDst = 5) (by decide +kernel)
    exact ⟨vm, vm', hrun, hsrc, hmid, hstored, by decide⟩
  · obtain ⟨vm, vm', -, hsrc, hmid⟩ := exists_run []
      (fun vm => { vm with
        src := .immediate, immSrc := 5, mid := .immediate, immMid := .intMin 32 }) (pure ())
      (fun vm _ => (srcOperand vm).toInt = 5 ∧ midOperand vm = .intMin 32) (by decide +kernel)
    have hneg : ¬ 0 ≤ (BitVec.intMin 32).toInt := by decide
    refine ⟨vm, hsrc, by rw [hmid]; decide, ?_⟩
    rw [opCvtxx, bind_ok (srcWord_ok vm), bind_ok (midWord_ok vm), hmid, bind_apply, applyScale,
      if_neg hneg, if_pos rfl]
    rfl

end RiceVM.FixedPoint
