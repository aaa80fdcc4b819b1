import Mathlib.Data.BitVec
import RiceVM.Lib.Wrapping
import RiceVM.Ops.Power
import RiceVM.Views

/-!
The power instructions against integer powers. The product wraps at the width of the base, and a
negative exponent divides one by the wrapped power.
-/
namespace RiceVM
open Exec SquareMultiply Ops

theorem ofInt_pow {w : Nat} (x : BitVec w) (k : Nat) : BitVec.ofInt w (x.toInt ^ k) = x ^ k := by
  induction k with
  | zero =>
      rw [Int.pow_zero, pow_zero]
      rfl
  | succ k ih => rw [Int.pow_succ, BitVec.ofInt_mul, ih, BitVec.ofInt_toInt, pow_succ]

theorem reciprocal_eq {w : Nat} (hw : 1 < w) (r : BitVec w) :
    reciprocal r = BitVec.ofInt w (Int.tdiv 1 r.toInt) := by
  have hone : (1 : BitVec w).toInt = 1 := BitVec.toInt_one hw
  have hnone : (0 : BitVec w).toInt = 0 := BitVec.toInt_zero
  unfold reciprocal
  by_cases hzero : r = 0
  · rw [if_neg (not_not.mpr hzero), hzero, hnone, Int.tdiv_zero]
    rfl
  · rw [if_pos hzero]
    apply BitVec.eq_of_toInt_eq
    rw [BitVec.toInt_sdiv, BitVec.toInt_ofInt, hone]

/-- What an instruction stores for a base and an exponent, over the integers. -/
def integerPower (w : Nat) (x n : Int) : BitVec w :=
  let r := BitVec.ofInt w (x ^ n.natAbs)
  if 0 ≤ n then r else .ofInt w (Int.tdiv 1 r.toInt)

theorem power_eq {w : Nat} (hw : 1 < w) (x : BitVec w) (n : Word) :
    power x n = integerPower w x.toInt n.toInt := by
  have hloop : powLoop 1 x n.toInt.natAbs = BitVec.ofInt w (x.toInt ^ n.toInt.natAbs) := by
    rw [ofInt_pow, ← one_mul (x ^ n.toInt.natAbs)]
    exact powLoop_eq 1 x n.toInt.natAbs
  have hsign : n.msb = decide (n.toInt < 0) := BitVec.msb_eq_toInt
  unfold power integerPower
  rw [hloop, hsign]
  by_cases hneg : n.toInt < 0
  · rw [decide_eq_true hneg, if_pos rfl, if_neg (by omega), reciprocal_eq hw]
  · rw [decide_eq_false hneg, if_neg Bool.false_ne_true, if_pos (by omega)]

theorem one_tdiv (y : Int) : Int.tdiv 1 y = if y.natAbs = 1 then y else 0 := by
  by_cases hone : y.natAbs = 1
  · rw [if_pos hone]
    obtain rfl | rfl := Int.natAbs_eq_iff.mp hone <;> rfl
  · rw [if_neg hone]
    apply Int.natAbs_eq_zero.mp
    rw [Int.natAbs_tdiv]
    change 1 / y.natAbs = 0
    obtain hzero | hlt : y.natAbs = 0 ∨ 1 < y.natAbs := by omega
    · rw [hzero]
    · exact Nat.div_eq_of_lt hlt

/-- What is asked of an instruction: the power itself, or the reciprocal of the power itself. -/
def exactPower (w : Nat) (x n : Int) : BitVec w :=
  .ofInt w (if 0 ≤ n then x ^ n.natAbs else Int.tdiv 1 (x ^ n.natAbs))

/-- Some other power than one of a unit may wrap to a unit; it has that unit for a reciprocal. -/
theorem integerPower_eq_exactPower_iff {w : Nat} (hw : 1 < w) (x n : Int) :
    integerPower w x n = exactPower w x n ↔
      0 ≤ n ∨ x.natAbs = 1 ∨ (BitVec.ofInt w (x ^ n.natAbs)).toInt.natAbs ≠ 1 := by
  unfold integerPower exactPower
  by_cases hn : 0 ≤ n
  · simp only [hn, if_true, true_or]
  have hpos : n.natAbs ≠ 0 := by omega
  have hunit : (x ^ n.natAbs).natAbs = 1 ↔ x.natAbs = 1 := by
    rw [Int.natAbs_pow, Nat.pow_eq_one, or_iff_left hpos]
  simp only [hn, if_false, false_or, one_tdiv, hunit]
  by_cases hx : x.natAbs = 1
  · have hfits : Fits w (x ^ n.natAbs) :=
      .of_natAbs_le (j := 0) hw (Nat.le_of_eq (hunit.mpr hx))
    have hself : (BitVec.ofInt w (x ^ n.natAbs)).toInt = x ^ n.natAbs := by
      rw [BitVec.toInt_ofInt]
      exact (Fits.bmod_eq_iff (by omega)).mpr hfits
    simp only [hself, hunit.mpr hx, hx, if_true, true_or]
  · simp only [hx, if_false, false_or]
    generalize BitVec.ofInt w (x ^ n.natAbs) = r
    by_cases hone : r.toInt.natAbs = 1
    · rw [if_pos hone, BitVec.ofInt_toInt]
      refine iff_of_false (fun hzero => ?_) (fun hne => hne hone)
      have hnone : r.toInt = 0 := by
        rw [hzero]
        exact BitVec.toInt_zero
      rw [hnone] at hone
      exact absurd hone (by decide)
    · rw [if_neg hone]
      exact iff_of_true rfl hone

/-- The base of a power: the middle operand, or what the destination holds. -/
def baseWord (vm : VmState) : Word :=
  if vm.mid = .none then vm.readWordAt vm.dst vm.immDst else vm.readWordAt vm.mid vm.immMid

def baseBig (vm : VmState) : Big :=
  if vm.mid = .none then vm.readBigAt vm.dst vm.immDst else vm.readBigAt vm.mid vm.immMid

theorem opExpw_apply (vm : VmState) :
    opExpw vm = setDstWord
      (integerPower 32 (baseWord vm).toInt (vm.readWordAt vm.src vm.immSrc).toInt) vm := by
  rw [← power_eq (by decide), baseWord, opExpw, bind_ok (srcWord_apply vm), midOrDstWord]
  split
  · next hmid => simp only [bind_apply, get_apply, hmid, if_true, pure_apply]
  · next hmid => simp only [bind_apply, get_apply, hmid, if_false, midWord_apply]

theorem opExpl_apply (vm : VmState) :
    opExpl vm = setDstBig
      (integerPower 64 (baseBig vm).toInt (vm.readWordAt vm.src vm.immSrc).toInt) vm := by
  rw [← power_eq (by decide), baseBig, opExpl, bind_ok (srcWord_apply vm), midOrDstBig]
  split
  · next hmid => simp only [bind_apply, get_apply, hmid, if_true, pure_apply]
  · next hmid => simp only [bind_apply, get_apply, hmid, if_false, pure_apply]

/-- The instructions store the wrapped power, or the quotient of one by it; that is the power
asked for unless a power of no unit has wrapped to a unit. -/
theorem powers_wrapped (vm : VmState) :
    let n := (vm.readWordAt vm.src vm.immSrc).toInt
    let x := (baseWord vm).toInt
    let y := (baseBig vm).toInt
    opExpw vm = setDstWord (integerPower 32 x n) vm ∧
    opExpl vm = setDstBig (integerPower 64 y n) vm ∧
    (integerPower 32 x n = exactPower 32 x n ↔
      0 ≤ n ∨ x.natAbs = 1 ∨ (BitVec.ofInt 32 (x ^ n.natAbs)).toInt.natAbs ≠ 1) ∧
    (integerPower 64 y n = exactPower 64 y n ↔
      0 ≤ n ∨ y.natAbs = 1 ∨ (BitVec.ofInt 64 (y ^ n.natAbs)).toInt.natAbs ≠ 1) :=
  ⟨opExpw_apply vm, opExpl_apply vm, integerPower_eq_exactPower_iff (by decide) _ _,
    integerPower_eq_exactPower_iff (by decide) _ _⟩

/-- The square of the greatest word wraps to one. -/
theorem reciprocal_of_wrapped : ∃ vm vm' : VmState, opExpw vm = .ok () vm' ∧
    (baseWord vm).toInt = 2 ^ 31 - 1 ∧ (vm.readWordAt vm.src vm.immSrc).toInt = -2 ∧
    vm'.readWordAt vm.dst vm.immDst = 1 ∧ exactPower 32 (2 ^ 31 - 1) (-2) = 0 := by
  obtain ⟨vm, vm', hrun, hsrc, hbase, hstored⟩ := exists_run []
    (fun vm => { vm with
      mp := [0, 0, 0, 0], dst := .mp 0, src := .immediate, immSrc := -2
      mid := .immediate, immMid := 0x7fffffff })
    (setDstWord 1)
    (fun vm vm' => vm.readWordAt vm.src vm.immSrc = -2 ∧ baseWord vm = 0x7fffffff ∧
      vm'.readWordAt vm.dst vm.immDst = 1) (by decide +kernel)
  refine ⟨vm, vm', ?_, ?_, ?_, hstored, by decide⟩
  · rw [opExpw_apply, hsrc, hbase]
    exact hrun
  · rw [hbase]
    rfl
  · rw [hsrc]
    rfl

end RiceVM
