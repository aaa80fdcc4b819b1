import Mathlib.Algebra.Order.Ring.Int
import Mathlib.Data.Nat.Basic

/-!
Arithmetic in two widths. The wider result is the sign extension of the narrow one exactly when
the integer the operation stands for fits the narrow width.
-/

/-- `i` is the value of some vector of `n` bits, read as signed. -/
def Fits (n : Nat) (i : Int) : Prop := -2 ^ (n - 1) ≤ i ∧ i < 2 ^ (n - 1)

instance (n : Nat) (i : Int) : Decidable (Fits n i) := by
  unfold Fits
  infer_instance

namespace Fits

variable {n m : Nat} {i : Int}

theorem toInt (a : BitVec n) : Fits n a.toInt := ⟨BitVec.le_toInt a, BitVec.toInt_lt⟩

theorem mono (h : n ≤ m) (hi : Fits n i) : Fits m i := by
  have hpow : (2 : Int) ^ (n - 1) ≤ 2 ^ (m - 1) := by
    have := Nat.pow_le_pow_right (n := 2) (by decide) (Nat.sub_le_sub_right h 1)
    exact_mod_cast this
  exact ⟨by have := hi.1; omega, by have := hi.2; omega⟩

theorem bmod_eq_iff (hn : 0 < n) : i.bmod (2 ^ n) = i ↔ Fits n i := by
  obtain ⟨k, rfl⟩ : ∃ k, n = k + 1 := ⟨n - 1, by omega⟩
  have hpow : ((2 ^ (k + 1) : Nat) : Int) = 2 * 2 ^ k := by rw [Nat.pow_succ, Nat.mul_comm]; push_cast; rfl
  have hhalf : ((2 ^ (k + 1) : Nat) : Int) / 2 = 2 ^ k := by omega
  constructor
  · intro h
    have hle := Int.le_bmod (x := i) (m := 2 ^ (k + 1)) (Nat.two_pow_pos _)
    have hlt := Int.bmod_lt (x := i) (m := 2 ^ (k + 1)) (Nat.two_pow_pos _)
    unfold Fits
    simp only [Nat.add_sub_cancel]
    omega
  · rintro ⟨hle, hlt⟩
    simp only [Nat.add_sub_cancel] at hle hlt
    exact Int.bmod_eq_of_le (by omega) (by omega)

theorem of_natAbs_le {j : Nat} (h : j + 1 < n) (hi : i.natAbs ≤ 2 ^ j) : Fits n i := by
  have hpow : 2 ^ j < 2 ^ (n - 1) := Nat.pow_lt_pow_right (by decide) (by omega)
  have : ((2 ^ (n - 1) : Nat) : Int) = 2 ^ (n - 1) := by push_cast; rfl
  unfold Fits
  omega

theorem natAbs_le (hi : Fits n i) : i.natAbs ≤ 2 ^ (n - 1) := by
  have : ((2 ^ (n - 1) : Nat) : Int) = 2 ^ (n - 1) := by push_cast; rfl
  unfold Fits at hi
  omega

theorem add_sub {j : Int} (hn : 0 < n) (hi : Fits n i) (hj : Fits n j) :
    Fits (n + 1) (i + j) ∧ Fits (n + 1) (i - j) := by
  obtain ⟨k, rfl⟩ : ∃ k, n = k + 1 := ⟨n - 1, by omega⟩
  unfold Fits at *
  simp only [Nat.add_sub_cancel, Int.pow_succ] at *
  omega

theorem two_pow_mul_le {a b : Nat} (hn : 0 < n) (ha : a ≤ 2 ^ (n - 1)) (hb : b ≤ 2 ^ (n - 1)) :
    a * b ≤ 2 ^ (2 * n - 2) := by
  calc a * b ≤ 2 ^ (n - 1) * 2 ^ (n - 1) := Nat.mul_le_mul ha hb
    _ = 2 ^ (2 * n - 2) := by rw [← Nat.pow_add]; congr 1; omega

/-- Wrapping commutes with a shift by the width. -/
theorem bmod_two_pow_mul (hn : 0 < n) (i : Int) :
    (2 ^ n * i).bmod (2 ^ (n + n)) = 2 ^ n * i.bmod (2 ^ n) := by
  have hpos : (0 : Int) < 2 ^ n := Int.pow_pos (by decide)
  have hfits : Fits n (i.bmod (2 ^ n)) := (bmod_eq_iff hn).mp Int.bmod_bmod
  have hsplit : (2 : Int) ^ n * i =
      2 ^ n * i.bmod (2 ^ n) + ((2 ^ (n + n) : Nat) : Int) * i.bdiv (2 ^ n) := by
    have := Int.bmod_add_bdiv i (2 ^ n)
    conv => lhs; rw [← this]
    rw [Int.mul_add, Nat.pow_add]
    push_cast
    rw [Int.mul_assoc]
  rw [hsplit, Int.add_mul_bmod_self_left, bmod_eq_iff (by omega)]
  have hhalf : (2 : Int) ^ (n + n - 1) = 2 ^ n * 2 ^ (n - 1) := by
    rw [← Int.pow_add]
    congr 1
    omega
  unfold Fits
  rw [hhalf, ← Int.mul_neg]
  exact ⟨Int.mul_le_mul_of_nonneg_left hfits.1 (Int.le_of_lt hpos),
    Int.mul_lt_mul_of_pos_left hfits.2 hpos⟩

/-- Shifted past its sign, an integer that fits is all sign. -/
theorem shiftRight {k : Nat} (hi : Fits n i) (hk : n - 1 ≤ k) :
    i >>> k = if i < 0 then -1 else 0 := by
  obtain ⟨hle, hlt⟩ := hi.mono (Nat.le_add_of_sub_le hk)
  simp only [Nat.add_sub_cancel] at hle hlt
  rw [Int.shiftRight_eq_div_pow]
  push_cast
  have hpos : (0 : Int) < 2 ^ k := Int.pow_pos (by decide)
  split
  · next hneg =>
      have hge := Int.le_ediv_of_mul_le hpos (a := -1) (b := i) (by omega)
      have := Int.ediv_neg_of_neg_of_pos hneg hpos
      omega
  · exact Int.ediv_eq_zero_of_lt (by omega) (by omega)

end Fits

namespace BitVec

variable {n m : Nat} {x : BitVec m} {y : BitVec n}

theorem eq_signExtend_iff (h : n ≤ m) : x = y.signExtend m ↔ x.toInt = y.toInt := by
  rw [← toInt_inj, toInt_signExtend_of_le h]

/-- An integer wrapped to two widths: the results stand for the same integer when it fits the
narrow one. -/
theorem wrapped_eq_signExtend_iff {i : Int} (hn : 0 < n) (h : n ≤ m) (hi : Fits m i)
    (hx : x.toInt = i.bmod (2 ^ m)) (hy : y.toInt = i.bmod (2 ^ n)) :
    x = y.signExtend m ↔ Fits n i := by
  rw [eq_signExtend_iff h, hx, hy, (Fits.bmod_eq_iff (by omega)).mpr hi, eq_comm]
  exact Fits.bmod_eq_iff hn

theorem eq_signExtend_setWidth_iff (hn : 0 < n) (h : n ≤ m) (x : BitVec m) :
    x = (x.setWidth n).signExtend m ↔ Fits n x.toInt := by
  refine wrapped_eq_signExtend_iff hn h (Fits.toInt x) ?_ ?_
  · exact ((Fits.bmod_eq_iff (by omega)).mpr (Fits.toInt x)).symm
  · rw [← signExtend_eq_setWidth_of_le x h, toInt_signExtend_eq_toInt_bmod_of_le x h]

variable (a b : BitVec n)

theorem neg_signExtend_iff (hn : 0 < n) (h : n < m) :
    -(a.signExtend m) = (-a).signExtend m ↔ Fits n (-a.toInt) := by
  refine wrapped_eq_signExtend_iff hn (Nat.le_of_lt h) ?_ ?_ toInt_neg
  · exact Fits.of_natAbs_le (j := n - 1) (by omega) (by simpa using (Fits.toInt a).natAbs_le)
  · rw [toInt_neg, toInt_signExtend_of_le (Nat.le_of_lt h)]

theorem add_signExtend_iff (hn : 0 < n) (h : n < m) :
    a.signExtend m + b.signExtend m = (a + b).signExtend m ↔ Fits n (a.toInt + b.toInt) := by
  refine wrapped_eq_signExtend_iff hn (Nat.le_of_lt h) ?_ ?_ (toInt_add a b)
  · exact ((Fits.toInt a).add_sub hn (Fits.toInt b)).1.mono h
  · rw [toInt_add, toInt_signExtend_of_le (Nat.le_of_lt h), toInt_signExtend_of_le (Nat.le_of_lt h)]

theorem sub_signExtend_iff (hn : 0 < n) (h : n < m) :
    a.signExtend m - b.signExtend m = (a - b).signExtend m ↔ Fits n (a.toInt - b.toInt) := by
  refine wrapped_eq_signExtend_iff hn (Nat.le_of_lt h) ?_ ?_ toInt_sub
  · exact ((Fits.toInt a).add_sub hn (Fits.toInt b)).2.mono h
  · rw [toInt_sub, toInt_signExtend_of_le (Nat.le_of_lt h), toInt_signExtend_of_le (Nat.le_of_lt h)]

theorem mul_signExtend_iff (hn : 0 < n) (h : 2 * n ≤ m) :
    a.signExtend m * b.signExtend m = (a * b).signExtend m ↔ Fits n (a.toInt * b.toInt) := by
  refine wrapped_eq_signExtend_iff hn (by omega) ?_ ?_ (toInt_mul a b)
  · refine Fits.of_natAbs_le (j := 2 * n - 2) (by omega) ?_
    rw [Int.natAbs_mul]
    exact Fits.two_pow_mul_le hn (Fits.toInt a).natAbs_le (Fits.toInt b).natAbs_le
  · rw [toInt_mul, toInt_signExtend_of_le (by omega), toInt_signExtend_of_le (by omega)]

theorem sdiv_signExtend_iff (hn : 0 < n) (h : n < m) :
    (a.signExtend m).sdiv (b.signExtend m) = (a.sdiv b).signExtend m ↔
      Fits n (a.toInt.tdiv b.toInt) := by
  refine wrapped_eq_signExtend_iff hn (Nat.le_of_lt h) ?_ ?_ (toInt_sdiv a b)
  · refine Fits.of_natAbs_le (j := n - 1) (by omega) ?_
    rw [Int.natAbs_tdiv]
    exact Nat.le_trans (Nat.div_le_self _ _) (Fits.toInt a).natAbs_le
  · rw [toInt_sdiv, toInt_signExtend_of_le (Nat.le_of_lt h), toInt_signExtend_of_le (Nat.le_of_lt h)]

theorem srem_signExtend (h : n ≤ m) :
    (a.signExtend m).srem (b.signExtend m) = (a.srem b).signExtend m := by
  rw [eq_signExtend_iff h, toInt_srem, toInt_srem, toInt_signExtend_of_le h,
    toInt_signExtend_of_le h]

theorem slt_signExtend (h : n ≤ m) : (a.signExtend m).slt (b.signExtend m) = a.slt b := by
  rw [slt_eq_decide, slt_eq_decide, toInt_signExtend_of_le h, toInt_signExtend_of_le h]

theorem sle_signExtend (h : n ≤ m) : (a.signExtend m).sle (b.signExtend m) = a.sle b := by
  rw [sle_eq_decide, sle_eq_decide, toInt_signExtend_of_le h, toInt_signExtend_of_le h]

theorem signExtend_inj (h : n ≤ m) : a.signExtend m = b.signExtend m ↔ a = b := by
  rw [eq_signExtend_iff h, toInt_signExtend_of_le h, toInt_inj]

theorem toInt_shl (k : Nat) : (a <<< k).toInt = (a.toInt * 2 ^ k).bmod (2 ^ n) := by
  rw [toInt_shiftLeft, toInt_eq_toNat_bmod, Int.bmod_mul_bmod, Nat.shiftLeft_eq]
  push_cast
  rfl

theorem shl_signExtend_iff {k : Nat} (hk : k < n) (h : 2 * n ≤ m) :
    a.signExtend m <<< k = (a <<< k).signExtend m ↔ Fits n (a.toInt * 2 ^ k) := by
  refine wrapped_eq_signExtend_iff (by omega) (by omega) ?_ ?_ (toInt_shl a k)
  · refine Fits.of_natAbs_le (j := 2 * n - 2) (by omega) ?_
    rw [Int.natAbs_mul, Int.natAbs_pow]
    exact Fits.two_pow_mul_le (by omega) (Fits.toInt a).natAbs_le
      (Nat.pow_le_pow_right (by decide) (by omega))
  · rw [toInt_shl, toInt_signExtend_of_le (by omega)]

/-- A left shift past the narrow width, which the narrow shift takes modulo that width. -/
theorem shl_high_signExtend_iff {k : Nat} (hk : k < n) (h : m = n + n) :
    a.signExtend m <<< (n + k) = (a <<< k).signExtend m ↔ a <<< k = 0#n := by
  subst h
  have hwide : (a.signExtend (n + n) <<< (n + k)).toInt = 2 ^ n * (a <<< k).toInt := by
    rw [toInt_shl, toInt_shl, toInt_signExtend_of_le (by omega),
      ← Fits.bmod_two_pow_mul (Nat.zero_lt_of_lt hk), Int.pow_add]
    congr 1
    ac_rfl
  have hpow : (2 : Int) ^ 1 ≤ 2 ^ n := by
    exact_mod_cast Nat.pow_le_pow_right (n := 2) (by decide) (by omega : 1 ≤ n)
  rw [eq_signExtend_iff (by omega), hwide, ← toInt_inj, toInt_zero]
  constructor
  · intro heq
    by_contra hne
    have := Int.eq_one_of_mul_eq_self_left hne heq
    omega
  · intro hzero
    rw [hzero, Int.mul_zero]

theorem sshiftRight_signExtend (h : n ≤ m) (k : Nat) :
    (a.signExtend m).sshiftRight k = (a.sshiftRight k).signExtend m := by
  rw [eq_signExtend_iff h, toInt_sshiftRight, toInt_sshiftRight, toInt_signExtend_of_le h]

theorem sshiftRight_high_signExtend_iff (h : n ≤ m) (k : Nat) :
    (a.signExtend m).sshiftRight (n + k) = (a.sshiftRight k).signExtend m ↔
      a.sshiftRight k = a.sshiftRight (n - 1) := by
  rw [eq_signExtend_iff h, toInt_sshiftRight, toInt_sshiftRight, toInt_signExtend_of_le h,
    ← toInt_inj, toInt_sshiftRight, toInt_sshiftRight, (Fits.toInt a).shiftRight (Nat.le_refl _),
    (Fits.toInt a).shiftRight (by omega), eq_comm]

end BitVec
