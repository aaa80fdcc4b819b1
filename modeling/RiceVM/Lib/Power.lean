import Mathlib.Algebra.Group.Basic

/-!
Powers by repeated squaring, from the least significant bit of the exponent on.
-/

namespace SquareMultiply

variable {M : Type}

/-- The loop: `r` has what the bits that were shifted out contribute, `x` the power of two of the
base that the lowest bit left stands for. -/
def powLoop [Mul M] (r x : M) (exp : Nat) : M :=
  let r := if exp % 2 = 1 then r * x else r
  if exp / 2 = 0 then r else powLoop r (x * x) (exp / 2)
termination_by exp
decreasing_by omega

theorem powLoop_eq [Monoid M] (r x : M) (exp : Nat) : powLoop r x exp = r * x ^ exp := by
  induction exp using Nat.strongRecOn generalizing r x with
  | ind exp ih =>
      have hbits : x ^ exp = x ^ (exp % 2) * (x * x) ^ (exp / 2) := by
        rw [← pow_two, ← pow_mul, ← pow_add, Nat.mod_add_div]
      have hlow : (if exp % 2 = 1 then r * x else r) = r * x ^ (exp % 2) := by
        obtain hbit | hbit := Nat.mod_two_eq_zero_or_one exp
        · rw [hbit, if_neg (by decide), pow_zero, mul_one]
        · rw [hbit, if_pos rfl, pow_one]
      rw [powLoop]
      rw [hlow, hbits]
      split
      · next hdone => rw [hdone, pow_zero, mul_one]
      · next hmore =>
          rw [ih (exp / 2) (by omega), mul_assoc]

end SquareMultiply
