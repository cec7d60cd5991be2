import Mathlib.Data.Nat.Bitwise

/-!
# Clearing the low bits of a word

On a `w`-bit word, `v & ~(2^k - 1)` keeps the bits of `v` from `k` up, which rounds `v` down
to a multiple of `2^k`. On natural numbers below `2^w` the complement of `2^k - 1` is
`2^w - 2^k`, and the rounded value is `v - v % 2^k`.
-/

namespace LowBits

/-- The bits from `k` to `w - 1`, as a multiple of `2^k`. -/
theorem two_pow_sub_two_pow {w k : Nat} (hk : k ≤ w) :
    2 ^ w - 2 ^ k = 2 ^ k * (2 ^ (w - k) - 1) := by
  rw [Nat.mul_sub_one, ← Nat.pow_add, Nat.add_sub_cancel' hk]

/-- Clearing the low `k` bits of a word rounds it down to a multiple of `2^k`. -/
theorem land_two_pow_sub_two_pow {v w k : Nat} (hv : v < 2 ^ w) (hk : k ≤ w) :
    v &&& (2 ^ w - 2 ^ k) = v - v % 2 ^ k := by
  have hround : v - v % 2 ^ k = 2 ^ k * (v / 2 ^ k) := by
    have := Nat.div_add_mod v (2 ^ k)
    omega
  rw [two_pow_sub_two_pow hk, hround]
  apply Nat.eq_of_testBit_eq
  intro j
  simp only [Nat.testBit_and, Nat.testBit_two_pow_mul, Nat.testBit_two_pow_sub_one,
    Nat.testBit_div_two_pow]
  by_cases hjk : k ≤ j
  · rw [Nat.sub_add_cancel hjk]
    by_cases hjw : j < w
    · simp [hjk, show j - k < w - k by omega]
    · -- above the word every bit of `v` is clear
      have hbit : v.testBit j = false :=
        Nat.testBit_lt_two_pow (lt_of_lt_of_le hv (Nat.pow_le_pow_right (by decide) (by omega)))
      simp [hbit]
  · simp [show ¬ j ≥ k by omega]

/-- Rounding down to a multiple of a multiple gives no more than rounding down to the
divisor. -/
theorem sub_mod_le_sub_mod {v m n : Nat} (hmn : m ∣ n) : v - v % n ≤ v - v % m := by
  have hmod : v % m ≤ v % n := by
    rw [← Nat.mod_mod_of_dvd v hmn]
    exact Nat.mod_le _ _
  omega

end LowBits
