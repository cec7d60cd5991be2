import Mathlib.Tactic.Ring

/-!
# Rounded integer quotients

The ceiling of `x / c` for a positive `c` is `(x + c - 1) / c`, as C code writes it. These are
the Galois connections of the floor and of that ceiling with multiplication by `c`, in the form
the exchange proofs chain them.
-/

namespace IntDiv

variable {x q c : ℤ}

/-- The ceiling is at most `q` exactly when `x` is at most `q * c`. -/
theorem ceil_le_iff (hc : 0 < c) : (x + c - 1) / c ≤ q ↔ x ≤ q * c := by
  rw [Int.ediv_le_iff_le_mul hc]
  omega

/-- The ceiling times `c` covers `x`. -/
theorem le_ceil_mul (hc : 0 < c) : x ≤ (x + c - 1) / c * c :=
  (ceil_le_iff hc).1 le_rfl

theorem ceil_nonneg (hx : 0 ≤ x) (hc : 0 < c) : 0 ≤ (x + c - 1) / c :=
  Int.ediv_nonneg (by omega) hc.le

/-- `q` is at most the floor exactly when `q * c` is at most `x`. -/
theorem le_floor_iff (hc : 0 < c) : q ≤ x / c ↔ q * c ≤ x := Int.le_ediv_iff_mul_le hc

/-- The floor times `c` stays within `x`. -/
theorem floor_mul_le (hc : 0 < c) : x / c * c ≤ x := Int.ediv_mul_le x hc.ne'

/-- The floor is at most `q` when `x` is at most `q * c`. -/
theorem floor_le_of_le_mul (hc : 0 < c) (h : x ≤ q * c) : x / c ≤ q := Int.ediv_le_of_le_mul hc h

end IntDiv
