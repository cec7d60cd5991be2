import Mathlib.Data.BitVec
import Mathlib.Algebra.BigOperators.Group.List.Basic
import Mathlib.Tactic.Positivity

/-!
# Machine words and the integers

A `w`-bit word sums, subtracts and compares as the integer it stands for while that integer
stays in range: as an unsigned word in `[0, 2^w)`, as a signed one in `[-2^(w-1), 2^(w-1))`.
These are the facts that let a proof about `u64` and `s64` code reason over `ℤ` once it has
bounded what the code computes.
-/

namespace Word

variable {w : ℕ}

/-- A word is the integer it stands for unsigned. -/
theorem ofInt_toNat (x : BitVec w) : BitVec.ofInt w (x.toNat : ℤ) = x := by
  simp

theorem ofInt_sub (a b : ℤ) : BitVec.ofInt w (a - b) = BitVec.ofInt w a - BitVec.ofInt w b := by
  rw [sub_eq_add_neg, BitVec.ofInt_add, BitVec.ofInt_neg, BitVec.sub_eq_add_neg]

/-- Reading a sum of integers as a word is summing the words. -/
theorem ofInt_list_sum (l : List ℤ) : BitVec.ofInt w l.sum = (l.map (BitVec.ofInt w)).sum := by
  induction l with
  | nil => simp
  | cons x l ih => simp [BitVec.ofInt_add, ih]

/-- A sum accumulated by a left fold is the start plus the sum. -/
theorem foldl_add {α : Type*} (f : α → BitVec w) (b : BitVec w) (l : List α) :
    l.foldl (fun acc a => acc + f a) b = b + (l.map f).sum := by
  induction l generalizing b with
  | nil => simp
  | cons x l ih => simp [ih, add_assoc]

/-- A word built from an integer in range reads back as that integer. -/
theorem toNat_ofInt_of_lt {a : ℤ} (h0 : 0 ≤ a) (h : a < 2 ^ w) :
    ((BitVec.ofInt w a).toNat : ℤ) = a := by
  rw [BitVec.toNat_ofInt, Int.toNat_of_nonneg (Int.emod_nonneg _ (by positivity))]
  exact Int.emod_eq_of_lt h0 (by exact_mod_cast h)

/-- Signed comparison of two words built from in-range integers is the comparison of the
integers. -/
theorem slt_ofInt_iff {a b : ℤ} (hw : 0 < w) (ha : -2 ^ (w - 1) ≤ a ∧ a < 2 ^ (w - 1))
    (hb : -2 ^ (w - 1) ≤ b ∧ b < 2 ^ (w - 1)) :
    (BitVec.ofInt w a).slt (BitVec.ofInt w b) ↔ a < b := by
  rw [BitVec.slt_iff_toInt_lt, BitVec.toInt_ofInt_eq_self hw ha.1 ha.2,
    BitVec.toInt_ofInt_eq_self hw hb.1 hb.2]

/-- A word built from a nonnegative integer below `2^(w-1)` is not negative. -/
theorem not_slt_zero {a : ℤ} (hw : 0 < w) (h0 : 0 ≤ a) (h : a < 2 ^ (w - 1)) :
    ¬(BitVec.ofInt w a).slt 0 := by
  have hp : (0 : ℤ) < 2 ^ (w - 1) := by positivity
  have hz : (0 : BitVec w) = BitVec.ofInt w 0 := by simp
  rw [hz, slt_ofInt_iff hw ⟨by omega, h⟩ ⟨by omega, hp⟩]
  omega

end Word
