import Mathlib.Algebra.BigOperators.Group.Finset.Piecewise

/-!
# Balances indexed by a finite type

A ledger maps every account of a finite type to an amount. Writing one account changes the
total by the new amount less the old one; stated additively, this needs no subtraction.
-/

namespace Ledger

variable {α β : Type*} [Fintype α] [DecidableEq α] [AddCommMonoid β]

/-- Writing `b` to account `a` changes the total from `∑ f` by replacing `f a` with `b`. -/
theorem sum_update_add (f : α → β) (a : α) (b : β) :
    ∑ x, Function.update f a b x + f a = ∑ x, f x + b := by
  rw [Fintype.sum_eq_sum_compl_add a, Fintype.sum_eq_sum_compl_add a f,
    Finset.sum_update_of_notMem (by simp), Function.update_self, add_right_comm]

end Ledger
