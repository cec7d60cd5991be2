import Mathlib.Algebra.Order.BigOperators.Group.Finset
import Mathlib.Data.BitVec
import Mathlib.Tactic.Ring
import Dexfin.Lib.Ledger
import Dexfin.Token.Contract

/-!
# Conservation of the supply

The balances always add up to `totalSupply`, and `totalSupply` never grows past the
`210000000 * 10 ^ 18` the constructor creates. Since that is far below `2 ^ 256`, no
balance plus an amount that some balance covers can wrap: the overflow check of
`_transfer` never rejects, and a burn never takes `totalSupply` below zero. The `assert` of
`_transfer` holds for a simpler reason: it is an identity of arithmetic modulo `2 ^ 256`.
-/

namespace Dexfin.Token

/-- The supply the constructor creates, `210000000 * 10 ^ 18`. -/
def initialSupply : ℕ := 210000000 * 10 ^ 18

/-- Twice the initial supply still fits in a `uint256`. -/
theorem two_mul_initialSupply_lt : 2 * initialSupply < 2 ^ 256 := by
  decide

/-- The supply invariant of every reachable state. -/
structure Inv (s : State) : Prop where
  /-- The balances of all addresses add up to `totalSupply`. -/
  conserved : ∑ a, (s.balanceOf a).toNat = s.totalSupply.toNat
  /-- Nothing is ever minted after the constructor. -/
  bounded : s.totalSupply.toNat ≤ initialSupply

/-- The constructor's supply is exactly `initialSupply`. -/
theorem constructor_totalSupply (creator : Address) :
    (constructor creator).totalSupply.toNat = initialSupply := by
  simp only [constructor, State.setBalance_totalSupply, State.setTotalSupply_totalSupply]
  decide

/-- The total after one balance is written, stated without subtraction. -/
theorem sum_setBalance (s : State) (a : Address) (v : Uint256) :
    ∑ x, ((s.setBalance a v).balanceOf x).toNat + (s.balanceOf a).toNat =
      ∑ x, (s.balanceOf x).toNat + v.toNat := by
  have hsum : ∑ x, ((s.setBalance a v).balanceOf x).toNat =
      ∑ x, Function.update (fun x => (s.balanceOf x).toNat) a v.toNat x := by
    apply Finset.sum_congr rfl
    intro x _
    by_cases hx : x = a
    · subst hx
      simp
    · simp [Function.update_of_ne hx]
  rw [hsum]
  exact Ledger.sum_update_add (fun x => (s.balanceOf x).toNat) a v.toNat

/-- The constructor's state satisfies the invariant. -/
theorem constructor_inv (creator : Address) : Inv (constructor creator) := by
  let s₀ : State := ⟨18, (constructor creator).totalSupply, fun _ => 0, fun _ _ => 0⟩
  have hs : constructor creator = s₀.setBalance creator s₀.totalSupply := rfl
  have h := sum_setBalance s₀ creator s₀.totalSupply
  refine ⟨?_, (constructor_totalSupply creator).le⟩
  rw [hs]
  simpa [s₀] using h

section Invariant

variable {s : State}

/-- One balance never exceeds the supply. -/
theorem Inv.balance_le (hi : Inv s) (a : Address) :
    (s.balanceOf a).toNat ≤ s.totalSupply.toNat := by
  rw [← hi.conserved]
  exact Finset.single_le_sum (f := fun x => (s.balanceOf x).toNat) (fun _ _ => Nat.zero_le _)
    (Finset.mem_univ a)

/-- Two different balances together never exceed the supply. -/
theorem Inv.balance_add_le (hi : Inv s) {a b : Address} (hne : a ≠ b) :
    (s.balanceOf a).toNat + (s.balanceOf b).toNat ≤ s.totalSupply.toNat := by
  rw [← hi.conserved]
  exact Finset.add_le_sum (f := fun x => (s.balanceOf x).toNat) (fun _ _ => Nat.zero_le _)
    (Finset.mem_univ a) (Finset.mem_univ b) hne

/-- A balance plus an amount that some balance covers never wraps. -/
theorem Inv.balance_add_toNat (hi : Inv s) (a b : Address) {v : Uint256}
    (hv : v ≤ s.balanceOf b) :
    (s.balanceOf a + v).toNat = (s.balanceOf a).toNat + v.toNat := by
  have hv' : v.toNat ≤ (s.balanceOf b).toNat := BitVec.le_def.mp hv
  have ha := hi.balance_le a
  have hb := hi.balance_le b
  have hbound := hi.bounded
  have hfit := two_mul_initialSupply_lt
  apply BitVec.toNat_add_of_lt
  omega

/-- Changing allowances keeps the invariant. -/
theorem Inv.setAllowance (hi : Inv s) (o sp : Address) (v : Uint256) :
    Inv (s.setAllowance o sp v) :=
  ⟨hi.conserved, hi.bounded⟩

end Invariant

/-! ## `_transfer` -/

/-- The `assert` of `_transfer` is an identity modulo `2 ^ 256`, whether or not `_from` and
`_to` are the same address. -/
theorem transfer_assert_holds (s : State) (_from _to : Address) (_value : Uint256) :
    let s₁ := s.setBalance _from (s.balanceOf _from - _value)
    let s₂ := s₁.setBalance _to (s₁.balanceOf _to + _value)
    s₂.balanceOf _from + s₂.balanceOf _to = s.balanceOf _from + s.balanceOf _to := by
  by_cases h : _to = _from
  · subst h
    simp
  · simp only [State.setBalance_balanceOf, Function.update_self, Function.update_of_ne h,
      Function.update_of_ne (Ne.symm h)]
    ring

/-- Under the invariant, `_transfer` fails only by its first two checks, and otherwise moves
`_value` from `_from` to `_to`. -/
theorem _transfer_eq {s : State} (hi : Inv s) (_from _to : Address) (_value : Uint256) :
    _transfer s _from _to _value =
      if _to = 0 then .error .zeroRecipient
      else if s.balanceOf _from ≥ _value then
        let s₁ := s.setBalance _from (s.balanceOf _from - _value)
        .ok (s₁.setBalance _to (s₁.balanceOf _to + _value))
      else .error .insufficientBalance := by
  unfold _transfer
  by_cases hto : _to = 0
  · rw [require_bind, if_neg (not_not_intro hto), if_pos hto]
  · rw [require_bind, if_pos hto, if_neg hto, require_bind]
    by_cases hbal : s.balanceOf _from ≥ _value
    · have hnowrap : s.balanceOf _to + _value ≥ s.balanceOf _to := by
        rw [ge_iff_le, BitVec.le_def, hi.balance_add_toNat _to _from hbal]
        omega
      have hassert := transfer_assert_holds s _from _to _value
      dsimp only at hassert
      rw [if_pos hbal, if_pos hbal, require_bind, if_pos hnowrap]
      dsimp only
      rw [assert_bind, if_pos hassert]
      rfl
    · rw [if_neg hbal, if_neg hbal]

/-- A transfer that goes through keeps the invariant, also when `_from = _to`. -/
theorem Inv.move (hi : Inv s) {_from : Address} (_to : Address) {_value : Uint256}
    (hbal : s.balanceOf _from ≥ _value) :
    let s₁ := s.setBalance _from (s.balanceOf _from - _value)
    Inv (s₁.setBalance _to (s₁.balanceOf _to + _value)) := by
  intro s₁
  have hv : _value.toNat ≤ (s.balanceOf _from).toNat := BitVec.le_def.mp hbal
  have hsub : (s.balanceOf _from - _value).toNat = (s.balanceOf _from).toNat - _value.toNat :=
    BitVec.toNat_sub_of_le hbal
  -- what `_to` holds after the debit never wraps when `_value` is added back
  have hcredit : (s₁.balanceOf _to + _value).toNat = (s₁.balanceOf _to).toNat + _value.toNat := by
    by_cases hft : _to = _from
    · subst hft
      have hback : s₁.balanceOf _to + _value = s.balanceOf _to := by
        simp [s₁]
      have hread : s₁.balanceOf _to = s.balanceOf _to - _value := by
        simp [s₁]
      rw [hback, hread, hsub]
      omega
    · have hread : s₁.balanceOf _to = s.balanceOf _to := by
        simp [s₁, Function.update_of_ne hft]
      rw [hread]
      exact hi.balance_add_toNat _to _from hbal
  have h₁ : ∑ x, (s₁.balanceOf x).toNat + (s.balanceOf _from).toNat =
      ∑ x, (s.balanceOf x).toNat + (s.balanceOf _from - _value).toNat :=
    sum_setBalance s _from (s.balanceOf _from - _value)
  have h₂ := sum_setBalance s₁ _to (s₁.balanceOf _to + _value)
  have hsupply : (s₁.setBalance _to (s₁.balanceOf _to + _value)).totalSupply = s.totalSupply :=
    rfl
  have hconserved := hi.conserved
  refine ⟨?_, hsupply ▸ hi.bounded⟩
  rw [hsupply]
  omega

/-! ## Every call -/

section Calls

variable {s s' : State}

/-- The invariant reads only balances and the supply. -/
theorem Inv.of_eq (hi : Inv s) (hbalance : s'.balanceOf = s.balanceOf)
    (hsupply : s'.totalSupply = s.totalSupply) : Inv s' := by
  refine ⟨?_, ?_⟩
  · rw [hbalance, hsupply]
    exact hi.conserved
  · rw [hsupply]
    exact hi.bounded

theorem Inv.of_transfer_ok (hi : Inv s) {_from _to : Address} {_value : Uint256}
    (h : _transfer s _from _to _value = .ok s') : Inv s' := by
  rw [_transfer_eq hi] at h
  split_ifs at h with hto hbal
  cases h
  exact hi.move _to hbal

/-- A burn of what `a` holds takes the supply down by exactly that amount. -/
theorem Inv.supply_sub_toNat (hi : Inv s) {a : Address} {_value : Uint256}
    (hbal : s.balanceOf a ≥ _value) :
    (s.totalSupply - _value).toNat = s.totalSupply.toNat - _value.toNat := by
  apply BitVec.toNat_sub_of_le
  rw [BitVec.le_def]
  exact (BitVec.le_def.mp hbal).trans (hi.balance_le a)

/-- Taking `_value` out of `a` and out of the supply keeps the invariant. -/
theorem Inv.debit (hi : Inv s) {a : Address} {_value : Uint256}
    (hbal : s.balanceOf a ≥ _value) :
    Inv ((s.setBalance a (s.balanceOf a - _value)).setTotalSupply (s.totalSupply - _value)) := by
  have hsub : (s.balanceOf a - _value).toNat = (s.balanceOf a).toNat - _value.toNat :=
    BitVec.toNat_sub_of_le hbal
  have hv : _value.toNat ≤ (s.balanceOf a).toNat := BitVec.le_def.mp hbal
  have ha := hi.balance_le a
  have hsupply := hi.supply_sub_toNat hbal
  have hsum := sum_setBalance s a (s.balanceOf a - _value)
  have hconserved := hi.conserved
  have hbounded := hi.bounded
  refine ⟨?_, ?_⟩
  · simp only [State.setTotalSupply_balanceOf, State.setTotalSupply_totalSupply, hsupply]
    omega
  · simp only [State.setTotalSupply_totalSupply, hsupply]
    omega

/-- What a successful `burn` does. -/
theorem burn_eq_ok {sender : Address} {_value : Uint256} (h : burn s sender _value = .ok s') :
    s.balanceOf sender ≥ _value ∧
      s' = (s.setBalance sender (s.balanceOf sender - _value)).setTotalSupply
        (s.totalSupply - _value) := by
  unfold burn at h
  rw [require_bind] at h
  split_ifs at h with hbal
  cases h
  exact ⟨hbal, rfl⟩

/-- What a successful `burnFrom` does. -/
theorem burnFrom_eq_ok {sender _from : Address} {_value : Uint256}
    (h : burnFrom s sender _from _value = .ok s') :
    s.balanceOf _from ≥ _value ∧ _value ≤ s.allowance _from sender ∧
      s' = ((s.setBalance _from (s.balanceOf _from - _value)).setAllowance _from sender
        (s.allowance _from sender - _value)).setTotalSupply (s.totalSupply - _value) := by
  unfold burnFrom at h
  rw [require_bind, require_bind] at h
  split_ifs at h with hbal hallow
  cases h
  exact ⟨hbal, hallow, rfl⟩

/-- What a successful `transferFrom` does before `_transfer`. -/
theorem transferFrom_eq_ok {sender _from _to : Address} {_value : Uint256}
    (h : transferFrom s sender _from _to _value = .ok s') :
    _value ≤ s.allowance _from sender ∧
      _transfer (s.setAllowance _from sender (s.allowance _from sender - _value)) _from _to
        _value = .ok s' := by
  unfold transferFrom at h
  rw [require_bind] at h
  split_ifs at h with hallow
  exact ⟨hallow, h⟩

/-- Every successful call keeps the invariant. -/
theorem Inv.of_execute_ok (hi : Inv s) {sender : Address} {c : Call}
    (h : execute s sender c = .ok s') : Inv s' := by
  cases c with
  | transfer _to _value => exact hi.of_transfer_ok h
  | transferFrom _from _to _value =>
    obtain ⟨-, htransfer⟩ := transferFrom_eq_ok h
    exact (hi.setAllowance _ _ _)|>.of_transfer_ok htransfer
  | approve _spender _value =>
    cases h
    exact hi.setAllowance _ _ _
  | approveAndCall _spender _value _extraData =>
    cases h
    exact hi.setAllowance _ _ _
  | burn _value =>
    obtain ⟨hbal, rfl⟩ := burn_eq_ok h
    exact hi.debit hbal
  | burnFrom _from _value =>
    obtain ⟨hbal, -, rfl⟩ := burnFrom_eq_ok h
    exact (hi.debit hbal).of_eq rfl rfl

/-- Under the invariant no call fails on the overflow check or the `assert`. -/
theorem Inv.execute_ne (hi : Inv s) (sender : Address) (c : Call) :
    execute s sender c ≠ .error .overflow ∧ execute s sender c ≠ .error .assertion := by
  -- both checks sit in `_transfer`, reached through `transfer` and `transferFrom`
  have htransfer : ∀ t : State, Inv t → ∀ _from _to _value,
      _transfer t _from _to _value ≠ .error .overflow ∧
        _transfer t _from _to _value ≠ .error .assertion := by
    intro t ht _from _to _value
    rw [_transfer_eq ht]
    split_ifs <;> simp
  cases c with
  | transfer _to _value => exact htransfer s hi sender _to _value
  | transferFrom _from _to _value =>
    dsimp only [execute, transferFrom]
    rw [require_bind]
    split_ifs
    · exact htransfer _ (hi.setAllowance _ _ _) _from _to _value
    · simp
  | approve _spender _value => exact ⟨nofun, nofun⟩
  | approveAndCall _spender _value _extraData => exact ⟨nofun, nofun⟩
  | burn _value =>
    dsimp only [execute, burn]
    rw [require_bind]
    split_ifs
    · exact ⟨nofun, nofun⟩
    · simp
  | burnFrom _from _value =>
    dsimp only [execute, burnFrom]
    rw [require_bind, require_bind]
    split_ifs
    · exact ⟨nofun, nofun⟩
    · simp
    · simp

end Calls

/-! ## Runs -/

/-- One action keeps the invariant in the current world and in every saved one. -/
theorem Config.step_inv {k : Config} (hk : k.All fun w => Inv w.storage) (a : Action) :
    (k.step a).All fun w => Inv w.storage := by
  apply hk.of_step
  rcases k.step_cases a with h | ⟨sender, c, w, hexec, h⟩ | h | h
  · exact .inl h
  · have hw : Inv w.storage := hk.1.of_execute_ok (World.exec_eq_ok hexec).1
    exact .inr (.inl ⟨w, hw, h⟩)
  · exact .inr (.inr (.inl h))
  · exact .inr (.inr (.inr h))

theorem Config.run_inv {k : Config} (hk : k.All fun w => Inv w.storage) (actions : List Action) :
    (k.run actions).All fun w => Inv w.storage := by
  induction actions generalizing k with
  | nil => exact hk
  | cons a actions ih => exact ih (Config.step_inv hk a)

/-- Every world of every reachable configuration satisfies the invariant. -/
theorem deploy_run_inv (creator : Address) (actions : List Action) :
    ((deploy creator).run actions).All fun w => Inv w.storage :=
  Config.run_inv (CallFrames.Stack.all_mk_nil.mpr (constructor_inv creator)) actions

/-- For every run from deployment, the balances add up to `totalSupply`, which never exceeds
the initial supply. No call then fails on the overflow check or the `assert` of `_transfer`,
and a successful `burn` or `burnFrom` lowers `totalSupply` by exactly `_value`. -/
theorem supply_conserved (creator : Address) (actions : List Action) :
    let s := ((deploy creator).run actions).current.storage
    ∑ a, (s.balanceOf a).toNat = s.totalSupply.toNat ∧ s.totalSupply.toNat ≤ initialSupply ∧
      (∀ sender c, execute s sender c ≠ .error .overflow ∧
        execute s sender c ≠ .error .assertion) ∧
      (∀ sender _value s', burn s sender _value = .ok s' →
        s'.totalSupply.toNat = s.totalSupply.toNat - _value.toNat) ∧
      (∀ sender _from _value s', burnFrom s sender _from _value = .ok s' →
        s'.totalSupply.toNat = s.totalSupply.toNat - _value.toNat) := by
  intro s
  have hi : Inv s := (deploy_run_inv creator actions).1
  refine ⟨hi.conserved, hi.bounded, hi.execute_ne, ?_, ?_⟩
  · intro sender _value s' h
    obtain ⟨hbal, rfl⟩ := burn_eq_ok h
    exact hi.supply_sub_toNat hbal
  · intro sender _from _value s' h
    obtain ⟨hbal, -, rfl⟩ := burnFrom_eq_ok h
    exact hi.supply_sub_toNat hbal

end Dexfin.Token
