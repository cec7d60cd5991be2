import Dexfin.Lightning.Pass

/-!
# The accounting of a channel over the integers

Every balance the channel keeps or checks is the opening balance plus a sum of HTLC amounts,
each with a coefficient `-1`, `0` or `1` fixed by the HTLC's state, its owner and whether
it was fulfilled. This file gives those coefficients and the facts about them that the
invariants need. Each fact is about the twenty states, two sides and two outcomes only, so
it is decided once.

The balances of side `x` are read at five cuts through the life of an HTLC. An HTLC offered
by `x` counts against `x` from some phase on (`Cut.spent`), unless it failed and is back
with `x` (`Cut.refunded`); one offered by the other side counts for `x` once it is fulfilled
and far enough along (`Cut.received`). The add check of `add_htlc` reads the earliest cut,
`x`'s balance in the other side's view and in its own view are two later ones
(`adjustCoeff_eq_potCoeff`), and the last is what is settled on both sides.
Each commitment call re-establishes one cut from the one before it, which is why every cut
stays nonnegative.
-/

namespace Dexfin.Lightning

/-- The place of a state among its owner's ten: `0` when offered, `4` when irrevocably
committed on both sides, `5` to `8` while being removed, `9` when settled. -/
def HtlcState.phase (st : HtlcState) : ℕ := st.toNat % 10

/-- The amount of an HTLC over the integers. -/
def Htlc.amount (h : Htlc) : ℤ := h.msatoshi.toNat

/-- `balance_adding_htlc` as a coefficient of the amount. -/
def addingCoeff (x : Side) (st : HtlcState) : ℤ :=
  if st.owner = x then -1 else 0

/-- `balance_removing_htlc` as a coefficient of the amount. -/
def removingCoeff (x : Side) (st : HtlcState) (fulfilled : Bool) : ℤ :=
  if (if fulfilled then st.owner.other else st.owner) = x then 1 else 0

/-- `adjustDelta` as a coefficient of the amount. -/
def adjustCoeff (s x : Side) (st : HtlcState) (fulfilled : Bool) : ℤ :=
  if st.wasCommitted s then
    addingCoeff x st + if st.committed s then 0 else removingCoeff x st fulfilled
  else 0

theorem ofInt_amount (h : Htlc) : BitVec.ofInt 64 h.amount = h.msatoshi := by
  simp [Htlc.amount]

theorem balanceAddingHtlc_eq (h : Htlc) (x : Side) :
    balanceAddingHtlc h x = BitVec.ofInt 64 (addingCoeff x h.state * h.amount) := by
  by_cases ho : h.owner = x
  · have ho' : h.state.owner = x := ho
    simp [balanceAddingHtlc, addingCoeff, ho, ho', BitVec.ofInt_neg, ofInt_amount]
  · have ho' : ¬h.state.owner = x := ho
    simp [balanceAddingHtlc, addingCoeff, ho, ho']

theorem balanceRemovingHtlc_eq (h : Htlc) (x : Side) :
    balanceRemovingHtlc h x =
      BitVec.ofInt 64 (removingCoeff x h.state h.r.isSome * h.amount) := by
  unfold balanceRemovingHtlc removingCoeff
  by_cases hx : (if h.r.isSome then h.state.owner.other else h.state.owner) = x
  · rw [if_pos hx, one_mul, ofInt_amount]
    exact if_pos hx.symm
  · rw [if_neg hx, zero_mul]
    exact (if_neg (Ne.symm hx)).trans (by simp)

theorem adjustDelta_eq (s : Side) (h : Htlc) (x : Side) :
    adjustDelta s h x = BitVec.ofInt 64 (adjustCoeff s x h.state h.r.isSome * h.amount) := by
  unfold adjustDelta adjustCoeff
  split_ifs <;> simp [balanceAddingHtlc_eq, balanceRemovingHtlc_eq, add_mul, BitVec.ofInt_add]

/-! ## Cuts -/

/-- A cut through the life of an HTLC, for the balance of one side `x`. -/
structure Cut where
  /-- The phase from which an HTLC offered by `x` counts against `x`. -/
  spent : ℕ
  /-- The phase from which a failed HTLC offered by `x` is back with `x`. -/
  refunded : ℕ
  /-- The phase from which a fulfilled HTLC of the other side counts for `x`. -/
  received : ℕ
  deriving DecidableEq, Repr

/-- The coefficient of an HTLC's amount in the balance of `x` at cut `t`. -/
def potCoeff (t : Cut) (x : Side) (st : HtlcState) (fulfilled : Bool) : ℤ :=
  if st.owner = x then
    if t.spent ≤ st.phase ∧ ¬(fulfilled = false ∧ t.refunded ≤ st.phase) then -1 else 0
  else if fulfilled = true ∧ t.received ≤ st.phase then 1 else 0

/-- What the add check sees: every HTLC of `x` is spent at once, a failed one is back once
the other side has revoked the commitment that held it, and a fulfilled HTLC of the other
side counts as soon as it is fulfilled. -/
def cutAdd : Cut := ⟨0, 7, 5⟩

/-- The balance of `x` in the other side's view. -/
def cutOther : Cut := ⟨1, 8, 6⟩

/-- The balance of `x` once the other side has revoked what `x` last signed. -/
def cutRevoked : Cut := ⟨2, 9, 7⟩

/-- The balance of `x` in its own view. -/
def cutOwn : Cut := ⟨3, 6, 8⟩

/-- The balance of `x` once both sides have revoked everything before it. -/
def cutSettled : Cut := ⟨4, 6, 9⟩

/-- The cuts, in the order in which the commitment calls re-establish them. -/
def cutChain : List Cut := [cutAdd, cutOther, cutRevoked, cutOwn, cutSettled]

/-- The cut each cut of the chain is re-established from. -/
def Cut.prev (t : Cut) : Cut :=
  if t = cutOther then cutAdd
  else if t = cutRevoked then cutOther
  else if t = cutOwn then cutRevoked
  else if t = cutSettled then cutOwn
  else t

/-- The cut a commitment signed for `s` re-establishes for the HTLCs of `x`. -/
def commitCut (s x : Side) : Cut := if x = s then cutOwn else cutOther

/-- The cut a revocation for `s` re-establishes for the HTLCs of `x`. -/
def revokeCut (s x : Side) : Cut := if x = s then cutRevoked else cutSettled

/-! ## The balances as cuts -/

/-- In the view of `s`, the balance of `x` is a cut: `cutOwn` in its own view, `cutOther` in
the other side's. -/
theorem adjustCoeff_eq_potCoeff : ∀ (s x : Side) (st : HtlcState) (f : Bool),
    adjustCoeff s x st f = potCoeff (commitCut s x) x st f := by decide

theorem commitCut_mem : ∀ s x : Side, commitCut s x ∈ cutChain := by decide

/-- What `adjust_balance` takes from both balances of a view is what the view's commitment
holds. -/
theorem adjustCoeff_total : ∀ (s : Side) (st : HtlcState) (f : Bool),
    adjustCoeff s .local st f + adjustCoeff s .remote st f =
      if st.committed s then -1 else 0 := by decide

/-- The coefficient of the add check: the sender's balance in the recipient's view, plus what
the recipient's pending removals pay it, less what its pending additions take. -/
def addCheckCoeff (x : Side) (st : HtlcState) (f : Bool) : ℤ :=
  let y := x.other
  adjustCoeff y x st f +
    (if st.committed y ∧ st.has (htlcFlag y htlcFPending) then removingCoeff x st f else 0) +
    (if ¬st.committed y ∧ st.has (htlcFlag y htlcFPending) then addingCoeff x st else 0)

/-- The add check reads the cut `cutAdd`. -/
theorem addCheckCoeff_eq : ∀ (x : Side) (st : HtlcState) (f : Bool),
    addCheckCoeff x st f = potCoeff cutAdd x st f := by
  unfold addCheckCoeff; decide

/-- The add check's cut exceeds the balance in the other view by at most what that view's
commitment holds. -/
theorem potCoeff_add_le : ∀ (x : Side) (st : HtlcState) (f : Bool),
    potCoeff cutAdd x st f ≤ potCoeff cutOther x st f + if st.committed x.other then 1 else 0 := by
  decide

/-! ## What the calls do to the cuts -/

/-- What a pass over `states` that re-establishes `setCut` does to the cuts: the cut it
re-establishes comes from another cut of the chain, every other cut rises, and no HTLC goes
back to an earlier phase. -/
structure PassKeeps (states : List HtlcState) (setCut : Side → Cut) : Prop where
  /-- The phase of an HTLC never decreases. -/
  phase_le : ∀ st : HtlcState, st.phase ≤ (st.advance states).phase
  /-- The cut re-established from is one of the chain. -/
  prev_mem : ∀ x, (setCut x).prev ∈ cutChain
  /-- It is not the cut re-established. -/
  prev_ne : ∀ x, (setCut x).prev ≠ setCut x
  /-- Every other cut rises. -/
  rise : ∀ (x : Side) (st : HtlcState) (f : Bool), ∀ t ∈ cutChain, t ≠ setCut x →
    potCoeff t x st f ≤ potCoeff t x (st.advance states) f
  /-- After the pass, the cut re-established is at least the one before it. -/
  reset : ∀ (x : Side) (st : HtlcState) (f : Bool),
    potCoeff (setCut x).prev x (st.advance states) f ≤ potCoeff (setCut x) x (st.advance states) f

theorem passKeeps_sendingCommit : PassKeeps sendingCommitStates (commitCut .remote) :=
  ⟨by decide, by decide, by decide, by decide, by decide⟩

theorem passKeeps_rcvdRevokeAndAck : PassKeeps rcvdRevokeAndAckStates (revokeCut .local) :=
  ⟨by decide, by decide, by decide, by decide, by decide⟩

theorem passKeeps_rcvdCommit : PassKeeps rcvdCommitStates (commitCut .local) :=
  ⟨by decide, by decide, by decide, by decide, by decide⟩

theorem passKeeps_sendingRevokeAndAck : PassKeeps sendingRevokeAndAckStates (revokeCut .remote) :=
  ⟨by decide, by decide, by decide, by decide, by decide⟩

/-- Starting a removal raises every cut, whether the HTLC is fulfilled or failed. -/
theorem removalStart_keeps : ∀ (x : Side) (f : Bool), ∀ t ∈ cutChain,
    potCoeff t x .sentAddAckRevocation false ≤ potCoeff t x .rcvdRemoveHtlc f ∧
      potCoeff t x .rcvdAddAckRevocation false ≤ potCoeff t x .sentRemoveHtlc f := by
  decide

/-- A new HTLC counts only in the add check, and only against its sender. -/
theorem potCoeff_added : ∀ (sender x : Side), ∀ t ∈ cutChain,
    potCoeff t x (if sender = .local then .sentAddHtlc else .rcvdAddHtlc) false =
      if t = cutAdd ∧ x = sender then -1 else 0 := by
  decide

end Dexfin.Lightning
