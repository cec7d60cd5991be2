import Mathlib.Data.BitVec
import Mathlib.Data.List.Basic
import Mathlib.Tactic.Ring

/-!
# The commitment weight in lnd

`src/lnd/lnwallet/channel.go` weighs a commitment twice: `computeView` counts the HTLCs that
are not dust to give the weight that `validateCommitmentSanity` charges the initiator's
balance with, and `createCommitmentTx` counts them again to build the transaction and take
its fee. Both ask `htlcIsDust`, whose fee is the HTLC-success fee when the HTLC's direction
and the commitment's owner agree and the HTLC-timeout fee when they differ
(`htlcIsDust_eq`); but they pass it different flags.

On the local chain the two weights are the same for every view, rate and dust limit
(`viewCommitWeight_local`). On the remote chain `computeView` weighs our HTLCs as theirs and
theirs as ours (`viewCommitWeight_eq_commitTxWeight`), so an HTLC between the two dust thresholds is
counted by one and trimmed by the other. `btcutil.Amount` and `SatPerKWeight` are `int64`,
compared and divided signed; `lnwire.MilliSatoshi` is `uint64`.
-/

namespace Dexfin.Lnd

/-- `CommitWeight`. -/
def commitWeight : BitVec 64 := 724

/-- `HtlcWeight`. -/
def htlcWeight : BitVec 64 := 172

/-- `HtlcTimeoutWeight`. -/
def htlcTimeoutWeight : BitVec 64 := 663

/-- `HtlcSuccessWeight`. -/
def htlcSuccessWeight : BitVec 64 := 703

/-- `SatPerKWeight.FeeForWeight`: the `int64` product over `1000`, rounded toward zero. -/
def feeForWeight (feePerKw wu : BitVec 64) : BitVec 64 := (feePerKw * wu).sdiv 1000

/-- `htlcTimeoutFee`. -/
def htlcTimeoutFee (feePerKw : BitVec 64) : BitVec 64 := feeForWeight feePerKw htlcTimeoutWeight

/-- `htlcSuccessFee`. -/
def htlcSuccessFee (feePerKw : BitVec 64) : BitVec 64 := feeForWeight feePerKw htlcSuccessWeight

/-- `htlcIsDust`: the second-level fee by direction and commitment owner, then the amount
after it against the dust limit, in `int64`. -/
def htlcIsDust (incoming ourCommit : Bool) (feePerKw htlcAmt dustLimit : BitVec 64) : Bool :=
  let htlcFee := match incoming, ourCommit with
    | true, true => htlcSuccessFee feePerKw
    | true, false => htlcTimeoutFee feePerKw
    | false, true => htlcTimeoutFee feePerKw
    | false, false => htlcSuccessFee feePerKw
  (htlcAmt - htlcFee).slt dustLimit

/-- `MilliSatoshi.ToSatoshis`. -/
def toSatoshis (m : BitVec 64) : BitVec 64 := m / 1000

/-- `NewMSatFromSatoshis`. -/
def newMSatFromSatoshis (sat : BitVec 64) : BitVec 64 := sat * 1000

/-- `updateType`. -/
inductive UpdateType
  | add
  | fail
  | malformedFail
  | settle
  deriving DecidableEq, Repr

/-- The fields of `PaymentDescriptor` that the weight and the checks read. -/
structure PaymentDescriptor where
  /-- `Amount`, in msat. -/
  amount : BitVec 64
  /-- `EntryType`. -/
  entryType : UpdateType
  deriving DecidableEq, Repr

/-- `htlcView`. -/
structure HtlcView where
  /-- `ourUpdates`. -/
  ourUpdates : List PaymentDescriptor
  /-- `theirUpdates`. -/
  theirUpdates : List PaymentDescriptor
  deriving DecidableEq, Repr

/-- The fields of `channeldb.ChannelConfig` that `validateCommitmentSanity` reads. -/
structure ChannelConfig where
  /-- `ChanReserve`, in satoshi. -/
  chanReserve : BitVec 64
  /-- `MaxPendingAmount`, in msat. -/
  maxPendingAmount : BitVec 64
  /-- `MinHTLC`, in msat. -/
  minHTLC : BitVec 64
  /-- `MaxAcceptedHtlcs`. -/
  maxAcceptedHtlcs : BitVec 16
  deriving DecidableEq, Repr

/-! ## `computeView` -/

/-- The fee rate `computeView` settles on: the last committed one, unless an update is
pending for this chain. -/
def viewFeePerKw (isInitiator remoteChain : Bool) (tipFeePerKw : BitVec 64)
    (pendingFeeUpdate pendingAckFeeUpdate : Option (BitVec 64)) : BitVec 64 :=
  if isInitiator then
    match remoteChain, pendingFeeUpdate, pendingAckFeeUpdate with
    | true, some feePerKw, _ => feePerKw
    | false, _, some feePerKw => feePerKw
    | _, _, _ => tipFeePerKw
  else
    match remoteChain, pendingFeeUpdate, pendingAckFeeUpdate with
    | false, some feePerKw, _ => feePerKw
    | true, _, some feePerKw => feePerKw
    | _, _, _ => tipFeePerKw

/-- The weight loops at the end of `computeView`: `HtlcWeight` for each HTLC that is not
dust, our updates with `htlcIsDust(remoteChain, !remoteChain, ..)` and theirs with
`htlcIsDust(!remoteChain, !remoteChain, ..)`. -/
def viewCommitWeight (filteredView : HtlcView) (remoteChain : Bool) (feePerKw dustLimit : BitVec 64) :
    BitVec 64 :=
  let ours := filteredView.ourUpdates.foldl (fun total htlc =>
    if htlcIsDust remoteChain (!remoteChain) feePerKw (toSatoshis htlc.amount) dustLimit then total
    else total + htlcWeight) 0
  let totalHtlcWeight := filteredView.theirUpdates.foldl (fun total htlc =>
    if htlcIsDust (!remoteChain) (!remoteChain) feePerKw (toSatoshis htlc.amount) dustLimit then
      total
    else total + htlcWeight) ours
  commitWeight + totalHtlcWeight

/-! ## `createCommitmentTx` -/

/-- The counting loops of `createCommitmentTx`: our updates with `htlcIsDust(false, isOurs, ..)`
and theirs with `htlcIsDust(true, isOurs, ..)`. -/
def commitNumHtlcs (filteredView : HtlcView) (isOurs : Bool) (feePerKw dustLimit : BitVec 64) :
    BitVec 64 :=
  let ours := filteredView.ourUpdates.foldl (fun numHTLCs htlc =>
    if htlcIsDust false isOurs feePerKw (toSatoshis htlc.amount) dustLimit then numHTLCs
    else numHTLCs + 1) 0
  filteredView.theirUpdates.foldl (fun numHTLCs htlc =>
    if htlcIsDust true isOurs feePerKw (toSatoshis htlc.amount) dustLimit then numHTLCs
    else numHTLCs + 1) ours

/-- `totalCommitWeight` of `createCommitmentTx`. -/
def commitTxWeight (filteredView : HtlcView) (isOurs : Bool) (feePerKw dustLimit : BitVec 64) :
    BitVec 64 :=
  commitWeight + htlcWeight * commitNumHtlcs filteredView isOurs feePerKw dustLimit

/-- The balances `createCommitmentTx` pays out: the initiator's less the fee, or nothing when
the fee exceeds it. -/
def commitTxBalances (isInitiator : Bool) (ourBalance theirBalance commitFee : BitVec 64) :
    BitVec 64 × BitVec 64 :=
  let commitFeeMSat := newMSatFromSatoshis commitFee
  if isInitiator ∧ (toSatoshis ourBalance).slt commitFee then (0, theirBalance)
  else if isInitiator then (ourBalance - commitFeeMSat, theirBalance)
  else if (toSatoshis theirBalance).slt commitFee then (ourBalance, 0)
  else (ourBalance, theirBalance - commitFeeMSat)

/-! ## `validateCommitmentSanity` -/

/-- The errors of `validateCommitmentSanity`. -/
inductive SanityErr
  | errBelowChanReserve
  | errBelowMinHTLC
  | errMaxPendingAmount
  | errMaxHTLCNumber
  deriving DecidableEq, Repr

/-- The loop of `validateUpdates`: the number and amount of the HTLCs added, and an error at
the first added HTLC below the minimum. -/
def inFlight (constraints : ChannelConfig) :
    BitVec 16 → BitVec 64 → List PaymentDescriptor → Except SanityErr (BitVec 16 × BitVec 64)
  | numInFlight, amtInFlight, [] => .ok (numInFlight, amtInFlight)
  | numInFlight, amtInFlight, entry :: updates =>
    if entry.entryType = .add then
      if entry.amount < constraints.minHTLC then .error .errBelowMinHTLC
      else inFlight constraints (numInFlight + 1) (amtInFlight + entry.amount) updates
    else inFlight constraints numInFlight amtInFlight updates

/-- `validateUpdates`. -/
def validateUpdates (updates : List PaymentDescriptor) (constraints : ChannelConfig) :
    Except SanityErr Unit := do
  let (numInFlight, amtInFlight) ← inFlight constraints 0 0 updates
  if amtInFlight > constraints.maxPendingAmount then throw .errMaxPendingAmount
  if numInFlight > constraints.maxAcceptedHtlcs then throw .errMaxHTLCNumber

/-- `validateCommitmentSanity` after `computeView`, from what that returned: the balances,
the filtered view and the fee rate, with the weight `computeView` computes from them. -/
def validateCommitmentSanity (isInitiator remoteChain : Bool)
    (ourInitialBalance theirInitialBalance ourBalance theirBalance : BitVec 64)
    (filteredView : HtlcView) (feePerKw dustLimit : BitVec 64)
    (localChanCfg remoteChanCfg : ChannelConfig) : Except SanityErr Unit := do
  let commitFee := feeForWeight feePerKw (viewCommitWeight filteredView remoteChain feePerKw dustLimit)
  let commitFeeMsat := newMSatFromSatoshis commitFee
  let (ourBalance, theirBalance) := if isInitiator then (ourBalance - commitFeeMsat, theirBalance)
    else (ourBalance, theirBalance - commitFeeMsat)
  if ourBalance.slt 0 then throw .errBelowChanReserve
  if theirBalance.slt 0 then throw .errBelowChanReserve
  if ourBalance < ourInitialBalance ∧ ourBalance < newMSatFromSatoshis localChanCfg.chanReserve then
    throw .errBelowChanReserve
  if theirBalance < theirInitialBalance ∧
      theirBalance < newMSatFromSatoshis remoteChanCfg.chanReserve then
    throw .errBelowChanReserve
  validateUpdates filteredView.theirUpdates remoteChanCfg
  validateUpdates filteredView.ourUpdates localChanCfg

/-! ## The two weights -/

/-- `htlcIsDust` charges the success fee when the direction and the owner agree, and the
timeout fee when they differ. -/
theorem htlcIsDust_eq (incoming ourCommit : Bool) (feePerKw htlcAmt dustLimit : BitVec 64) :
    htlcIsDust incoming ourCommit feePerKw htlcAmt dustLimit =
      (htlcAmt - if incoming = ourCommit then htlcSuccessFee feePerKw
        else htlcTimeoutFee feePerKw).slt dustLimit := by
  cases incoming <;> cases ourCommit <;> rfl

/-- A loop that adds `w` for each element that is not skipped adds `w` times their count. -/
theorem foldl_add_unless {α : Type} (skip : α → Bool) (w : BitVec 64) (l : List α) (init : BitVec 64) :
    l.foldl (fun total x => if skip x then total else total + w) init =
      init + w * BitVec.ofNat 64 (l.countP fun x => !skip x) := by
  induction l generalizing init with
  | nil => simp
  | cons x l ih =>
    rw [List.foldl_cons, ih, List.countP_cons]
    cases skip x
    · simp only [Bool.false_eq_true, if_false, Bool.not_false, if_true, BitVec.ofNat_add]
      rw [show BitVec.ofNat 64 1 = (1 : BitVec 64) from rfl]
      ring
    · simp

/-- `computeView`'s weight: `HtlcWeight` for each of our HTLCs and theirs that its flags find
not dust. -/
theorem viewCommitWeight_eq (filteredView : HtlcView) (remoteChain : Bool)
    (feePerKw dustLimit : BitVec 64) :
    viewCommitWeight filteredView remoteChain feePerKw dustLimit =
      commitWeight + htlcWeight * (BitVec.ofNat 64 (filteredView.ourUpdates.countP fun htlc =>
          !htlcIsDust remoteChain (!remoteChain) feePerKw (toSatoshis htlc.amount) dustLimit) +
        BitVec.ofNat 64 (filteredView.theirUpdates.countP fun htlc =>
          !htlcIsDust (!remoteChain) (!remoteChain) feePerKw (toSatoshis htlc.amount) dustLimit)) := by
  simp only [viewCommitWeight, foldl_add_unless]
  ring

/-- `createCommitmentTx`'s weight: `HtlcWeight` for each of our HTLCs and theirs that its
flags find not dust. -/
theorem commitTxWeight_eq (filteredView : HtlcView) (isOurs : Bool) (feePerKw dustLimit : BitVec 64) :
    commitTxWeight filteredView isOurs feePerKw dustLimit =
      commitWeight + htlcWeight * (BitVec.ofNat 64 (filteredView.ourUpdates.countP fun htlc =>
          !htlcIsDust false isOurs feePerKw (toSatoshis htlc.amount) dustLimit) +
        BitVec.ofNat 64 (filteredView.theirUpdates.countP fun htlc =>
          !htlcIsDust true isOurs feePerKw (toSatoshis htlc.amount) dustLimit)) := by
  simp only [commitTxWeight, commitNumHtlcs, foldl_add_unless]
  ring

/-- What `computeView` weighs is the commitment `createCommitmentTx` builds on the local chain,
and on the remote chain the one it would build with our updates and theirs exchanged. -/
theorem viewCommitWeight_eq_commitTxWeight (filteredView : HtlcView) (remoteChain : Bool)
    (feePerKw dustLimit : BitVec 64) :
    viewCommitWeight filteredView remoteChain feePerKw dustLimit =
      commitTxWeight (if remoteChain then ⟨filteredView.theirUpdates, filteredView.ourUpdates⟩
        else filteredView) (!remoteChain) feePerKw dustLimit := by
  rw [viewCommitWeight_eq, commitTxWeight_eq]
  cases remoteChain
  · rfl
  · simp only [if_true, Bool.not_true]
    ring

/-- On the local chain the weight `validateCommitmentSanity` charges is that of the commitment
`createCommitmentTx` builds, for every view, fee rate and dust limit. -/
theorem viewCommitWeight_local (filteredView : HtlcView) (feePerKw dustLimit : BitVec 64) :
    viewCommitWeight filteredView false feePerKw dustLimit =
      commitTxWeight filteredView true feePerKw dustLimit :=
  viewCommitWeight_eq_commitTxWeight filteredView false feePerKw dustLimit

/-- A remote commitment at 10000 satoshi per kiloweight with a dust limit of 546 satoshi and
one HTLC of theirs of 7200 satoshi: its timeout fee leaves 570 satoshi, its success fee 170.
`computeView` takes it for dust and charges the weight 724 and the fee 7240 satoshi, so
`validateCommitmentSanity` accepts an initiator's balance of 8000 satoshi; `createCommitmentTx`
keeps the HTLC, weighs 896 and charges 8960 satoshi, more than the balance, which it pays out
as nothing. -/
theorem validateCommitmentSanity_underweighs :
    viewCommitWeight ⟨[], [⟨7200000, .add⟩]⟩ true 10000 546 = 724 ∧
      commitTxWeight ⟨[], [⟨7200000, .add⟩]⟩ false 10000 546 = 896 ∧
      validateCommitmentSanity true true 8000000 8200000 8000000 1000000 ⟨[], [⟨7200000, .add⟩]⟩
        10000 546 ⟨0, 0xFFFFFFFFFFFFFFFF, 0, 483⟩ ⟨0, 0xFFFFFFFFFFFFFFFF, 0, 483⟩ = .ok () ∧
      commitTxBalances true 8000000 1000000
        (feeForWeight 10000 (commitTxWeight ⟨[], [⟨7200000, .add⟩]⟩ false 10000 546)) = (0, 1000000) :=
  ⟨by decide, by decide, by decide, by decide⟩

end Dexfin.Lnd
