import Dexfin.Lib.FirstMatch
import Dexfin.Lightning.HtlcState

/-!
# A channel and its HTLCs

The state of `src/lightning/channeld/full_channel.c`: the funding amount, the two views of
what each side is owed, the pending-change bits and the HTLC map. C's fixed-width integers
are bit vectors of their width, so `u64 += s64` wraps exactly as the compiled code does;
`s64` values share the bits of `u64` ones and are compared with `slt`. A failed `assert`
aborts the daemon, which is `none`. The hash table of HTLCs is a list; its order is the
iteration order, about which the source promises nothing.
-/

namespace Dexfin.Lightning

/-- `struct preimage`. -/
abbrev Preimage := BitVec 256

/-- `struct sha256`. -/
abbrev Sha256 := BitVec 256

/-- The fields of `struct channel_config` that the channel reads. -/
structure ChannelConfig where
  /-- `dust_limit_satoshis`. -/
  dustLimitSatoshis : BitVec 64
  /-- `max_htlc_value_in_flight_msat`. -/
  maxHtlcValueInFlightMsat : BitVec 64
  /-- `channel_reserve_satoshis`: what the other node must keep. -/
  channelReserveSatoshis : BitVec 64
  /-- `htlc_minimum_msat`. -/
  htlcMinimumMsat : BitVec 64
  /-- `max_accepted_htlcs`. -/
  maxAcceptedHtlcs : BitVec 16
  deriving DecidableEq, Repr

/-- The fields of `struct htlc` (`channeld/channeld_htlc.h`) that the channel reads. -/
structure Htlc where
  /-- `state`. -/
  state : HtlcState
  /-- `id`, unique per offering side. -/
  id : BitVec 64
  /-- `msatoshi`. -/
  msatoshi : BitVec 64
  /-- `expiry`, an absolute block height. -/
  expiry : BitVec 32
  /-- `rhash`. -/
  rhash : Sha256
  /-- `r`: the preimage, once known. -/
  r : Option Preimage
  /-- `fail`: the failure message. -/
  fail : Option (List UInt8)
  /-- `failcode`; zero when there is none. -/
  failcode : BitVec 16
  deriving DecidableEq, Repr

/-- `struct channel_view`: what one side's commitment looks like. -/
structure ChannelView where
  /-- `feerate_per_kw`. -/
  feeratePerKw : BitVec 32
  /-- `owed_msat[side]`. -/
  owedMsat : Side → BitVec 64

/-- The fields of `struct channel` that the channel functions read. -/
structure Channel where
  /-- `funding_msat`. -/
  fundingMsat : BitVec 64
  /-- `funder`: who pays the commitment fee. -/
  funder : Side
  /-- `config[side]`. -/
  config : Side → ChannelConfig
  /-- `htlcs`, in iteration order. -/
  htlcs : List Htlc
  /-- `changes_pending[side]`. -/
  changesPending : Side → Bool
  /-- `view[side]`. -/
  view : Side → ChannelView
  /-- `chainparams->max_payment_msat`. -/
  maxPaymentMsat : BitVec 64

/-- `enum channel_add_err`. -/
inductive ChannelAddErr
  | addOk
  | invalidExpiry
  | duplicate
  | duplicateIdDifferent
  | maxHtlcValueExceeded
  | channelCapacityExceeded
  | htlcBelowMinimum
  | tooManyHtlcs
  deriving DecidableEq, Repr

/-- `enum channel_remove_err`. -/
inductive ChannelRemoveErr
  | removeOk
  | noSuchId
  | alreadyFulfilled
  | badPreimage
  | htlcUncommitted
  | htlcNotIrrevocable
  deriving DecidableEq, Repr

/-- `htlc_owner`. -/
def Htlc.owner (h : Htlc) : Side := h.state.owner

/-- `htlc_has`. -/
def Htlc.has (h : Htlc) (flag : ℕ) : Bool := h.state.has flag

/-- The key test of `htlc_get`: same id, offered by `owner`. -/
def Htlc.isKey (h : Htlc) (id : BitVec 64) (owner : Side) : Bool :=
  h.id == id && h.has (htlcFlag owner htlcFOwner)

/-- `htlc_get`. -/
def htlcGet (htlcs : List Htlc) (id : BitVec 64) (owner : Side) : Option Htlc :=
  htlcs.find? fun h => h.isKey id owner

/-- Write back the HTLC that `htlc_get` returned. -/
def htlcSet (id : BitVec 64) (owner : Side) (new : Htlc) (htlcs : List Htlc) : List Htlc :=
  FirstMatch.setFirst (fun h => h.isKey id owner) new htlcs

/-- `channel->view[side] = v`. -/
def Channel.setView (c : Channel) (side : Side) (v : ChannelView) : Channel :=
  { c with view := Function.update c.view side v }

/-- `channel->changes_pending[side] = b`. -/
def Channel.setPending (c : Channel) (side : Side) (b : Bool) : Channel :=
  { c with changesPending := Function.update c.changesPending side b }

/-- What no call changes: the funding, the funder, the configurations and the payment
limit. -/
structure ChannelParams where
  /-- `funding_msat`. -/
  fundingMsat : BitVec 64
  /-- `funder`. -/
  funder : Side
  /-- `config`. -/
  config : Side → ChannelConfig
  /-- `chainparams->max_payment_msat`. -/
  maxPaymentMsat : BitVec 64

/-- The parameters of a channel. -/
def Channel.params (c : Channel) : ChannelParams :=
  ⟨c.fundingMsat, c.funder, c.config, c.maxPaymentMsat⟩

@[simp] theorem Channel.setView_htlcs (c : Channel) (s : Side) (v : ChannelView) :
    (c.setView s v).htlcs = c.htlcs := rfl

@[simp] theorem Channel.setView_view (c : Channel) (s : Side) (v : ChannelView) :
    (c.setView s v).view = Function.update c.view s v := rfl

@[simp] theorem Channel.setView_params (c : Channel) (s : Side) (v : ChannelView) :
    (c.setView s v).params = c.params := rfl

@[simp] theorem Channel.setPending_htlcs (c : Channel) (s : Side) (b : Bool) :
    (c.setPending s b).htlcs = c.htlcs := rfl

@[simp] theorem Channel.setPending_view (c : Channel) (s : Side) (b : Bool) :
    (c.setPending s b).view = c.view := rfl

@[simp] theorem Channel.setPending_params (c : Channel) (s : Side) (b : Bool) :
    (c.setPending s b).params = c.params := rfl

/-- `view->owed_msat[side] += delta`, in `u64`. -/
def ChannelView.addOwed (v : ChannelView) (side : Side) (delta : BitVec 64) : ChannelView :=
  { v with owedMsat := Function.update v.owedMsat side (v.owedMsat side + delta) }

/-- `view->owed_msat[LOCAL] += d LOCAL; view->owed_msat[REMOTE] += d REMOTE`. -/
def ChannelView.addBoth (v : ChannelView) (d : Side → BitVec 64) : ChannelView :=
  (v.addOwed .local (d .local)).addOwed .remote (d .remote)

@[simp] theorem ChannelView.addBoth_feeratePerKw (v : ChannelView) (d : Side → BitVec 64) :
    (v.addBoth d).feeratePerKw = v.feeratePerKw := rfl

@[simp] theorem ChannelView.addBoth_owedMsat (v : ChannelView) (d : Side → BitVec 64)
    (x : Side) : (v.addBoth d).owedMsat x = v.owedMsat x + d x := by
  cases x <;> simp [addBoth, addOwed]

/-! ## Construction -/

/-- `struct chainparams`: the two limits. `channeld` reads the payment limit; `openingd`
refuses a funding above the other. -/
structure Chainparams where
  /-- `max_funding_satoshi`. -/
  maxFundingSatoshi : BitVec 64
  /-- `max_payment_msat`. -/
  maxPaymentMsat : BitVec 64

/-- The limits of `networks[]`: bitcoin, regtest and testnet, then litecoin and
litecoin-testnet. -/
def networks : List Chainparams :=
  [⟨(1 <<< 24) - 1, 0xFFFFFFFF⟩, ⟨(1 <<< 24) - 1, 0xFFFFFFFF⟩, ⟨(1 <<< 24) - 1, 0xFFFFFFFF⟩,
    ⟨60 * ((1 <<< 24) - 1), 60 * 0xFFFFFFFF⟩, ⟨60 * ((1 <<< 24) - 1), 60 * 0xFFFFFFFF⟩]

/-- The limits of every network are at most litecoin's. -/
theorem Chainparams.le_of_mem_networks {cp : Chainparams} (h : cp ∈ networks) :
    cp.maxFundingSatoshi.toNat ≤ 60 * (2 ^ 24 - 1) ∧ cp.maxPaymentMsat.toNat ≤ 60 * 0xFFFFFFFF := by
  simp only [networks, List.mem_cons, List.not_mem_nil, or_false] at h
  rcases h with rfl | rfl | rfl | rfl | rfl <;> decide

/-- `new_initial_channel`, with `chainparams_by_chainhash(chain_hash)` given as
`chainparams`. `NULL` is `none`. -/
def newInitialChannel (fundingSatoshis localMsatoshi : BitVec 64) (feeratePerKw : BitVec 32)
    (localConfig remoteConfig : ChannelConfig) (funder : Side)
    (chainparams : Option Chainparams) : Option Channel :=
  if fundingSatoshis > BitVec.allOnes 64 / 1000 then none
  else
    let fundingMsat := fundingSatoshis * 1000
    if localMsatoshi > fundingMsat then none
    else
      match chainparams with
      | none => none
      | some params =>
        let owed : Side → BitVec 64 := fun
          | .local => localMsatoshi
          | .remote => fundingMsat - localMsatoshi
        some
          { fundingMsat
            funder
            config := fun
              | .local => localConfig
              | .remote => remoteConfig
            htlcs := []
            changesPending := fun _ => false
            view := fun _ => ⟨feeratePerKw, owed⟩
            maxPaymentMsat := params.maxPaymentMsat }

/-- `new_full_channel`: each side's view may start at its own feerate. -/
def newFullChannel (fundingSatoshis localMsatoshi : BitVec 64) (feeratePerKw : Side → BitVec 32)
    (localConfig remoteConfig : ChannelConfig) (funder : Side)
    (chainparams : Option Chainparams) : Option Channel :=
  (newInitialChannel fundingSatoshis localMsatoshi (feeratePerKw .local) localConfig
      remoteConfig funder chainparams).map fun c =>
    c.setView .remote { c.view .remote with feeratePerKw := feeratePerKw .remote }

/-! ## Balances and fees -/

/-- `balance_adding_htlc`: adding an HTLC takes its amount from its owner. -/
def balanceAddingHtlc (h : Htlc) (side : Side) : BitVec 64 :=
  if h.owner = side then -h.msatoshi else 0

/-- `balance_removing_htlc`: a fulfilled HTLC pays the recipient, any other returns to the
owner. -/
def balanceRemovingHtlc (h : Htlc) (side : Side) : BitVec 64 :=
  let paidTo := if h.r.isSome then h.owner.other else h.owner
  if side = paidTo then h.msatoshi else 0

/-- `gather_htlcs`: the HTLCs committed on `side`, those of them pending removal, and those
pending addition. -/
def gatherHtlcs (htlcs : List Htlc) (side : Side) : List Htlc × List Htlc × List Htlc :=
  let committed := htlcs.filter fun h => h.has (htlcFlag side htlcFCommitted)
  let pendingRemoval := committed.filter fun h => h.has (htlcFlag side htlcFPending)
  let pendingAddition := htlcs.filter fun h =>
    !h.has (htlcFlag side htlcFCommitted) && h.has (htlcFlag side htlcFPending)
  (committed, pendingRemoval, pendingAddition)

/-- `total_offered_msatoshis`. -/
def totalOfferedMsatoshis (htlcs : List Htlc) (side : Side) : BitVec 64 :=
  (htlcs.filter fun h => h.owner = side).foldl (fun total h => total + h.msatoshi) 0

/-- `htlc_timeout_fee`. -/
def htlcTimeoutFee (feeratePerKw : BitVec 32) : BitVec 64 :=
  feeratePerKw.setWidth 64 * 663 / 1000

/-- `htlc_success_fee`. -/
def htlcSuccessFee (feeratePerKw : BitVec 32) : BitVec 64 :=
  feeratePerKw.setWidth 64 * 703 / 1000

/-- `trim`: an output below the dust limit after its second-stage fee is left out. -/
def trim (h : Htlc) (feeratePerKw : BitVec 32) (dustLimitSatoshis : BitVec 64)
    (side : Side) : Bool :=
  let htlcFee := if h.owner = side then htlcTimeoutFee feeratePerKw
    else htlcSuccessFee feeratePerKw
  decide (h.msatoshi / 1000 < dustLimitSatoshis + htlcFee)

/-- `commit_tx_num_untrimmed`, as a `size_t`. -/
def commitTxNumUntrimmed (htlcs : List Htlc) (feeratePerKw : BitVec 32)
    (dustLimitSatoshis : BitVec 64) (side : Side) : BitVec 64 :=
  BitVec.ofNat 64 (htlcs.countP fun h => !trim h feeratePerKw dustLimitSatoshis side)

/-- `commit_tx_base_fee`: `feerate_per_kw * (724 + 172 * num_untrimmed_htlcs) / 1000`. -/
def commitTxBaseFee (feeratePerKw : BitVec 32) (numUntrimmedHtlcs : BitVec 64) : BitVec 64 :=
  let weight : BitVec 64 := 724 + 172 * numUntrimmedHtlcs
  feeratePerKw.setWidth 64 * weight / 1000

/-- `channel_reserve_msat`: this side's reserve is set by the other side's config. -/
def channelReserveMsat (c : Channel) (side : Side) : BitVec 64 :=
  (c.config side.other).channelReserveSatoshis * 1000

/-! ## Adding an HTLC -/

/-- The HTLC `add_htlc` builds. -/
def newHtlc (state : HtlcState) (id msatoshi : BitVec 64) (cltvExpiry : BitVec 32)
    (paymentHash : Sha256) : Htlc :=
  ⟨state, id, msatoshi, cltvExpiry, paymentHash, none, none, 0⟩

/-- The fee `add_htlc` charges against the sender: the base fee of the recipient's next
commitment when the sender is the funder, else nothing. -/
def addHtlcFee (c : Channel) (htlc : Htlc) (committed removing adding : List Htlc) :
    BitVec 64 :=
  let recipient := htlc.owner.other
  if c.funder = htlc.owner then
    let feerate := (c.view recipient).feeratePerKw
    let dust := (c.config recipient).dustLimitSatoshis
    let untrimmed := commitTxNumUntrimmed committed feerate dust recipient
      + commitTxNumUntrimmed adding feerate dust recipient
      - commitTxNumUntrimmed removing feerate dust recipient
    commitTxBaseFee feerate untrimmed
  else 0

/-- The last part of `add_htlc`: the HTLC goes into the map, and a pending-change bit is set
for each side whose pending flag its state carries. -/
def Channel.insertHtlc (c : Channel) (htlc : Htlc) : Channel :=
  let c := { c with htlcs := c.htlcs ++ [htlc] }
  let c := if htlc.has (htlcFlag .local htlcFPending) then c.setPending .local true else c
  if htlc.has (htlcFlag .remote htlcFPending) then c.setPending .remote true else c

/-- `add_htlc`. An error leaves the channel unchanged; `none` is a failed `assert`. -/
def addHtlc (c : Channel) (state : HtlcState) (id msatoshi : BitVec 64)
    (cltvExpiry : BitVec 32) (paymentHash : Sha256) (enforceAggregateLimits : Bool) :
    Option (ChannelAddErr × Channel) :=
  let htlc := newHtlc state id msatoshi cltvExpiry paymentHash
  let sender := htlc.owner
  let recipient := sender.other
  if cltvExpiry ≥ 500000000 then some (.invalidExpiry, c)
  else match htlcGet c.htlcs id htlc.owner with
  | some old =>
    if old.state ≠ htlc.state ∨ old.msatoshi ≠ htlc.msatoshi ∨ old.expiry ≠ htlc.expiry ∨
        old.rhash ≠ htlc.rhash then some (.duplicateIdDifferent, c)
    else some (.duplicate, c)
  | none =>
    let view := c.view recipient
    let config := c.config recipient
    if htlc.msatoshi = 0 then some (.htlcBelowMinimum, c)
    else if htlc.msatoshi < config.htlcMinimumMsat then some (.htlcBelowMinimum, c)
    else if htlc.msatoshi > c.maxPaymentMsat then some (.maxHtlcValueExceeded, c)
    else
      let (committed, removing, adding) := gatherHtlcs c.htlcs recipient
      let adding := adding ++ [htlc]
      if enforceAggregateLimits ∧
          BitVec.ofNat 64 committed.length - BitVec.ofNat 64 removing.length
            + BitVec.ofNat 64 adding.length > config.maxAcceptedHtlcs.setWidth 64 then
        some (.tooManyHtlcs, c)
      else
        let msatInHtlcs := totalOfferedMsatoshis committed htlc.owner
          - totalOfferedMsatoshis removing htlc.owner + totalOfferedMsatoshis adding htlc.owner
        if enforceAggregateLimits ∧ msatInHtlcs > config.maxHtlcValueInFlightMsat then
          some (.maxHtlcValueExceeded, c)
        else
          let feeMsat := addHtlcFee c htlc committed removing adding
          if feeMsat.slt 0 then none
          else
            let balanceMsat := view.owedMsat sender
            if balanceMsat.slt 0 then none
            else
              let balanceMsat := removing.foldl
                (fun b h => b + balanceRemovingHtlc h sender) balanceMsat
              if balanceMsat.slt 0 then none
              else
                let balanceMsat := adding.foldl
                  (fun b h => b + balanceAddingHtlc h sender) balanceMsat
                if enforceAggregateLimits ∧
                    (balanceMsat - feeMsat).slt (channelReserveMsat c sender) then
                  some (.channelCapacityExceeded, c)
                else some (.addOk, c.insertHtlc htlc)

/-- `channel_add_htlc`: a new HTLC offered by `sender`, with every limit enforced. -/
def channelAddHtlc (c : Channel) (sender : Side) (id msatoshi : BitVec 64)
    (cltvExpiry : BitVec 32) (paymentHash : Sha256) : Option (ChannelAddErr × Channel) :=
  let state : HtlcState := if sender = .local then .sentAddHtlc else .rcvdAddHtlc
  addHtlc c state id msatoshi cltvExpiry paymentHash true

/-! ## Fulfilling and failing -/

/-- The state change shared by `channel_fulfill_htlc` and `channel_fail_htlc` once the
HTLC is committed on the side that did not offer it: only an irrevocably committed HTLC may
start its removal. -/
def startRemoval (c : Channel) (owner : Side) (htlc : Htlc) : ChannelRemoveErr × Channel :=
  let remove (next : HtlcState) : Channel :=
    let htlcs := htlcSet htlc.id owner { htlc with state := next } c.htlcs
    { c with htlcs }.setPending owner true
  if htlc.state = .sentAddAckRevocation then (.removeOk, remove .rcvdRemoveHtlc)
  else if htlc.state = .rcvdAddAckRevocation then (.removeOk, remove .sentRemoveHtlc)
  else (.htlcNotIrrevocable, c)

/-- `channel_fulfill_htlc`, for a hash function `sha256`. The preimage is stored before the
commitment checks, so it stays even when one of them fails. -/
def channelFulfillHtlc (sha256 : Preimage → Sha256) (c : Channel) (owner : Side)
    (id : BitVec 64) (preimage : Preimage) : ChannelRemoveErr × Channel :=
  match htlcGet c.htlcs id owner with
  | none => (.noSuchId, c)
  | some htlc =>
    if htlc.r.isSome then (.alreadyFulfilled, c)
    else if sha256 preimage ≠ htlc.rhash then (.badPreimage, c)
    else
      let htlc := { htlc with r := some preimage }
      let c := { c with htlcs := htlcSet id owner htlc c.htlcs }
      if !htlc.has (htlcFlag htlc.owner.other htlcFCommitted) then (.htlcUncommitted, c)
      else startRemoval c owner htlc

/-- `channel_fail_htlc`. -/
def channelFailHtlc (c : Channel) (owner : Side) (id : BitVec 64) :
    ChannelRemoveErr × Channel :=
  match htlcGet c.htlcs id owner with
  | none => (.noSuchId, c)
  | some htlc =>
    if !htlc.has (htlcFlag htlc.owner.other htlcFCommitted) then (.htlcUncommitted, c)
    else startRemoval c owner htlc

end Dexfin.Lightning
