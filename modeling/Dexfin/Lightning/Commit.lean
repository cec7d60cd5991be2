import Dexfin.Lightning.Channel

/-!
# Commitments

The four calls of the commitment dance move every HTLC that sits in one of four listed
states to the next state (`change_htlcs`), and a view pays out when an HTLC enters or
leaves that view's commitment (`htlc_incstate`). The funder's feerate change reaches each
view at its own step. This file also holds `channel_update_feerate` and the call sequence
of a channel run.
-/

namespace Dexfin.Lightning

/-- `HTLC_LOCAL_F_OWNER | HTLC_REMOTE_F_OWNER`. -/
def ownerBits : ℕ := htlcFlag .local htlcFOwner ||| htlcFlag .remote htlcFOwner

/-- The balance change of `htlc_incstate` for the view of `sidechanged`: the HTLC's amount
leaves its owner when it enters that commitment, and goes to whom it pays when it leaves. -/
def incstateView (v : ChannelView) (pre post : Htlc) (sidechanged : Side) : ChannelView :=
  let committedF := htlcFlag sidechanged htlcFCommitted
  if !pre.has committedF && post.has committedF then v.addBoth (balanceAddingHtlc post)
  else if pre.has committedF && !post.has committedF then v.addBoth (balanceRemovingHtlc post)
  else v

/-- `htlc_incstate`. `none` is a failed `assert`: the state after the last one has no
flags, and an HTLC may not change owner. -/
def htlcIncstate (view : Side → ChannelView) (h : Htlc) (sidechanged : Side) :
    Option ((Side → ChannelView) × Htlc) :=
  match h.state.succ? with
  | none => none
  | some next =>
    if htlcStateFlags h.state &&& ownerBits ≠ htlcStateFlags next &&& ownerBits then none
    else
      let post := { h with state := next }
      some (Function.update view sidechanged (incstateView (view sidechanged) h post sidechanged),
        post)

/-- The inner loop of `change_htlcs`: each listed state, in order, that the HTLC is in
moves it on. The state is read again at each entry, as the loop does. -/
def changeHtlc (sidechanged : Side) (view : Side → ChannelView) (h : Htlc) (cflags : ℕ) :
    List HtlcState → Option ((Side → ChannelView) × Htlc × ℕ)
  | [] => some (view, h, cflags)
  | st :: states =>
    if h.state = st then
      match htlcIncstate view h sidechanged with
      | none => none
      | some (view', h') =>
        changeHtlc sidechanged view' h'
          (cflags ||| (htlcStateFlags st ^^^ htlcStateFlags h'.state)) states
    else changeHtlc sidechanged view h cflags states

/-- The outer loop of `change_htlcs`, over the HTLCs in iteration order. -/
def changeHtlcList (sidechanged : Side) (states : List HtlcState) (view : Side → ChannelView)
    (cflags : ℕ) : List Htlc → Option (List Htlc × (Side → ChannelView) × ℕ)
  | [] => some ([], view, cflags)
  | h :: hs =>
    match changeHtlc sidechanged view h cflags states with
    | none => none
    | some (view', h', cflags') =>
      match changeHtlcList sidechanged states view' cflags' hs with
      | none => none
      | some (hs', view'', cflags'') => some (h' :: hs', view'', cflags'')

/-- `change_htlcs`, with the flags it changed. -/
def Channel.changeHtlcs (c : Channel) (sidechanged : Side) (states : List HtlcState) :
    Option (Channel × ℕ) :=
  (changeHtlcList sidechanged states c.view 0 c.htlcs).map fun (htlcs, view, cflags) =>
    ({ c with htlcs, view }, cflags)

/-- The shape of `channel_sending_commit` and `channel_rcvd_commit`: with nothing pending
for `side`, the change is made inside an `assert` that it changed nothing. -/
def Channel.commitFor (c : Channel) (side : Side) (states : List HtlcState) :
    Option (Bool × Channel) :=
  if !c.changesPending side then
    match c.changeHtlcs side states with
    | none => none
    | some (c', cflags) => if cflags = 0 then some (false, c') else none
  else
    match c.changeHtlcs side states with
    | none => none
    | some (c', _) => some (true, c'.setPending side false)

/-- `channel_sending_commit`. -/
def channelSendingCommit (c : Channel) : Option (Bool × Channel) :=
  c.commitFor .remote sendingCommitStates

/-- `channel_rcvd_commit`. -/
def channelRcvdCommit (c : Channel) : Option (Bool × Channel) :=
  c.commitFor .local rcvdCommitStates

/-- The shape of `channel_rcvd_revoke_and_ack` and `channel_sending_revoke_and_ack`: a
revocation for `side` may queue changes on that side, and when the funder is `side` the
other view's feerate now applies to its own view. -/
def Channel.revokeFor (c : Channel) (side : Side) (states : List HtlcState) :
    Option (Bool × Channel) :=
  match c.changeHtlcs side states with
  | none => none
  | some (c, change) =>
    let c := if change &&& htlcFlag side htlcFPending ≠ 0 then c.setPending side true else c
    let c :=
      if c.funder = side ∧ (c.view .local).feeratePerKw ≠ (c.view .remote).feeratePerKw then
        (c.setView side { c.view side with feeratePerKw := (c.view side.other).feeratePerKw })
          |>.setPending side true
      else c
    some (c.changesPending side, c)

/-- `channel_rcvd_revoke_and_ack`. -/
def channelRcvdRevokeAndAck (c : Channel) : Option (Bool × Channel) :=
  c.revokeFor .local rcvdRevokeAndAckStates

/-- `channel_sending_revoke_and_ack`. -/
def channelSendingRevokeAndAck (c : Channel) : Option (Bool × Channel) :=
  c.revokeFor .remote sendingRevokeAndAckStates

/-! ## Feerate -/

/-- `can_funder_afford_feerate`: the funder's balance in the other side's view covers its
reserve and the base fee at the new rate. -/
def canFunderAffordFeerate (c : Channel) (feeratePerKw : BitVec 32) : Bool :=
  let side := c.funder.other
  let dust := (c.config side).dustLimitSatoshis
  let (committed, removing, adding) := gatherHtlcs c.htlcs side
  let untrimmed := commitTxNumUntrimmed committed feeratePerKw dust side
    + commitTxNumUntrimmed adding feeratePerKw dust side
    - commitTxNumUntrimmed removing feeratePerKw dust side
  let feeMsat := commitTxBaseFee feeratePerKw untrimmed
  decide ((c.view side).owedMsat c.funder ≥ channelReserveMsat c c.funder + feeMsat)

/-- `channel_update_feerate`: the new rate goes to the non-funder's view first. -/
def channelUpdateFeerate (c : Channel) (feeratePerKw : BitVec 32) : Bool × Channel :=
  if !canFunderAffordFeerate c feeratePerKw then (false, c)
  else
    let side := c.funder.other
    (true, (c.setView side { c.view side with feeratePerKw }).setPending side true)

/-! ## Runs -/

/-- The calls a channel run is made of, with their arguments. -/
inductive Call
  | addHtlc (sender : Side) (id msatoshi : BitVec 64) (cltvExpiry : BitVec 32)
      (paymentHash : Sha256)
  | fulfillHtlc (owner : Side) (id : BitVec 64) (preimage : Preimage)
  | failHtlc (owner : Side) (id : BitVec 64)
  | updateFeerate (feeratePerKw : BitVec 32)
  | sendingCommit
  | rcvdRevokeAndAck
  | rcvdCommit
  | sendingRevokeAndAck
  deriving DecidableEq, Repr

/-- One call: whether it succeeded, and the channel after it. `none` if the daemon aborts.
The commitment calls cannot fail; their `bool` only says whether anything is pending. -/
def Channel.apply (sha256 : Preimage → Sha256) (c : Channel) : Call → Option (Bool × Channel)
  | .addHtlc sender id msatoshi cltvExpiry paymentHash =>
    (channelAddHtlc c sender id msatoshi cltvExpiry paymentHash).map fun r =>
      (r.1 = .addOk, r.2)
  | .fulfillHtlc owner id preimage =>
    let (e, c) := channelFulfillHtlc sha256 c owner id preimage
    some (e = .removeOk, c)
  | .failHtlc owner id =>
    let (e, c) := channelFailHtlc c owner id
    some (e = .removeOk, c)
  | .updateFeerate feeratePerKw => some (channelUpdateFeerate c feeratePerKw)
  | .sendingCommit => (channelSendingCommit c).map fun r => (true, r.2)
  | .rcvdRevokeAndAck => (channelRcvdRevokeAndAck c).map fun r => (true, r.2)
  | .rcvdCommit => (channelRcvdCommit c).map fun r => (true, r.2)
  | .sendingRevokeAndAck => (channelSendingRevokeAndAck c).map fun r => (true, r.2)

/-- The channel after the calls in order, whatever each returns; `none` once one aborts. -/
def Channel.run (sha256 : Preimage → Sha256) : Channel → List Call → Option Channel
  | c, [] => some c
  | c, call :: calls =>
    match c.apply sha256 call with
    | none => none
    | some (_, c') => c'.run sha256 calls

/-- The channel after the calls in order, when every one of them succeeds. -/
def Channel.runOk (sha256 : Preimage → Sha256) : Channel → List Call → Option Channel
  | c, [] => some c
  | c, call :: calls =>
    match c.apply sha256 call with
    | some (true, c') => c'.runOk sha256 calls
    | _ => none

end Dexfin.Lightning
