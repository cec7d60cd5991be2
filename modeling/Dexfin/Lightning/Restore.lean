import Dexfin.Lightning.Commit

/-!
# Restoring a channel

When `channeld` restarts, `lightningd` hands it every HTLC it still keeps, with its state
and how it was settled (`peer_htlcs`), and `channel_force_htlcs` rebuilds the HTLC map on a
channel made by `new_full_channel` from the balance `lightningd` keeps. The balances of the
two views are then recomputed HTLC by HTLC (`adjust_balance`), where the live channel moved
them one commitment flag at a time. `lightningd` drops an HTLC from its records once it is
settled on both sides, and adjusts its own balance then (`remove_htlc_in`,
`remove_htlc_out`).
-/

namespace Dexfin.Lightning

/-- `struct added_htlc`, without the onion. -/
structure AddedHtlc where
  /-- `id`. -/
  id : BitVec 64
  /-- `amount_msat`. -/
  amountMsat : BitVec 64
  /-- `payment_hash`. -/
  paymentHash : Sha256
  /-- `cltv_expiry`. -/
  cltvExpiry : BitVec 32
  deriving DecidableEq, Repr

/-- `struct fulfilled_htlc`. -/
structure FulfilledHtlc where
  /-- `id`. -/
  id : BitVec 64
  /-- `payment_preimage`. -/
  paymentPreimage : Preimage
  deriving DecidableEq, Repr

/-- `struct failed_htlc`, without the channel id of the failure. -/
structure FailedHtlc where
  /-- `id`. -/
  id : BitVec 64
  /-- `failcode`. -/
  failcode : BitVec 16
  /-- `failreason`. -/
  failreason : Option (List UInt8)
  deriving DecidableEq, Repr

/-! ## `adjust_balance` -/

/-- One pass of the loop of `adjust_balance`: the HTLC was added to the commitment of
`side` if that side ever committed it, and removed again, by how it was settled, if that
side no longer does. A removed HTLC that is neither failed nor fulfilled stops the loop,
after its addition. -/
def adjustSide (c : Channel) (htlc : Htlc) (side : Side) : Bool × Channel :=
  if !htlc.has (htlcFlag side htlcFWasCommitted) then (true, c)
  else
    let v := (c.view side).addBoth (balanceAddingHtlc htlc)
    if htlc.has (htlcFlag side htlcFCommitted) then (true, c.setView side v)
    else if htlc.fail.isNone ∧ htlc.failcode = 0 ∧ htlc.r.isNone then (false, c.setView side v)
    else (true, c.setView side (v.addBoth (balanceRemovingHtlc htlc)))

/-- `adjust_balance`: `LOCAL` first, then `REMOTE`. -/
def adjustBalance (c : Channel) (htlc : Htlc) : Bool × Channel :=
  match adjustSide c htlc .local with
  | (false, c) => (false, c)
  | (true, c) => adjustSide c htlc .remote

/-! ## `channel_force_htlcs` -/

/-- The first loop: each HTLC is added in its own state, without the aggregate limits. -/
def forceAdd (c : Channel) : List (AddedHtlc × HtlcState) → Option (Bool × Channel)
  | [] => some (true, c)
  | (htlc, hstate) :: rest =>
    match addHtlc c hstate htlc.id htlc.amountMsat htlc.cltvExpiry htlc.paymentHash false with
    | none => none
    | some (.addOk, c) => forceAdd c rest
    | some (_, c) => some (false, c)

/-- The checks both settling loops make before they record the settlement: the HTLC
exists, is not settled yet, and is being removed. -/
def settleable (htlc : Htlc) : Bool :=
  htlc.r.isNone && htlc.fail.isNone && htlc.failcode == 0 && htlc.has htlcRemoving

/-- The second loop: the preimages of fulfilled HTLCs. -/
def forceFulfill (c : Channel) : List (FulfilledHtlc × Side) → Bool × Channel
  | [] => (true, c)
  | (f, side) :: rest =>
    match htlcGet c.htlcs f.id side with
    | none => (false, c)
    | some htlc =>
      if !settleable htlc then (false, c)
      else
        forceFulfill
          { c with htlcs := htlcSet f.id side { htlc with r := some f.paymentPreimage } c.htlcs }
          rest

/-- The third loop: the failures of failed HTLCs. -/
def forceFail (c : Channel) : List (FailedHtlc × Side) → Bool × Channel
  | [] => (true, c)
  | (f, side) :: rest =>
    match htlcGet c.htlcs f.id side with
    | none => (false, c)
    | some htlc =>
      if !settleable htlc then (false, c)
      else
        let htlc := { htlc with failcode := f.failcode, fail := f.failreason }
        forceFail { c with htlcs := htlcSet f.id side htlc c.htlcs } rest

/-- The last loop: the balances, HTLC by HTLC. An HTLC that cannot be found is the `NULL`
that `adjust_balance` would dereference. -/
def forceAdjust (c : Channel) : List (AddedHtlc × HtlcState) → Option (Bool × Channel)
  | [] => some (true, c)
  | (added, hstate) :: rest =>
    match htlcGet c.htlcs added.id hstate.owner with
    | none => none
    | some htlc =>
      match adjustBalance c htlc with
      | (false, c) => some (false, c)
      | (true, c) => forceAdjust c rest

/-- The arguments of `channel_force_htlcs`. -/
structure ForceArgs where
  /-- `htlcs`. -/
  htlcs : List AddedHtlc
  /-- `hstates`. -/
  hstates : List HtlcState
  /-- `fulfilled`. -/
  fulfilled : List FulfilledHtlc
  /-- `fulfilled_sides`. -/
  fulfilledSides : List Side
  /-- `failed`. -/
  failed : List FailedHtlc
  /-- `failed_sides`. -/
  failedSides : List Side

/-- `channel_force_htlcs`. A failed check returns `false` with whatever the earlier loops
already changed; `none` is a failed `assert`. -/
def channelForceHtlcs (c : Channel) (args : ForceArgs) : Option (Bool × Channel) :=
  if args.hstates.length ≠ args.htlcs.length then some (false, c)
  else if args.fulfilled.length ≠ args.fulfilledSides.length then some (false, c)
  else if args.failed.length ≠ args.failedSides.length then some (false, c)
  else
    match forceAdd c (args.htlcs.zip args.hstates) with
    | none => none
    | some (false, c) => some (false, c)
    | some (true, c) =>
      match forceFulfill c (args.fulfilled.zip args.fulfilledSides) with
      | (false, c) => some (false, c)
      | (true, c) =>
        match forceFail c (args.failed.zip args.failedSides) with
        | (false, c) => some (false, c)
        | (true, c) => forceAdjust c (args.htlcs.zip args.hstates)

/-! ## What `lightningd` keeps -/

/-- The fields of `struct htlc_in` and `struct htlc_out` that `peer_htlcs` reads. The
owner is `REMOTE` for an incoming HTLC and `LOCAL` for an outgoing one. -/
structure LdHtlc where
  /-- `key.id`. -/
  id : BitVec 64
  /-- Which map the HTLC is in. -/
  owner : Side
  /-- `msatoshi`. -/
  msatoshi : BitVec 64
  /-- `payment_hash`. -/
  paymentHash : Sha256
  /-- `cltv_expiry`. -/
  cltvExpiry : BitVec 32
  /-- `hstate`. -/
  hstate : HtlcState
  /-- `preimage`. -/
  preimage : Option Preimage
  /-- `failcode`. -/
  failcode : BitVec 16
  /-- `failuremsg`. -/
  failuremsg : Option (List UInt8)
  deriving DecidableEq, Repr

/-- `peer_htlcs`: every HTLC `lightningd` keeps, a failure for each failed one, and a
preimage for each fulfilled one. -/
def peerHtlcs (hs : List LdHtlc) : ForceArgs where
  htlcs := hs.map fun h => ⟨h.id, h.msatoshi, h.paymentHash, h.cltvExpiry⟩
  hstates := hs.map LdHtlc.hstate
  fulfilled := hs.filterMap fun h => h.preimage.map fun p => ⟨h.id, p⟩
  fulfilledSides := hs.filterMap fun h => h.preimage.map fun _ => h.owner
  failed := hs.filterMap fun h =>
    if h.failuremsg.isSome ∨ h.failcode ≠ 0 then some ⟨h.id, h.failcode, h.failuremsg⟩ else none
  failedSides := hs.filterMap fun h =>
    if h.failuremsg.isSome ∨ h.failcode ≠ 0 then some h.owner else none

/-- `remove_htlc_in`: an incoming HTLC we fulfilled credits us. -/
def removeHtlcIn (ourMsatoshi : BitVec 64) (hin : LdHtlc) : BitVec 64 :=
  if hin.preimage.isSome then ourMsatoshi + hin.msatoshi else ourMsatoshi

/-- `remove_htlc_out`: an outgoing HTLC that was fulfilled is paid from our balance. -/
def removeHtlcOut (ourMsatoshi : BitVec 64) (hout : LdHtlc) : BitVec 64 :=
  if hout.preimage.isSome then ourMsatoshi - hout.msatoshi else ourMsatoshi

/-- An HTLC `lightningd` drops: settled on both sides, `SENT_REMOVE_ACK_REVOCATION` for an
incoming one and `RCVD_REMOVE_ACK_REVOCATION` for an outgoing one. -/
def LdHtlc.settled (h : LdHtlc) : Bool :=
  h.hstate = .sentRemoveAckRevocation || h.hstate = .rcvdRemoveAckRevocation

/-- `channel->our_msatoshi` after the settled HTLCs have been removed, in the order they
are given. -/
def ourMsatoshiAfter (ourMsatoshi : BitVec 64) (settled : List LdHtlc) : BitVec 64 :=
  settled.foldl (fun our h => if h.owner = .remote then removeHtlcIn our h
    else removeHtlcOut our h) ourMsatoshi

end Dexfin.Lightning
