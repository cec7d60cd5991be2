import Dexfin.Lightning.Calls

/-!
# The reserve check of `add_htlc`

`add_htlc` looks at the recipient's view: the sender's balance there once every pending
change is applied (`pendingBalance`) must not fall below the sender's reserve after the
base fee of the recipient's next commitment (`pendingBaseFee`), when the sender is the
funder. `channelAddHtlc_reserve` says what an accepted HTLC leaves: that balance, less the
fee, is at least the reserve.

`commit_tx_base_fee` is in satoshi, while `commit_tx` subtracts it in millisatoshi
(`base_fee_msat = commit_tx_base_fee(...) * 1000`), and the balance and the reserve are in
millisatoshi: the check takes the fee a thousand times too small, so an accepted HTLC can
leave the funder less than its reserve plus the fee that its commitment will pay
(`pendingBalance_lt_reserve_fee`).
-/

namespace Dexfin.Lightning

/-- `sender`'s balance in the other side's view once every change pending for that side is
applied: the balance `add_htlc` holds against the reserve. -/
def pendingBalance (c : Channel) (sender : Side) : BitVec 64 :=
  let (_, removing, adding) := gatherHtlcs c.htlcs sender.other
  adding.foldl (fun b h => b + balanceAddingHtlc h sender)
    (removing.foldl (fun b h => b + balanceRemovingHtlc h sender)
      ((c.view sender.other).owedMsat sender))

/-- When `sender` is the funder, `commit_tx_base_fee` of the other side's next commitment, in
satoshi: its feerate, over the HTLCs that commitment will hold that are not trimmed. -/
def pendingBaseFee (c : Channel) (sender : Side) : BitVec 64 :=
  let recipient := sender.other
  if c.funder = sender then
    let feerate := (c.view recipient).feeratePerKw
    let dust := (c.config recipient).dustLimitSatoshis
    let (committed, removing, adding) := gatherHtlcs c.htlcs recipient
    commitTxBaseFee feerate (commitTxNumUntrimmed committed feerate dust recipient
      + commitTxNumUntrimmed adding feerate dust recipient
      - commitTxNumUntrimmed removing feerate dust recipient)
  else 0

/-- A new HTLC of `channel_add_htlc` is owned by its sender, pending on the recipient's side
and not yet committed there. -/
theorem newHtlc_addState (sender : Side) (id msatoshi : BitVec 64) (cltvExpiry : BitVec 32)
    (paymentHash : Sha256) :
    let htlc := newHtlc (if sender = .local then .sentAddHtlc else .rcvdAddHtlc) id msatoshi
      cltvExpiry paymentHash
    htlc.owner = sender ∧ htlc.has (htlcFlag sender.other htlcFCommitted) = false ∧
      htlc.has (htlcFlag sender.other htlcFPending) = true := by
  simp only [newHtlc, Htlc.owner, Htlc.has]
  cases sender <;> decide

/-- An HTLC pending on `side` and not committed there joins the pending additions. -/
theorem gatherHtlcs_append_adding {htlcs : List Htlc} {h : Htlc} {side : Side}
    (hc : h.has (htlcFlag side htlcFCommitted) = false)
    (hp : h.has (htlcFlag side htlcFPending) = true) :
    gatherHtlcs (htlcs ++ [h]) side =
      ((gatherHtlcs htlcs side).1, (gatherHtlcs htlcs side).2.1,
        (gatherHtlcs htlcs side).2.2 ++ [h]) := by
  simp [gatherHtlcs, List.filter_append, hc, hp]

section Insert

variable {c : Channel} {h : Htlc} {sender : Side}

/-- Once an HTLC pending on the recipient's side is in, the balance of its owner there is
the one `add_htlc` checked. -/
theorem pendingBalance_insertHtlc (hown : h.owner = sender)
    (hc : h.has (htlcFlag sender.other htlcFCommitted) = false)
    (hp : h.has (htlcFlag sender.other htlcFPending) = true) :
    pendingBalance (c.insertHtlc h) sender = addBalance c h := by
  subst hown
  simp only [pendingBalance, addBalance, Channel.insertHtlc_htlcs, Channel.insertHtlc_view,
    gatherHtlcs_append_adding hc hp]

/-- Once an HTLC pending on the recipient's side is in, the fee of its owner there is the one
`add_htlc` charged. -/
theorem pendingBaseFee_insertHtlc (hown : h.owner = sender)
    (hc : h.has (htlcFlag sender.other htlcFCommitted) = false)
    (hp : h.has (htlcFlag sender.other htlcFPending) = true) :
    pendingBaseFee (c.insertHtlc h) sender = addFee c h := by
  subst hown
  have hfunder : (c.insertHtlc h).funder = c.funder :=
    congrArg ChannelParams.funder (Channel.insertHtlc_params c h)
  have hconfig : (c.insertHtlc h).config = c.config :=
    congrArg ChannelParams.config (Channel.insertHtlc_params c h)
  simp only [pendingBaseFee, addFee, addHtlcFee, Channel.insertHtlc_htlcs,
    Channel.insertHtlc_view, hfunder, hconfig, gatherHtlcs_append_adding hc hp]

/-- Inserting an HTLC keeps every reserve. -/
theorem channelReserveMsat_insertHtlc : channelReserveMsat (c.insertHtlc h) sender =
    channelReserveMsat c sender := by
  have hconfig : (c.insertHtlc h).config = c.config :=
    congrArg ChannelParams.config (Channel.insertHtlc_params c h)
  simp only [channelReserveMsat, hconfig]

end Insert

/-- An HTLC that `channel_add_htlc` accepts leaves its sender, in the recipient's view after
every pending change, at least its reserve after the base fee in satoshi. -/
theorem channelAddHtlc_reserve {c c' : Channel} {sender : Side} {id msatoshi : BitVec 64}
    {cltvExpiry : BitVec 32} {paymentHash : Sha256}
    (h : channelAddHtlc c sender id msatoshi cltvExpiry paymentHash = some (.addOk, c')) :
    ¬ (pendingBalance c' sender - pendingBaseFee c' sender).slt (channelReserveMsat c' sender) := by
  obtain ⟨hown, hc, hp⟩ := newHtlc_addState sender id msatoshi cltvExpiry paymentHash
  rcases addHtlc_cases h with ⟨hne, -⟩ | ⟨-, rfl, hacc⟩
  · exact absurd rfl hne
  · have hcap := hacc.capacity rfl
    rw [hown] at hcap
    rwa [pendingBalance_insertHtlc hown hc hp, pendingBaseFee_insertHtlc hown hc hp,
      channelReserveMsat_insertHtlc]

/-- A configuration asking for a reserve of 1000 satoshi, with no dust limit and no minimum,
room for ten HTLCs and no limit on their value. -/
def thousandReserveConfig : ChannelConfig := ⟨0, BitVec.allOnes 64, 1000, 0, 10⟩

/-- A 100000 satoshi channel that we fund and hold entirely, at 253 satoshi per kiloweight. -/
def fundedChannel : Option Channel :=
  newFullChannel 100000 100000000 (fun _ => 253) thousandReserveConfig thousandReserveConfig
    .local (some ⟨(1 <<< 24) - 1, 0xFFFFFFFF⟩)

/-- We offer 98999774 msat: in the remote view we keep 1000226 msat, which passes the check
against the 1000000 msat reserve and the 226 satoshi fee, but is 225774 msat short of the
reserve plus the 226000 msat that our next commitment pays in fees. -/
theorem pendingBalance_lt_reserve_fee :
    ∃ c, fundedChannel.bind (fun c => c.runOk (fun _ => 0) [.addHtlc .local 0 98999774 100 0]) =
        some c ∧ (pendingBalance c .local).toNat = 1000226 ∧
      (channelReserveMsat c .local).toNat = 1000000 ∧ (pendingBaseFee c .local).toNat = 226 ∧
      (pendingBalance c .local).toNat <
        (channelReserveMsat c .local).toNat + (pendingBaseFee c .local).toNat * 1000 := by
  have hval : (fundedChannel.bind fun c => c.runOk (fun _ => 0)
      [.addHtlc .local 0 98999774 100 0]).map (fun c => ((pendingBalance c .local).toNat,
        (channelReserveMsat c .local).toNat, (pendingBaseFee c .local).toNat)) =
      some (1000226, 1000000, 226) := by
    decide
  obtain ⟨c, hc, hv⟩ := Option.map_eq_some_iff.1 hval
  simp only [Prod.mk.injEq] at hv
  obtain ⟨h₁, h₂, h₃⟩ := hv
  refine ⟨c, hc, h₁, h₂, h₃, ?_⟩
  rw [h₁, h₂, h₃]
  decide

end Dexfin.Lightning
