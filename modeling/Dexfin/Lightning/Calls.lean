import Dexfin.Lightning.Pass

/-!
# What each call does

One lemma per call of the channel says everything the call can do to the HTLC map and the
balances: which HTLCs it adds, moves or changes, and which checks it passed on the way.
The proofs about runs use these and never unfold a call again.
-/

namespace Dexfin.Lightning

theorem htlcGet_spec {htlcs : List Htlc} {id : BitVec 64} {owner : Side} {h : Htlc}
    (hget : htlcGet htlcs id owner = some h) : h ∈ htlcs ∧ h.id = id ∧ h.owner = owner := by
  have hkey := List.find?_some hget
  simp only [Htlc.isKey, Htlc.has, Bool.and_eq_true, beq_iff_eq, HtlcState.has_owner_flag,
    decide_eq_true_eq] at hkey
  exact ⟨List.mem_of_find?_eq_some hget, hkey.1, hkey.2⟩

theorem Htlc.isKey_self (h : Htlc) : h.isKey h.id h.owner = true := by
  simp [Htlc.isKey, Htlc.has, HtlcState.has_owner_flag, Htlc.owner]

@[simp] theorem Channel.insertHtlc_htlcs (c : Channel) (h : Htlc) :
    (c.insertHtlc h).htlcs = c.htlcs ++ [h] := by
  unfold Channel.insertHtlc; split_ifs <;> rfl

@[simp] theorem Channel.insertHtlc_view (c : Channel) (h : Htlc) :
    (c.insertHtlc h).view = c.view := by
  unfold Channel.insertHtlc; split_ifs <;> rfl

@[simp] theorem Channel.insertHtlc_params (c : Channel) (h : Htlc) :
    (c.insertHtlc h).params = c.params := by
  unfold Channel.insertHtlc; split_ifs <;> rfl

/-! ## The commitment calls -/

theorem Channel.changeHtlcs_eq {s : Side} {states : List HtlcState}
    (hp : passable s states = true) (c : Channel) :
    ∃ cflags, c.changeHtlcs s states =
      some ({ c with
        htlcs := c.htlcs.map (Htlc.advance states)
        view := c.htlcs.foldl (passView s states) c.view }, cflags) := by
  obtain ⟨cf, hcf⟩ := changeHtlcList_eq hp c.view 0 c.htlcs
  exact ⟨cf, by simp [Channel.changeHtlcs, hcf]⟩

/-- `channel_sending_commit` and `channel_rcvd_commit` make one pass, and change nothing
else that the balances read. -/
theorem Channel.commitFor_eq {s : Side} {states : List HtlcState}
    (hp : passable s states = true) {c c' : Channel} {b : Bool}
    (h : c.commitFor s states = some (b, c')) :
    c'.htlcs = c.htlcs.map (Htlc.advance states) ∧
      c'.view = c.htlcs.foldl (passView s states) c.view ∧ c'.params = c.params := by
  obtain ⟨cf, hcf⟩ := c.changeHtlcs_eq hp
  unfold Channel.commitFor at h
  rw [hcf] at h
  by_cases hpend : c.changesPending s
  · simp only [hpend, Bool.not_true, Bool.false_eq_true, if_false, Option.some.injEq,
      Prod.mk.injEq] at h
    obtain ⟨-, rfl⟩ := h
    exact ⟨rfl, rfl, rfl⟩
  · simp only [hpend, Bool.not_false, if_true] at h
    split_ifs at h
    simp only [Option.some.injEq, Prod.mk.injEq] at h
    obtain ⟨-, rfl⟩ := h
    exact ⟨rfl, rfl, rfl⟩

/-- `channel_rcvd_revoke_and_ack` and `channel_sending_revoke_and_ack` make one pass; the
feerate they may copy is no balance. -/
theorem Channel.revokeFor_eq {s : Side} {states : List HtlcState}
    (hp : passable s states = true) {c c' : Channel} {b : Bool}
    (h : c.revokeFor s states = some (b, c')) :
    c'.htlcs = c.htlcs.map (Htlc.advance states) ∧
      (∀ s' x, (c'.view s').owedMsat x =
        (c.htlcs.foldl (passView s states) c.view s').owedMsat x) ∧ c'.params = c.params := by
  obtain ⟨cf, hcf⟩ := c.changeHtlcs_eq hp
  unfold Channel.revokeFor at h
  rw [hcf] at h
  simp only [Option.some.injEq, Prod.mk.injEq] at h
  obtain ⟨-, rfl⟩ := h
  refine ⟨?_, fun s' x => ?_, ?_⟩
  · split_ifs <;> rfl
  · by_cases hs' : s' = s
    · subst hs'
      split_ifs <;> simp
    · split_ifs <;> simp [Function.update_of_ne hs']
  · split_ifs <;> rfl

/-- `channel_update_feerate` changes no balance and no HTLC. -/
theorem channelUpdateFeerate_eq {c c' : Channel} {feeratePerKw : BitVec 32} {b : Bool}
    (h : channelUpdateFeerate c feeratePerKw = (b, c')) :
    c'.htlcs = c.htlcs ∧ (∀ s x, (c'.view s).owedMsat x = (c.view s).owedMsat x) ∧
      c'.params = c.params := by
  unfold channelUpdateFeerate at h
  split_ifs at h <;> simp only [Prod.mk.injEq] at h <;> obtain ⟨-, rfl⟩ := h
  · exact ⟨rfl, fun _ _ => rfl, rfl⟩
  · refine ⟨rfl, fun s x => ?_, rfl⟩
    by_cases hs : s = c.funder.other
    · subst hs; simp
    · simp [Function.update_of_ne hs]

/-! ## Fulfilling and failing -/

/-- The removal both `channel_fulfill_htlc` and `channel_fail_htlc` start: an HTLC
irrevocably committed on both sides moves into its removal. -/
def RemovalStart (htlc : Htlc) (next : HtlcState) : Prop :=
  (htlc.state = .sentAddAckRevocation ∧ next = .rcvdRemoveHtlc) ∨
    (htlc.state = .rcvdAddAckRevocation ∧ next = .sentRemoveHtlc)

theorem startRemoval_eq {c c' : Channel} {owner : Side} {htlc : Htlc} {e : ChannelRemoveErr}
    (h : startRemoval c owner htlc = (e, c')) :
    (e = .removeOk ∧ ∃ next, RemovalStart htlc next ∧
      c' = ({ c with
        htlcs := htlcSet htlc.id owner { htlc with state := next } c.htlcs }).setPending
          owner true) ∨ (e ≠ .removeOk ∧ c' = c) := by
  unfold startRemoval at h
  split_ifs at h with h4 h14 <;> simp only [Prod.mk.injEq] at h <;> obtain ⟨rfl, rfl⟩ := h
  · exact .inl ⟨rfl, _, .inl ⟨h4, rfl⟩, rfl⟩
  · exact .inl ⟨rfl, _, .inr ⟨h14, rfl⟩, rfl⟩
  · exact .inr ⟨by decide, rfl⟩

/-- A fulfilment that succeeds: the HTLC had no preimage, the preimage hashes to its
payment hash, and it starts its removal with the preimage recorded. -/
theorem channelFulfillHtlc_ok {sha256 : Preimage → Sha256} {c c' : Channel} {owner : Side}
    {id : BitVec 64} {preimage : Preimage}
    (h : channelFulfillHtlc sha256 c owner id preimage = (.removeOk, c')) :
    ∃ htlc next, htlcGet c.htlcs id owner = some htlc ∧ htlc.r = none ∧
      sha256 preimage = htlc.rhash ∧ RemovalStart htlc next ∧
      c' = ({ c with
        htlcs := htlcSet id owner { htlc with r := some preimage, state := next } c.htlcs
        }).setPending owner true := by
  unfold channelFulfillHtlc at h
  dsimp only at h
  split at h
  · simp at h
  · rename_i htlc hget
    obtain ⟨-, hid, howner⟩ := htlcGet_spec hget
    split_ifs at h with hr hhash hcomm
    · simp at h
    · simp at h
    · simp at h
    · rcases startRemoval_eq h with ⟨-, next, hnext, rfl⟩ | ⟨hne, -⟩
      · refine ⟨htlc, next, hget, by simpa using hr, by simpa using hhash, hnext, ?_⟩
        simp only [htlcSet, hid]
        rw [FirstMatch.setFirst_setFirst]
        simpa [Htlc.isKey, Htlc.has, HtlcState.has_owner_flag, Htlc.owner] using howner
      · exact absurd rfl hne

/-- A fulfilment that fails changes nothing, except that a preimage which matches is
recorded before the commitment checks. -/
theorem channelFulfillHtlc_err {sha256 : Preimage → Sha256} {c c' : Channel} {owner : Side}
    {id : BitVec 64} {preimage : Preimage} {e : ChannelRemoveErr}
    (h : channelFulfillHtlc sha256 c owner id preimage = (e, c')) (he : e ≠ .removeOk) :
    c' = c ∨ ∃ htlc, htlcGet c.htlcs id owner = some htlc ∧
      c' = { c with htlcs := htlcSet id owner { htlc with r := some preimage } c.htlcs } := by
  unfold channelFulfillHtlc at h
  dsimp only at h
  split at h
  · simp only [Prod.mk.injEq] at h
    exact .inl h.2.symm
  · rename_i htlc hget
    split_ifs at h with hr hhash hcomm
    · simp only [Prod.mk.injEq] at h
      exact .inl h.2.symm
    · simp only [Prod.mk.injEq] at h
      exact .inl h.2.symm
    · simp only [Prod.mk.injEq] at h
      exact .inr ⟨htlc, hget, h.2.symm⟩
    · rcases startRemoval_eq h with ⟨hok, -⟩ | ⟨-, rfl⟩
      · exact absurd hok he
      · exact .inr ⟨htlc, hget, rfl⟩

/-- A fulfilment with the right preimage of an HTLC that is not irrevocably committed fails,
and leaves the preimage recorded: the HTLC is not as it was before the call. -/
theorem channelFulfillHtlc_err_records_preimage {sha256 : Preimage → Sha256} {c : Channel}
    {owner : Side} {id : BitVec 64} {preimage : Preimage} {htlc : Htlc}
    (hget : htlcGet c.htlcs id owner = some htlc) (hr : htlc.r = none)
    (hhash : sha256 preimage = htlc.rhash) (hsent : htlc.state ≠ .sentAddAckRevocation)
    (hrcvd : htlc.state ≠ .rcvdAddAckRevocation) :
    (channelFulfillHtlc sha256 c owner id preimage).1 ≠ .removeOk ∧
      htlcGet (channelFulfillHtlc sha256 c owner id preimage).2.htlcs id owner =
        some { htlc with r := some preimage } := by
  obtain ⟨-, hid, howner⟩ := htlcGet_spec hget
  have hkey : ({ htlc with r := some preimage } : Htlc).isKey id owner = true := by
    subst hid howner
    exact Htlc.isKey_self _
  have hset : htlcGet (htlcSet id owner { htlc with r := some preimage } c.htlcs) id owner =
      some { htlc with r := some preimage } :=
    FirstMatch.find?_setFirst hkey hget
  unfold channelFulfillHtlc
  simp only [hget, hr, Option.isSome_none, Bool.false_eq_true, if_false, hhash, ne_eq,
    not_true_eq_false]
  split_ifs
  · exact ⟨by decide, hset⟩
  · -- committed, but not irrevocably: `startRemoval` refuses and keeps the preimage
    simp only [startRemoval, hsent, hrcvd, if_false]
    exact ⟨by decide, hset⟩

/-- A 2000 msat channel with one HTLC of 1000 msat that we offered and that neither side has
committed yet. -/
def offeredChannel : Channel where
  fundingMsat := 2000
  funder := .remote
  config _ := ⟨0, BitVec.allOnes 64, 0, 0, 10⟩
  htlcs := [⟨.sentAddHtlc, 0, 1000, 100, 0, none, none, 0⟩]
  changesPending _ := false
  view _ := ⟨0, fun _ => 1000⟩
  maxPaymentMsat := 0xFFFFFFFF

theorem channelFulfillHtlc_err_records_preimage_offered :
    htlcGet offeredChannel.htlcs 0 .local = some ⟨.sentAddHtlc, 0, 1000, 100, 0, none, none, 0⟩ ∧
      (⟨.sentAddHtlc, 0, 1000, 100, 0, none, none, 0⟩ : Htlc).r = none ∧
      (fun _ => 0 : Preimage → Sha256) 7 = (⟨.sentAddHtlc, 0, 1000, 100, 0, none, none, 0⟩ : Htlc).rhash ∧
      HtlcState.sentAddHtlc ≠ .sentAddAckRevocation ∧ HtlcState.sentAddHtlc ≠ .rcvdAddAckRevocation ∧
      ((channelFulfillHtlc (fun _ => 0) offeredChannel .local 0 7).1 ≠ .removeOk ∧
        htlcGet (channelFulfillHtlc (fun _ => 0) offeredChannel .local 0 7).2.htlcs 0 .local =
          some ⟨.sentAddHtlc, 0, 1000, 100, 0, some 7, none, 0⟩) :=
  ⟨by decide, rfl, rfl, by decide, by decide,
    channelFulfillHtlc_err_records_preimage
      (by decide : htlcGet offeredChannel.htlcs 0 .local = some ⟨.sentAddHtlc, 0, 1000, 100, 0, none, none, 0⟩)
      rfl rfl (by decide) (by decide)⟩

/-- A failure that succeeds starts the removal of the HTLC. -/
theorem channelFailHtlc_ok {c c' : Channel} {owner : Side} {id : BitVec 64}
    (h : channelFailHtlc c owner id = (.removeOk, c')) :
    ∃ htlc next, htlcGet c.htlcs id owner = some htlc ∧ RemovalStart htlc next ∧
      c' = ({ c with
        htlcs := htlcSet id owner { htlc with state := next } c.htlcs }).setPending owner true := by
  unfold channelFailHtlc at h
  split at h
  · simp at h
  · rename_i htlc hget
    obtain ⟨-, hid, -⟩ := htlcGet_spec hget
    split_ifs at h
    · simp at h
    · rcases startRemoval_eq h with ⟨-, next, hnext, rfl⟩ | ⟨hne, -⟩
      · exact ⟨htlc, next, hget, hnext, by rw [hid]⟩
      · exact absurd rfl hne

/-- A failure that fails changes nothing. -/
theorem channelFailHtlc_err {c c' : Channel} {owner : Side} {id : BitVec 64}
    {e : ChannelRemoveErr} (h : channelFailHtlc c owner id = (e, c')) (he : e ≠ .removeOk) :
    c' = c := by
  unfold channelFailHtlc at h
  split at h
  · simp only [Prod.mk.injEq] at h
    exact h.2.symm
  · split_ifs at h
    · simp only [Prod.mk.injEq] at h
      exact h.2.symm
    · rcases startRemoval_eq h with ⟨hok, -⟩ | ⟨-, rfl⟩
      · exact absurd hok he
      · rfl

/-! ## Adding -/

/-- What the sender of a new HTLC has in the recipient's view once every pending change
is applied, as `add_htlc` sums it. -/
def addBalance (c : Channel) (htlc : Htlc) : BitVec 64 :=
  let (_, removing, adding) := gatherHtlcs c.htlcs htlc.owner.other
  (adding ++ [htlc]).foldl (fun b h => b + balanceAddingHtlc h htlc.owner)
    (removing.foldl (fun b h => b + balanceRemovingHtlc h htlc.owner)
      ((c.view htlc.owner.other).owedMsat htlc.owner))

/-- The fee `add_htlc` holds against the sender of a new HTLC. -/
def addFee (c : Channel) (htlc : Htlc) : BitVec 64 :=
  let (committed, removing, adding) := gatherHtlcs c.htlcs htlc.owner.other
  addHtlcFee c htlc committed removing (adding ++ [htlc])

/-- The checks `add_htlc` made on an HTLC it accepted. -/
structure AddAccepted (c : Channel) (htlc : Htlc) (enforce : Bool) : Prop where
  /-- `blocks_to_abs_locktime` accepted the expiry. -/
  expiry : htlc.expiry < 500000000
  /-- No HTLC of the same owner has its id. -/
  fresh : htlcGet c.htlcs htlc.id htlc.owner = none
  /-- The amount is not zero. -/
  pos : htlc.msatoshi ≠ 0
  /-- The amount reaches the recipient's minimum. -/
  aboveMin : (c.config htlc.owner.other).htlcMinimumMsat ≤ htlc.msatoshi
  /-- The amount is within the chain's limit. -/
  belowMax : htlc.msatoshi ≤ c.maxPaymentMsat
  /-- With the limits enforced, the sender keeps its reserve after the fee. -/
  capacity : enforce = true →
    ¬ (addBalance c htlc - addFee c htlc).slt (channelReserveMsat c htlc.owner)

/-- `add_htlc` either leaves the channel as it was or appends the new HTLC after its
checks. -/
theorem addHtlc_cases {c c' : Channel} {state : HtlcState} {id msatoshi : BitVec 64}
    {cltvExpiry : BitVec 32} {paymentHash : Sha256} {enforce : Bool} {e : ChannelAddErr}
    (h : addHtlc c state id msatoshi cltvExpiry paymentHash enforce = some (e, c')) :
    (e ≠ .addOk ∧ c' = c) ∨
      (e = .addOk ∧ c' = c.insertHtlc (newHtlc state id msatoshi cltvExpiry paymentHash) ∧
        AddAccepted c (newHtlc state id msatoshi cltvExpiry paymentHash) enforce) := by
  have err : ∀ {e'}, e' ≠ .addOk → some (e', c) = some (e, c') → e ≠ .addOk ∧ c' = c := by
    intro e' he' h'
    simp only [Option.some.injEq, Prod.mk.injEq] at h'
    exact ⟨h'.1 ▸ he', h'.2.symm⟩
  unfold addHtlc at h
  split at h
  · exact .inl (err (by decide) h)
  rename_i hexp
  dsimp only at h
  split at h
  · split at h <;> exact .inl (err (by decide) h)
  rename_i hget
  split at h
  · exact .inl (err (by decide) h)
  rename_i h0
  split at h
  · exact .inl (err (by decide) h)
  rename_i hmin
  split at h
  · exact .inl (err (by decide) h)
  rename_i hmax
  rcases hg : gatherHtlcs c.htlcs (newHtlc state id msatoshi cltvExpiry paymentHash).owner.other
    with ⟨committed, removing, adding⟩
  simp only [hg] at h
  split at h
  · exact .inl (err (by decide) h)
  split at h
  · exact .inl (err (by decide) h)
  split at h
  · cases h
  split at h
  · cases h
  split at h
  · cases h
  split at h
  · exact .inl (err (by decide) h)
  rename_i hcap
  simp only [Option.some.injEq, Prod.mk.injEq] at h
  obtain ⟨rfl, rfl⟩ := h
  refine .inr ⟨rfl, rfl, ⟨?_, hget, h0, ?_, ?_, ?_⟩⟩
  · simpa [newHtlc] using hexp
  · simpa [newHtlc] using hmin
  · simpa [newHtlc] using hmax
  · intro henf
    simpa [addBalance, addFee, hg, henf] using hcap

end Dexfin.Lightning
