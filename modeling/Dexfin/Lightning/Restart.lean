import Dexfin.Lightning.ForceHtlcs
import Dexfin.Lightning.Conservation
import Mathlib.Data.List.Forall2

/-!
# Restarting a channel

`lightningd` keeps a record of every HTLC of a channel and drops a record once its HTLC is
settled on both sides, moving its own balance by what the HTLC paid (`remove_htlc_in`,
`remove_htlc_out`). When `channeld` restarts, `channel_force_htlcs` rebuilds the channel from
a fresh `new_full_channel` with that balance and the records left.

A channel opened within the limits `openingd` checks (a funding within the network's
`max_funding_satoshi`, reserves of at most the funding) meets the bounds of `Opening`, and run
by calls that all succeed it keeps `ChannelInv`; from it, the balance `lightningd` keeps is one `new_full_channel` accepts, the
records left pass every check of `channel_force_htlcs`, and the rebuilt balances are those of
the live channel (`channelForceHtlcs_agrees`). The settled HTLCs account for the difference
between the two opening balances, since a settled HTLC is counted by `adjust_balance` in the
same way in both views.
-/

namespace Dexfin.Lightning

/-! ## Opening -/

/-- What `new_full_channel` builds. -/
theorem newFullChannel_spec {fundingSatoshis localMsatoshi : BitVec 64}
    {feeratePerKw : Side → BitVec 32} {localConfig remoteConfig : ChannelConfig} {funder : Side}
    {cp : Chainparams} {c : Channel}
    (h : newFullChannel fundingSatoshis localMsatoshi feeratePerKw localConfig remoteConfig funder
      (some cp) = some c) :
    fundingSatoshis ≤ BitVec.allOnes 64 / 1000 ∧ localMsatoshi ≤ fundingSatoshis * 1000 ∧
      c.fundingMsat = fundingSatoshis * 1000 ∧ c.funder = funder ∧ c.config .local = localConfig ∧
      c.config .remote = remoteConfig ∧ c.maxPaymentMsat = cp.maxPaymentMsat ∧ c.htlcs = [] ∧
      ∀ s, (c.view s).owedMsat .local = localMsatoshi ∧
        (c.view s).owedMsat .remote = fundingSatoshis * 1000 - localMsatoshi := by
  simp only [newFullChannel, newInitialChannel, Option.map_eq_some_iff] at h
  obtain ⟨c₀, hc₀, rfl⟩ := h
  split_ifs at hc₀ with hfs hm
  simp only [Option.some.injEq] at hc₀
  subst hc₀
  refine ⟨BitVec.not_lt.1 hfs, BitVec.not_lt.1 hm, rfl, rfl, rfl, rfl, rfl, rfl, fun s => ?_⟩
  cases s <;> simp [Channel.setView]

theorem newFullChannel_isSome {fundingSatoshis localMsatoshi : BitVec 64}
    (feeratePerKw : Side → BitVec 32) (localConfig remoteConfig : ChannelConfig) (funder : Side)
    (cp : Chainparams) (hfs : fundingSatoshis ≤ BitVec.allOnes 64 / 1000)
    (hm : localMsatoshi ≤ fundingSatoshis * 1000) :
    ∃ c, newFullChannel fundingSatoshis localMsatoshi feeratePerKw localConfig remoteConfig funder
      (some cp) = some c := by
  unfold newFullChannel newInitialChannel
  rw [if_neg (BitVec.not_lt.2 hfs)]
  dsimp only
  rw [if_neg (BitVec.not_lt.2 hm)]
  exact ⟨_, rfl⟩

/-- Two channels that `new_full_channel` built from the same funding, configurations, funder
and chain have the same parameters, whatever the opening balance. -/
theorem newFullChannel_params {fundingSatoshis m m' : BitVec 64}
    {feeratePerKw : Side → BitVec 32} {localConfig remoteConfig : ChannelConfig} {funder : Side}
    {cp : Chainparams} {c c' : Channel}
    (h : newFullChannel fundingSatoshis m feeratePerKw localConfig remoteConfig funder
      (some cp) = some c)
    (h' : newFullChannel fundingSatoshis m' feeratePerKw localConfig remoteConfig funder
      (some cp) = some c') : c'.params = c.params := by
  obtain ⟨-, -, hF, hf, hl, hr, hp, -⟩ := newFullChannel_spec h
  obtain ⟨-, -, hF', hf', hl', hr', hp', -⟩ := newFullChannel_spec h'
  have hconfig : c'.config = c.config := by
    funext s
    cases s
    · rw [hl, hl']
    · rw [hr, hr']
  simp only [Channel.params, hF, hF', hf, hf', hconfig, hp, hp']

/-- An amount of satoshi within every network's funding limit is the same number of
thousands in millisatoshi. -/
theorem toNat_mul_thousand {x : BitVec 64} (hx : x.toNat ≤ 60 * (2 ^ 24 - 1)) :
    (x * 1000).toNat = x.toNat * 1000 := by
  have h1000 : (1000 : BitVec 64).toNat = 1000 := rfl
  rw [BitVec.toNat_mul, h1000]
  exact Nat.mod_eq_of_lt (by omega)

/-- What `openingd` lets through keeps a channel's amounts in millisatoshi far from overflow:
a funding within the network's limit (`openingd.c:357`), that network's payment limit, and a
reserve of at most the funding (`openingd.c:147` for the remote side's, and `set_reserve`
takes 1% for ours). -/
theorem Chainparams.opening_bounds {cp : Chainparams} (hcp : cp ∈ networks)
    {fundingSatoshis : BitVec 64} (hfunding : fundingSatoshis ≤ cp.maxFundingSatoshi) :
    (fundingSatoshis * 1000).toNat < 2 ^ 62 ∧ cp.maxPaymentMsat.toNat < 2 ^ 62 ∧
      ∀ reserve : BitVec 64, reserve ≤ fundingSatoshis → (reserve * 1000).toNat < 2 ^ 63 := by
  obtain ⟨hF, hP⟩ := Chainparams.le_of_mem_networks hcp
  have hf : fundingSatoshis.toNat ≤ 60 * (2 ^ 24 - 1) := le_trans (BitVec.le_def.1 hfunding) hF
  refine ⟨by rw [toNat_mul_thousand hf]; omega, by omega, fun reserve hr => ?_⟩
  have hr' : reserve.toNat ≤ fundingSatoshis.toNat := BitVec.le_def.1 hr
  rw [toNat_mul_thousand (by omega)]
  omega

/-! ## Records -/

/-- Validity reads only the parameters of the opening. -/
theorem HtlcValid.of_params {o o' : Opening} {h : Htlc} (hp : o'.params = o.params)
    (hv : HtlcValid o h) : HtlcValid o' h where
  expiry := hv.expiry
  pos := hv.pos
  aboveMin := by
    rw [hp]
    exact hv.aboveMin
  belowMax := by
    rw [hp]
    exact hv.belowMax
  fail := hv.fail
  failcode := hv.failcode
  removing := hv.removing

/-- `lightningd`'s record `l` of the HTLC `h` of a live channel: the same key, amount, hash,
expiry, state and preimage, and a failure exactly when the HTLC's removal started without a
preimage. -/
@[mk_iff]
structure LdHtlc.Records (l : LdHtlc) (h : Htlc) : Prop where
  /-- The id. -/
  id : l.id = h.id
  /-- The map the record is in is the side that offered the HTLC. -/
  owner : l.owner = h.owner
  /-- The amount. -/
  msatoshi : l.msatoshi = h.msatoshi
  /-- The payment hash. -/
  paymentHash : l.paymentHash = h.rhash
  /-- The expiry. -/
  cltvExpiry : l.cltvExpiry = h.expiry
  /-- The state. -/
  hstate : l.hstate = h.state
  /-- The preimage. -/
  preimage : l.preimage = h.r
  /-- A failure is recorded for exactly the HTLCs that failed. -/
  failure : (l.failuremsg.isSome ∨ l.failcode ≠ 0) ↔ 5 ≤ h.state.phase ∧ h.r = none

instance (l : LdHtlc) (h : Htlc) : Decidable (l.Records h) :=
  decidable_of_iff _ (LdHtlc.records_iff l h).symm

/-- `lightningd`'s two final states are the last phase of each owner. -/
theorem settled_iff : ∀ st : HtlcState,
    (decide (st = .sentRemoveAckRevocation) || decide (st = .rcvdRemoveAckRevocation)) =
      decide (st.phase = 9) := by decide

namespace LdHtlc.Records

variable {l : LdHtlc} {h : Htlc}

theorem adjustDelta_restored (hrec : l.Records h) (s x : Side) :
    adjustDelta s l.restored x = adjustDelta s h x := by
  rw [adjustDelta_eq, adjustDelta_eq, LdHtlc.restored_state, hrec.hstate]
  simp [LdHtlc.restored, LdHtlc.fulfilled, LdHtlc.added, newHtlc, Htlc.amount, hrec.preimage,
    hrec.msatoshi]

theorem added_valid {o : Opening} (hrec : l.Records h) (hv : HtlcValid o h) :
    HtlcValid o l.added where
  expiry := by simpa [hrec.cltvExpiry] using hv.expiry
  pos := by simpa [hrec.msatoshi] using hv.pos
  aboveMin := by simpa [Htlc.owner, hrec.hstate, hrec.msatoshi] using hv.aboveMin
  belowMax := by simpa [hrec.msatoshi] using hv.belowMax
  fail := rfl
  failcode := rfl
  removing := by simp [LdHtlc.added, newHtlc]

theorem committed_amount (hrec : l.Records h) (y : Side) :
    (if l.added.state.committed y then l.added.amount else 0) =
      if h.state.committed y then h.amount else 0 := by
  simp [hrec.hstate, Htlc.amount, hrec.msatoshi]

theorem owner_eq (hrec : l.Records h) : l.owner = l.hstate.owner := by
  rw [hrec.owner, hrec.hstate, Htlc.owner]

theorem settled_eq (hrec : l.Records h) : l.settled = decide (h.state.phase = 9) := by
  rw [LdHtlc.settled, hrec.hstate]
  exact settled_iff h.state

end LdHtlc.Records

/-- A relation that holds entry by entry carries a functional identity over to the lists. -/
theorem forall₂_map_eq {α β γ : Type*} {R : α → β → Prop} {f : α → γ} {g : β → γ}
    (hfg : ∀ a b, R a b → f a = g b) {l₁ : List α} {l₂ : List β} (h : List.Forall₂ R l₁ l₂) :
    l₁.map f = l₂.map g := by
  induction h with
  | nil => rfl
  | cons hab _ ih => simp [hfg _ _ hab, ih]

/-- A relation that holds entry by entry carries a pairwise property over to the lists. -/
theorem forall₂_pairwise {α β : Type*} {R : α → β → Prop} {P : β → β → Prop}
    {Q : α → α → Prop} (hPQ : ∀ a b a' b', R a a' → R b b' → P a' b' → Q a b)
    {l₁ : List α} {l₂ : List β} (h : List.Forall₂ R l₁ l₂) (hp : l₂.Pairwise P) :
    l₁.Pairwise Q := by
  induction h with
  | nil => exact List.Pairwise.nil
  | @cons a a' l₁ l₂ hab hrest ih =>
    rw [List.pairwise_cons] at hp ⊢
    refine ⟨fun b hb => ?_, ih hp.2⟩
    obtain ⟨b', hb', hbb'⟩ := forall₂_exists_mem hrest hb
    exact hPQ a b a' b' hab hbb' (hp.1 b' hb')
where
  forall₂_exists_mem {l₁ : List α} {l₂ : List β} (h : List.Forall₂ R l₁ l₂) {a : α}
      (ha : a ∈ l₁) : ∃ b ∈ l₂, R a b := by
    induction h with
    | nil => simp at ha
    | @cons a₀ b₀ l₁ l₂ hab _ ih =>
      rcases List.mem_cons.1 ha with rfl | ha
      · exact ⟨b₀, List.mem_cons_self, hab⟩
      · obtain ⟨b, hb, hr⟩ := ih ha
        exact ⟨b, List.mem_cons_of_mem b₀ hb, hr⟩

/-! ## Settled HTLCs -/

/-- A settled HTLC has been in both commitments and is in neither. -/
theorem settled_flags : ∀ (st : HtlcState) (s : Side),
    st.phase = 9 → st.wasCommitted s = true ∧ st.committed s = false := by decide

/-- Both views count a settled HTLC alike. -/
theorem adjustCoeff_settled : ∀ (s s' x : Side) (st : HtlcState) (f : Bool),
    st.phase = 9 → adjustCoeff s x st f = adjustCoeff s' x st f := by decide

/-- The cut `cutSettled` counts a settled HTLC as `adjust_balance` does, and any other at most
at nothing. -/
theorem potCoeff_cutSettled_le : ∀ (s x : Side) (st : HtlcState) (f : Bool),
    potCoeff cutSettled x st f ≤ if st.phase = 9 then adjustCoeff s x st f else 0 := by decide

/-- The removal states before the last carry `HTLC_REMOVING`. -/
theorem has_removing : ∀ st : HtlcState, 5 ≤ st.phase → st.phase ≠ 9 →
    st.has htlcRemoving = true := by decide

/-- An HTLC that left a commitment it was in is being removed. -/
theorem phase_of_removed : ∀ (st : HtlcState) (s : Side),
    st.wasCommitted s = true → st.committed s = false → 5 ≤ st.phase := by decide

/-- The settled HTLCs, as `lightningd` tells them. -/
def settledHtlcs (hs : List Htlc) : List Htlc := hs.filter fun h => decide (h.state.phase = 9)

/-- The HTLCs `lightningd` keeps. -/
def keptHtlcs (hs : List Htlc) : List Htlc := hs.filter fun h => !decide (h.state.phase = 9)

theorem sum_settled_add_kept {G : Type*} [AddCommMonoid G] (f : Htlc → G) (hs : List Htlc) :
    ((settledHtlcs hs).map f).sum + ((keptHtlcs hs).map f).sum = (hs.map f).sum := by
  induction hs with
  | nil => simp [settledHtlcs, keptHtlcs]
  | cons h hs ih =>
    by_cases hp : h.state.phase = 9 <;>
      simp_all [settledHtlcs, keptHtlcs, add_assoc, add_left_comm]

theorem committedInt_settled (hs : List Htlc) (s : Side) :
    committedInt (settledHtlcs hs) s = 0 := by
  refine List.sum_eq_zero fun a ha => ?_
  obtain ⟨h, hh, rfl⟩ := List.mem_map.1 ha
  have hp : h.state.phase = 9 := by simpa [settledHtlcs] using (List.mem_filter.1 hh).2
  simp [(settled_flags h.state s hp).2]

/-- The balance of each side at the cut `cutSettled` is at most what the settled HTLCs give
it. -/
theorem cutBalance_settled_le (o : Opening) (hs : List Htlc) (s x : Side) :
    cutBalance o hs cutSettled x ≤ balanceInt o (settledHtlcs hs) s x := by
  simp only [cutBalance, balanceInt, settledHtlcs, sum_map_filter_eq]
  refine Int.add_le_add_left (List.sum_le_sum fun h _ => ?_) _
  have hc := potCoeff_cutSettled_le s x h.state h.r.isSome
  have ha := h.amount_nonneg
  by_cases hp : h.state.phase = 9
  · simp only [hp, if_true] at hc
    simpa [hp] using mul_le_mul_of_nonneg_right hc ha
  · simp only [hp, if_false] at hc
    simpa [hp] using mul_nonpos_of_nonpos_of_nonneg hc ha

/-- The balance `lightningd` moves to on settling is within the funding. -/
theorem ChannelInv.settled_bounds {o : Opening} {c : Channel} (hinv : ChannelInv o c)
    (s : Side) : 0 ≤ balanceInt o (settledHtlcs c.htlcs) s .local ∧
      balanceInt o (settledHtlcs c.htlcs) s .local ≤ o.params.fundingMsat.toNat := by
  have hl := (hinv.cut_nonneg cutSettled (by decide) .local).trans
    (cutBalance_settled_le o c.htlcs s .local)
  have hr := (hinv.cut_nonneg cutSettled (by decide) .remote).trans
    (cutBalance_settled_le o c.htlcs s .remote)
  have htotal := balanceInt_total o (settledHtlcs c.htlcs) s
  rw [committedInt_settled] at htotal
  omega

/-- `remove_htlc_in` and `remove_htlc_out` move `lightningd`'s balance by what
`adjust_balance` gives us for each settled HTLC. -/
theorem ourMsatoshiAfter_eq {dropped : List LdHtlc} {hs : List Htlc}
    (hrec : List.Forall₂ LdHtlc.Records dropped hs) (hset : ∀ h ∈ hs, h.state.phase = 9)
    (s : Side) (m : BitVec 64) :
    ourMsatoshiAfter m dropped = m + (hs.map fun h => adjustDelta s h .local).sum := by
  induction hrec generalizing m with
  | nil => simp [ourMsatoshiAfter]
  | @cons l h dropped hs hlh _ ih =>
    have hflags := settled_flags h.state s (hset h List.mem_cons_self)
    have hstep : (if l.owner = .remote then removeHtlcIn m l else removeHtlcOut m l) =
        m + adjustDelta s h .local := by
      rw [hlh.owner]
      simp only [adjustDelta, hflags, if_true, Bool.false_eq_true, if_false, removeHtlcIn,
        removeHtlcOut, hlh.preimage, hlh.msatoshi, balanceAddingHtlc, balanceRemovingHtlc]
      rcases ho : h.owner <;> rcases hr : h.r <;> simp [Side.other, sub_eq_add_neg]
    have hrest := ih (fun h' hh' => hset h' (List.mem_cons_of_mem h hh'))
      (if l.owner = .remote then removeHtlcIn m l else removeHtlcOut m l)
    simp only [ourMsatoshiAfter, List.foldl_cons] at hrest ⊢
    rw [hrest, hstep, List.map_cons, List.sum_cons, add_assoc]

/-! ## Restarting -/

/-- The invariant depends on the HTLC map only up to its order. -/
theorem ChannelInv.perm {o : Opening} {c : Channel} (hinv : ChannelInv o c) {hs : List Htlc}
    (hperm : hs.Perm c.htlcs) : ChannelInv o { c with htlcs := hs } where
  params := hinv.params
  owed s x := by
    show (c.view s).owedMsat x = o.owed x + (hs.map fun h => adjustDelta s h x).sum
    rw [(hperm.map _).sum_eq]
    exact hinv.owed s x
  keys := (hperm.pairwise_iff fun {_ _} hne heq => hne ⟨heq.1.symm, heq.2.symm⟩).2 hinv.keys
  valid h hh := hinv.valid h (hperm.mem_iff.1 hh)
  cut_nonneg t ht x := by
    show 0 ≤ o.init x + (hs.map fun h => potCoeff t x h.state h.r.isSome * h.amount).sum
    rw [(hperm.map _).sum_eq]
    exact hinv.cut_nonneg t ht x

/-- The balances `channel_force_htlcs` ends with on `lightningd`'s records of a live channel
are the live channel's: the opening balance `lightningd` moved by the settled HTLCs, plus
what `adjust_balance` computes for the others. -/
theorem channelForceHtlcs_agrees {sha256 : Preimage → Sha256} {fundingSatoshis m : BitVec 64}
    {feeratePerKw : Side → BitVec 32} {localConfig remoteConfig : ChannelConfig} {funder : Side}
    {cp : Chainparams} {c S : Channel} {calls : List Call} {records : List LdHtlc}
    {hs : List Htlc} (hcp : cp ∈ networks) (hfunding : fundingSatoshis ≤ cp.maxFundingSatoshi)
    (hlocalReserve : localConfig.channelReserveSatoshis ≤ fundingSatoshis)
    (hremoteReserve : remoteConfig.channelReserveSatoshis ≤ fundingSatoshis)
    (hopen : newFullChannel fundingSatoshis m feeratePerKw localConfig remoteConfig funder
      (some cp) = some c)
    (hrun : c.runOk sha256 calls = some S) (hperm : hs.Perm S.htlcs)
    (hrecords : List.Forall₂ LdHtlc.Records records hs) :
    ∃ c' S', newFullChannel fundingSatoshis (ourMsatoshiAfter m (records.filter LdHtlc.settled))
        feeratePerKw localConfig remoteConfig funder (some cp) = some c' ∧
      channelForceHtlcs c' (peerHtlcs (records.filter fun l => !l.settled)) = some (true, S') ∧
      ∀ s x, (S'.view s).owedMsat x = (S.view s).owedMsat x := by
  obtain ⟨hfs, hm, hF, -, hlc, hrc, hmp, hh₀, hv₀⟩ := newFullChannel_spec hopen
  obtain ⟨hFlt, hpayment, hreserve⟩ := Chainparams.opening_bounds hcp hfunding
  -- the opening, and the invariant of the live channel with its HTLCs in record order
  let o : Opening :=
    { params := c.params
      localMsat := m
      local_le := by
        show m ≤ c.fundingMsat
        rw [hF]
        exact hm
      funding_lt := by
        show c.fundingMsat.toNat < 2 ^ 62
        rw [hF]
        exact hFlt
      payment_lt := by
        show c.maxPaymentMsat.toNat < 2 ^ 62
        rw [hmp]
        exact hpayment
      reserve_lt := fun s => by
        show ((c.config s).channelReserveSatoshis * 1000).toNat < 2 ^ 63
        cases s
        · rw [hlc]
          exact hreserve _ hlocalReserve
        · rw [hrc]
          exact hreserve _ hremoteReserve }
  have hinv₀ : ChannelInv o c := ChannelInv.opened o rfl hh₀ fun s x => by
    cases x <;> simp [Opening.owed, o, (hv₀ s).1, (hv₀ s).2, Channel.params, hF]
  have hinv := (hinv₀.runOk hrun).perm hperm
  -- the records split as the HTLCs do
  have hsplit : ∀ (p : LdHtlc → Bool) (q : Htlc → Bool), (∀ l h, l.Records h → p l = q h) →
      List.Forall₂ LdHtlc.Records (records.filter p) (hs.filter q) := fun p q hpq =>
    List.rel_filter (fun l h hlh => by simp only [hpq l h hlh]) hrecords
  have hrecD : List.Forall₂ LdHtlc.Records (records.filter LdHtlc.settled) (settledHtlcs hs) :=
    hsplit _ _ fun l h hlh => hlh.settled_eq
  have hrecK : List.Forall₂ LdHtlc.Records (records.filter fun l => !l.settled)
      (keptHtlcs hs) := hsplit _ _ fun l h hlh => by rw [hlh.settled_eq]
  -- the balance `lightningd` keeps, over the integers
  have hFo : o.params.fundingMsat = fundingSatoshis * 1000 := hF
  have hbounds : 0 ≤ balanceInt o (settledHtlcs hs) .local .local ∧
      balanceInt o (settledHtlcs hs) .local .local ≤ (fundingSatoshis * 1000).toNat := by
    rw [← hFo]
    exact hinv.settled_bounds .local
  have hm' : ourMsatoshiAfter m (records.filter LdHtlc.settled) =
      BitVec.ofInt 64 (balanceInt o (settledHtlcs hs) .local .local) := by
    rw [ourMsatoshiAfter_eq hrecD (fun h hh => by simpa [settledHtlcs] using
      (List.mem_filter.1 hh).2) .local m, ofInt_balanceInt]
    rfl
  have hm'Nat : ((ourMsatoshiAfter m (records.filter LdHtlc.settled)).toNat : ℤ) =
      balanceInt o (settledHtlcs hs) .local .local := by
    rw [hm']
    exact Word.toNat_ofInt_of_lt hbounds.1 (by omega)
  have hmle : ourMsatoshiAfter m (records.filter LdHtlc.settled) ≤ fundingSatoshis * 1000 := by
    have hle := hbounds.2
    show (ourMsatoshiAfter m (records.filter LdHtlc.settled)).toNat ≤ (fundingSatoshis * 1000).toNat
    omega
  obtain ⟨c', hc'⟩ :=
    newFullChannel_isSome feeratePerKw localConfig remoteConfig funder cp hfs hmle
  obtain ⟨-, -, hF', -, -, -, -, hh', hv'⟩ := newFullChannel_spec hc'
  -- the opening of the rebuilt channel
  let o' : Opening :=
    { params := o.params
      localMsat := ourMsatoshiAfter m (records.filter LdHtlc.settled)
      local_le := by
        rw [hFo]
        exact hmle
      funding_lt := o.funding_lt
      payment_lt := o.payment_lt
      reserve_lt := o.reserve_lt }
  -- the settled HTLCs account for the change of opening balance
  have hinit : ∀ s x, o'.init x = balanceInt o (settledHtlcs hs) s x := by
    intro s x
    have hsame : balanceInt o (settledHtlcs hs) s .local =
        balanceInt o (settledHtlcs hs) .local .local := by
      simp only [balanceInt]
      congr 2
      refine List.map_congr_left fun h hh => ?_
      have hp : h.state.phase = 9 := by simpa [settledHtlcs] using (List.mem_filter.1 hh).2
      rw [adjustCoeff_settled s .local .local h.state _ hp]
    have htotal := balanceInt_total o (settledHtlcs hs) s
    rw [committedInt_settled] at htotal
    cases x
    · simp only [Opening.init, o']
      rw [hm'Nat, hsame]
    · simp only [Opening.init, o']
      rw [hm'Nat, ← hsame]
      show (o.params.fundingMsat.toNat : ℤ) - _ = _
      omega
  have howed' : ∀ s x, o'.owed x = o.owed x + ((settledHtlcs hs).map fun h => adjustDelta s h x).sum :=
    fun s x => by rw [← o'.ofInt_init, hinit s x, ofInt_balanceInt]
  -- `channel_force_htlcs` on the records kept
  have hkept : ∀ l ∈ records.filter (fun l => !l.settled), ∃ h ∈ keptHtlcs hs,
      l.Records h ∧ HtlcValid o h ∧ h.state.phase ≠ 9 := by
    intro l hl
    obtain ⟨h, hh, hlh⟩ := forall₂_pairwise.forall₂_exists_mem hrecK hl
    have hmem := List.mem_filter.1 hh
    exact ⟨h, hh, hlh, hinv.valid h hmem.1, by simpa using hmem.2⟩
  have hkeysK : ((records.filter fun l => !l.settled).map LdHtlc.added).Pairwise KeyNe := by
    rw [List.pairwise_map]
    refine forall₂_pairwise (fun a b a' b' ha hb hne heq => hne ⟨?_, ?_⟩) hrecK
      (hinv.keys.filter _)
    · rw [← ha.id, ← hb.id]
      simpa using heq.1
    · rw [← ha.owner, ← hb.owner, ha.owner_eq, hb.owner_eq]
      simpa using heq.2
  have hcommK : ∀ y, committedInt ((records.filter fun l => !l.settled).map LdHtlc.added) y ≤
      o'.params.fundingMsat.toNat := by
    intro y
    have hmap : (records.filter fun l => !l.settled).map
        (fun l => if l.added.state.committed y then l.added.amount else 0) =
        (keptHtlcs hs).map fun h => if h.state.committed y then h.amount else 0 :=
      forall₂_map_eq (R := LdHtlc.Records) (fun _ _ hlh => hlh.committed_amount y) hrecK
    have hsum := sum_settled_add_kept (fun h => if h.state.committed y then h.amount else 0) hs
    have hnn := committedInt_nonneg (settledHtlcs hs) y
    have hc : committedInt hs y ≤ o.params.fundingMsat.toNat := hinv.committedInt_le y
    simp only [committedInt, List.map_map, Function.comp_def] at hnn hc ⊢
    rw [hmap]
    show _ ≤ (o.params.fundingMsat.toNat : ℤ)
    omega
  obtain ⟨S', hS', hv⟩ := channelForceHtlcs_records o' (records.filter fun l => !l.settled)
    (newFullChannel_params hopen hc') (fun s x => by cases x <;> simp [Opening.owed, o', hv', hFo])
    hh' hkeysK
    (fun l hl => by
      obtain ⟨h, -, hlh, hv, -⟩ := hkept l hl
      have hv' : HtlcValid o' h := @HtlcValid.of_params o o' h rfl hv
      exact hlh.added_valid hv')
    hcommK
    (fun l hl => by
      obtain ⟨h, -, hlh, -, -⟩ := hkept l hl
      exact hlh.owner_eq)
    (fun l hl hp => by
      obtain ⟨h, -, hlh, hv, h9⟩ := hkept l hl
      rw [hlh.preimage] at hp
      rw [hlh.hstate]
      exact has_removing h.state (hv.removing hp) h9)
    (fun l hl hf => by
      obtain ⟨h, -, hlh, -, h9⟩ := hkept l hl
      obtain ⟨h5, hr⟩ := hlh.failure.1 hf
      exact ⟨hlh.preimage.trans hr, hlh.hstate ▸ has_removing h.state h5 h9⟩)
    (fun l hl side hw hc => by
      obtain ⟨h, -, hlh, -, -⟩ := hkept l hl
      rw [hlh.hstate] at hw hc
      have h5 := phase_of_removed h.state side hw hc
      rcases hr : h.r with _ | p
      · exact .inl (hlh.failure.2 ⟨h5, hr⟩)
      · exact .inr (by simp [hlh.preimage, hr]))
  refine ⟨c', S', hc', hS', fun s x => ?_⟩
  -- the kept records give what the kept HTLCs give, and the settled ones the rest
  have hkeptSum := forall₂_map_eq (R := LdHtlc.Records)
    (fun _ _ hlh => hlh.adjustDelta_restored s x) hrecK
  have hall := sum_settled_add_kept (fun h => adjustDelta s h x) hs
  rw [hv, howed' s, hkeptSum, add_assoc, hall]
  exact (hinv.owed s x).symm

/-! ## A paid HTLC -/

/-- A configuration with no dust limit and no minimum, room for ten HTLCs, no limit on their
value, and the given reserve in satoshi. -/
def reserveConfig (reserve : BitVec 64) : ChannelConfig :=
  ⟨0, BitVec.allOnes 64, reserve, 0, 10⟩

/-- We offer 1000 msat; the remote side fulfils it, and the removal is irrevocably committed
on both sides. -/
def paidRun (paymentHash : Sha256) : List Call :=
  [.addHtlc .local 0 1000 100 paymentHash, .sendingCommit, .rcvdRevokeAndAck, .rcvdCommit,
    .sendingRevokeAndAck, .fulfillHtlc .local 0 0, .rcvdCommit, .sendingRevokeAndAck,
    .sendingCommit, .rcvdRevokeAndAck]

/-- `lightningd`'s record of the HTLC of `paidRun`, settled with its preimage. -/
def paidRecord (paymentHash : Sha256) : LdHtlc :=
  ⟨0, .local, 1000, paymentHash, 100, .rcvdRemoveAckRevocation, some 0, 0, none⟩

/-- A run from an opening that a computation accepts, with the records of its HTLCs. -/
theorem exists_runOk_of_records (o : Option Channel) (sha256 : Preimage → Sha256)
    (calls : List Call) (records : List LdHtlc)
    (h : (o.bind fun c => c.runOk sha256 calls).map
      (fun S => decide (List.Forall₂ LdHtlc.Records records S.htlcs)) = some true) :
    ∃ c S, o = some c ∧ c.runOk sha256 calls = some S ∧
      List.Forall₂ LdHtlc.Records records S.htlcs := by
  obtain ⟨S, hS, hrec⟩ := Option.map_eq_some_iff.1 h
  obtain ⟨c, hc, hrun⟩ := Option.bind_eq_some_iff.1 hS
  exact ⟨c, S, hc, hrun, of_decide_eq_true hrec⟩

theorem channelForceHtlcs_agrees_paid :
    ∃ c S, newFullChannel 2 1000 (fun _ => 0) (reserveConfig 0) (reserveConfig 0) .remote
        (some ⟨(1 <<< 24) - 1, 0xFFFFFFFF⟩) = some c ∧
      c.runOk (fun _ => zeroPreimageHash) (paidRun zeroPreimageHash) = some S ∧
      List.Forall₂ LdHtlc.Records [paidRecord zeroPreimageHash] S.htlcs ∧
      ∃ c' S', newFullChannel 2
          (ourMsatoshiAfter 1000 ([paidRecord zeroPreimageHash].filter LdHtlc.settled))
          (fun _ => 0) (reserveConfig 0) (reserveConfig 0) .remote
          (some ⟨(1 <<< 24) - 1, 0xFFFFFFFF⟩) = some c' ∧
        channelForceHtlcs c'
          (peerHtlcs ([paidRecord zeroPreimageHash].filter fun l => !l.settled)) =
          some (true, S') ∧
        ∀ s x, (S'.view s).owedMsat x = (S.view s).owedMsat x := by
  obtain ⟨c, S, hc, hrun, hrec⟩ := exists_runOk_of_records
    (newFullChannel 2 1000 (fun _ => 0) (reserveConfig 0) (reserveConfig 0) .remote
      (some ⟨(1 <<< 24) - 1, 0xFFFFFFFF⟩)) (fun _ => zeroPreimageHash) (paidRun zeroPreimageHash)
    [paidRecord zeroPreimageHash] (by decide)
  exact ⟨c, S, hc, hrun, hrec, channelForceHtlcs_agrees List.mem_cons_self (by decide)
    (by decide) (by decide) hc hrun (List.Perm.refl _) hrec⟩

end Dexfin.Lightning
