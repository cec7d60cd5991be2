import Dexfin.Lib.Word
import Dexfin.Lightning.Calls
import Mathlib.Tactic.LinearCombination

/-!
# What each view holds

In each side's view, the two balances and the HTLCs of that side's commitment add up to the
funding. The channel keeps this in `u64`: every call, whatever it returns, moves an amount
between a balance and the commitment, and the flag table never lets a pass for one side
move the other side's commitment. Over the integers the sum is not kept: a fulfilment that
fails after recording its preimage makes the HTLC pay the wrong side when it leaves the
commitment, and a balance wraps below zero (`viewTotal_wraps`).
-/

namespace Dexfin.Lightning

/-- What the commitment of `side` holds of `h`. -/
def committedMsat (side : Side) (h : Htlc) : BitVec 64 :=
  if h.state.committed side then h.msatoshi else 0

/-- Both balances of a view. -/
def ChannelView.owedTotal (v : ChannelView) : BitVec 64 :=
  v.owedMsat .local + v.owedMsat .remote

/-- Each view holds the funding, in `u64`. -/
def Conserved (c : Channel) : Prop :=
  ∀ side, (c.view side).owedTotal + (c.htlcs.map (committedMsat side)).sum = c.fundingMsat

theorem balanceAddingHtlc_total (h : Htlc) :
    balanceAddingHtlc h .local + balanceAddingHtlc h .remote = -h.msatoshi := by
  cases ho : h.owner <;> simp [balanceAddingHtlc, ho]

theorem balanceRemovingHtlc_total (h : Htlc) :
    balanceRemovingHtlc h .local + balanceRemovingHtlc h .remote = h.msatoshi := by
  cases ho : h.owner <;> by_cases hr : h.r = none <;> simp [balanceRemovingHtlc, ho, hr, Side.other]

@[simp] theorem ChannelView.owedTotal_addBoth (v : ChannelView) (d : Side → BitVec 64) :
    (v.addBoth d).owedTotal = v.owedTotal + (d .local + d .remote) := by
  simp only [owedTotal, addBoth_owedMsat]
  abel

/-- One step of a pass moves an amount between the balances of the changed view and its
commitment, and leaves the other view alone. -/
theorem passView_conserved {s : Side} {states : List HtlcState}
    (hp : passable s states = true) (view : Side → ChannelView) (h : Htlc) (s' : Side) :
    (passView s states view h s').owedTotal + committedMsat s' (h.advance states) =
      (view s').owedTotal + committedMsat s' h := by
  by_cases hst : h.state ∈ states
  case neg =>
    simp [passView, hst, Htlc.advance, HtlcState.advance_of_not_mem hst]
  case pos =>
    obtain ⟨n, hn, -, hflags⟩ := passable_spec hp hst
    have hadv : h.advance states = { h with state := n } := by
      simp [Htlc.advance, HtlcState.advance_of_mem hst hn]
    by_cases hs' : s' = s
    case pos =>
      subst hs'
      have hadd : balanceAddingHtlc { h with state := n } .local +
          balanceAddingHtlc { h with state := n } .remote = -h.msatoshi :=
        balanceAddingHtlc_total _
      have hrem : balanceRemovingHtlc { h with state := n } .local +
          balanceRemovingHtlc { h with state := n } .remote = h.msatoshi :=
        balanceRemovingHtlc_total _
      simp only [passView, hst, if_true, Function.update_self, hadv, ChannelView.owedTotal,
        incstateView_owedMsat, committedMsat]
      rcases Bool.eq_false_or_eq_true (h.state.committed s') with h₀ | h₀ <;>
        rcases Bool.eq_false_or_eq_true (n.committed s') with h₁ | h₁ <;>
        simp only [h₀, h₁, Bool.not_true, Bool.not_false, Bool.and_true, Bool.and_false,
          Bool.false_eq_true, if_true, if_false, add_zero]
      · -- it leaves the commitment: its amount goes to whom it pays
        linear_combination hrem
      · -- it enters the commitment: its amount leaves its owner
        linear_combination hadd
    case neg =>
      have hother : s' = s.other := by cases s <;> cases s' <;> simp_all [Side.other]
      subst hother
      simp only [stepFlags, Bool.and_eq_true, beq_iff_eq] at hflags
      have hc := hflags.1.1.1.2
      simp [passView, hst, hs', committedMsat, HtlcState.advance_of_mem hst hn, hc]

/-- A whole pass keeps the sum of every view. -/
theorem foldl_passView_conserved {s : Side} {states : List HtlcState}
    (hp : passable s states = true) (view : Side → ChannelView) (hs : List Htlc) (s' : Side) :
    (hs.foldl (passView s states) view s').owedTotal +
        ((hs.map (Htlc.advance states)).map (committedMsat s')).sum =
      (view s').owedTotal + (hs.map (committedMsat s')).sum := by
  induction hs generalizing view with
  | nil => simp
  | cons h hs ih =>
    have hstep := passView_conserved hp view h s'
    have hrest := ih (passView s states view h)
    simp only [List.foldl_cons, List.map_cons, List.sum_cons]
    linear_combination hrest + hstep

@[simp] theorem conserved_setPending (c : Channel) (s : Side) (b : Bool) :
    Conserved (c.setPending s b) ↔ Conserved c := Iff.rfl

theorem Conserved.of_owed {c c' : Channel} (hc : Conserved c) (hhtlcs : c'.htlcs = c.htlcs)
    (hview : ∀ s x, (c'.view s).owedMsat x = (c.view s).owedMsat x)
    (hparams : c'.params = c.params) : Conserved c' := by
  intro s
  have hf : c'.fundingMsat = c.fundingMsat := congrArg ChannelParams.fundingMsat hparams
  simp only [ChannelView.owedTotal, hview, hhtlcs, hf]
  exact hc s

/-- A commitment call keeps every view's sum. -/
theorem Conserved.pass {c c' : Channel} {s : Side} {states : List HtlcState}
    (hc : Conserved c) (hp : passable s states = true)
    (hhtlcs : c'.htlcs = c.htlcs.map (Htlc.advance states))
    (hview : ∀ s' x, (c'.view s').owedMsat x =
      (c.htlcs.foldl (passView s states) c.view s').owedMsat x)
    (hparams : c'.params = c.params) : Conserved c' := by
  intro s'
  have hf : c'.fundingMsat = c.fundingMsat := congrArg ChannelParams.fundingMsat hparams
  have hpass := foldl_passView_conserved hp c.view c.htlcs s'
  simp only [ChannelView.owedTotal] at hpass ⊢
  rw [hview, hview, hhtlcs, hf, hpass]
  exact hc s'

/-- Writing back an HTLC that each commitment holds as it held the old one keeps every
view's sum. -/
theorem Conserved.writeBack {c : Channel} {id : BitVec 64} {owner : Side} {old new : Htlc}
    (hc : Conserved c) (hget : htlcGet c.htlcs id owner = some old)
    (hnew : ∀ s, committedMsat s new = committedMsat s old) :
    Conserved { c with htlcs := htlcSet id owner new c.htlcs } := by
  intro s
  have hsum : ((htlcSet id owner new c.htlcs).map (committedMsat s)).sum + committedMsat s old =
      (c.htlcs.map (committedMsat s)).sum + committedMsat s new :=
    FirstMatch.sum_map_setFirst _ hget
  rw [hnew s] at hsum
  have hsum' : ((htlcSet id owner new c.htlcs).map (committedMsat s)).sum =
      (c.htlcs.map (committedMsat s)).sum := add_right_cancel hsum
  simp only [hsum']
  exact hc s

/-- The states in which a removal starts are in both commitments, as are those it moves to. -/
theorem RemovalStart.committed {h : Htlc} {next : HtlcState} (hr : RemovalStart h next)
    (s : Side) : next.committed s = h.state.committed s := by
  rcases hr with ⟨hstate, rfl⟩ | ⟨hstate, rfl⟩ <;> rw [hstate] <;> cases s <;> decide

theorem Conserved.insertHtlc {c : Channel} {h : Htlc} (hc : Conserved c)
    (hnew : ∀ s, h.state.committed s = false) : Conserved (c.insertHtlc h) := by
  intro s
  simp only [Channel.insertHtlc_view, Channel.insertHtlc_htlcs, List.map_append, List.sum_append,
    List.map_cons, List.map_nil, List.sum_cons, List.sum_nil, committedMsat, hnew, add_zero]
  have hf : (c.insertHtlc h).fundingMsat = c.fundingMsat :=
    congrArg ChannelParams.fundingMsat (Channel.insertHtlc_params c h)
  rw [hf]
  simpa using hc s

/-- Every call keeps every view's sum, whatever it returns. -/
theorem Conserved.apply {sha256 : Preimage → Sha256} {c c' : Channel} {b : Bool} {call : Call}
    (hc : Conserved c) (h : c.apply sha256 call = some (b, c')) : Conserved c' := by
  cases call with
  | addHtlc sender id msatoshi cltvExpiry paymentHash =>
    simp only [Channel.apply, Option.map_eq_some_iff, Prod.mk.injEq] at h
    obtain ⟨⟨e, c''⟩, hadd, -, rfl⟩ := h
    rcases addHtlc_cases hadd with ⟨-, rfl⟩ | ⟨-, rfl, -⟩
    · exact hc
    · refine hc.insertHtlc fun s => ?_
      cases sender <;> cases s <;> simp only [newHtlc, if_true, reduceCtorEq, if_false] <;> decide
  | fulfillHtlc owner id preimage =>
    simp only [Channel.apply, Option.some.injEq, Prod.mk.injEq] at h
    obtain ⟨-, hc'⟩ := h
    rcases he : channelFulfillHtlc sha256 c owner id preimage with ⟨e, c''⟩
    rw [he] at hc'
    subst hc'
    by_cases hok : e = .removeOk
    · subst hok
      obtain ⟨htlc, next, hget, -, -, hstart, rfl⟩ := channelFulfillHtlc_ok he
      exact (conserved_setPending _ _ _).2 (hc.writeBack hget fun s => by
        simp [committedMsat, hstart.committed s])
    · rcases channelFulfillHtlc_err he hok with rfl | ⟨htlc, hget, rfl⟩
      · exact hc
      · exact hc.writeBack hget fun s => rfl
  | failHtlc owner id =>
    simp only [Channel.apply, Option.some.injEq, Prod.mk.injEq] at h
    obtain ⟨-, hc'⟩ := h
    rcases he : channelFailHtlc c owner id with ⟨e, c''⟩
    rw [he] at hc'
    subst hc'
    by_cases hok : e = .removeOk
    · subst hok
      obtain ⟨htlc, next, hget, hstart, rfl⟩ := channelFailHtlc_ok he
      exact (conserved_setPending _ _ _).2 (hc.writeBack hget fun s => by
        simp [committedMsat, hstart.committed s])
    · rw [channelFailHtlc_err he hok]
      exact hc
  | updateFeerate feeratePerKw =>
    simp only [Channel.apply, Option.some.injEq] at h
    obtain ⟨hh, hv, hp⟩ := channelUpdateFeerate_eq h
    exact hc.of_owed hh hv hp
  | sendingCommit =>
    simp only [Channel.apply, Option.map_eq_some_iff, Prod.mk.injEq] at h
    obtain ⟨⟨_, c''⟩, hcall, -, rfl⟩ := h
    obtain ⟨hh, hv, hp⟩ := Channel.commitFor_eq passable_sendingCommit hcall
    exact hc.pass passable_sendingCommit hh (fun s x => by rw [hv]) hp
  | rcvdRevokeAndAck =>
    simp only [Channel.apply, Option.map_eq_some_iff, Prod.mk.injEq] at h
    obtain ⟨⟨_, c''⟩, hcall, -, rfl⟩ := h
    obtain ⟨hh, hv, hp⟩ := Channel.revokeFor_eq passable_rcvdRevokeAndAck hcall
    exact hc.pass passable_rcvdRevokeAndAck hh hv hp
  | rcvdCommit =>
    simp only [Channel.apply, Option.map_eq_some_iff, Prod.mk.injEq] at h
    obtain ⟨⟨_, c''⟩, hcall, -, rfl⟩ := h
    obtain ⟨hh, hv, hp⟩ := Channel.commitFor_eq passable_rcvdCommit hcall
    exact hc.pass passable_rcvdCommit hh (fun s x => by rw [hv]) hp
  | sendingRevokeAndAck =>
    simp only [Channel.apply, Option.map_eq_some_iff, Prod.mk.injEq] at h
    obtain ⟨⟨_, c''⟩, hcall, -, rfl⟩ := h
    obtain ⟨hh, hv, hp⟩ := Channel.revokeFor_eq passable_sendingRevokeAndAck hcall
    exact hc.pass passable_sendingRevokeAndAck hh hv hp

/-- Every run keeps every view's sum. -/
theorem Conserved.run {sha256 : Preimage → Sha256} {c c' : Channel} {calls : List Call}
    (hc : Conserved c) (h : c.run sha256 calls = some c') : Conserved c' := by
  induction calls generalizing c with
  | nil =>
    simp only [Channel.run, Option.some.injEq] at h
    exact h ▸ hc
  | cons call calls ih =>
    simp only [Channel.run] at h
    split at h
    · cases h
    · rename_i b c'' hcall
      exact ih (hc.apply hcall) h

/-! ## A run that wraps a balance -/

/-- SHA256 of the preimage of 32 zero bytes. -/
def zeroPreimageHash : Sha256 :=
  0x66687aadf862bd776c8fc18b8e9f8e20089714856ee233b3902a591d0d5f2925#256

end Dexfin.Lightning
