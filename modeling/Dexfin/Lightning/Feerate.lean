import Dexfin.Lightning.Reserve

/-!
# The feerate checks

`can_funder_afford_feerate` and `approx_max_feerate` both look at the funder's balance in the
other side's view against the base fee of that side's next commitment. The untrimmed count
that `can_funder_afford_feerate` adds up from `gather_htlcs` is the count over the HTLCs of
that commitment (`commitTxNumUntrimmed_next`), and the HTLC count of `approx_max_feerate` is
their number. So `channel_update_feerate` accepts a rate exactly when the balance covers the
reserve and the base fee of the next commitment (`channelUpdateFeerate_fst_iff`).

Both functions compare millisatoshi with the satoshi result of `commit_tx_base_fee`, which
`commit_tx` charges as `commit_tx_base_fee(...) * 1000`. They agree with each other in these
units: the fee at the rate `approx_max_feerate` returns, in satoshi, is at most the balance
in millisatoshi (`commitTxBaseFee_approxMaxFeerate_le`), so with no reserve the funder can
afford that rate (`canFunderAffordFeerate_approxMaxFeerate`). Against the fee that the
commitment pays both are a thousand times too lax (`channelUpdateFeerate_unaffordable`).
-/

namespace Dexfin.Lightning

/-- `approx_max_feerate`: the funder's balance in the other side's view, over the weight of
that side's next commitment with no HTLC trimmed, times 1000. The `u64` result is returned
as a `u32`. -/
def approxMaxFeerate (c : Channel) : BitVec 32 :=
  let (committed, removing, adding) := gatherHtlcs c.htlcs c.funder.other
  let num : BitVec 64 := BitVec.ofNat 64 committed.length + BitVec.ofNat 64 adding.length
    - BitVec.ofNat 64 removing.length
  let weight : BitVec 64 := 724 + 172 * num
  ((c.view c.funder.other).owedMsat c.funder / weight * 1000).setWidth 32

/-- The HTLCs of `side`'s next commitment: those committed there and not pending removal,
and those pending addition. -/
def nextCommitHtlcs (htlcs : List Htlc) (side : Side) : List Htlc :=
  let (committed, _, adding) := gatherHtlcs htlcs side
  committed.filter (fun h => !h.has (htlcFlag side htlcFPending)) ++ adding

/-! ## Counting the next commitment -/

/-- Counting the committed HTLCs, adding those pending addition and taking away those pending
removal, in `size_t`, counts the HTLCs of the next commitment. -/
theorem gatherHtlcs_countP (p : Htlc → Bool) (htlcs : List Htlc) (side : Side) :
    BitVec.ofNat 64 ((gatherHtlcs htlcs side).1.countP p)
        + BitVec.ofNat 64 ((gatherHtlcs htlcs side).2.2.countP p)
        - BitVec.ofNat 64 ((gatherHtlcs htlcs side).2.1.countP p) =
      BitVec.ofNat 64 ((nextCommitHtlcs htlcs side).countP p) := by
  -- the committed HTLCs split into those pending removal and the rest
  have hsplit := List.countP_eq_countP_filter_add (gatherHtlcs htlcs side).1 p
    (fun h => h.has (htlcFlag side htlcFPending))
  simp only [gatherHtlcs, nextCommitHtlcs] at hsplit ⊢
  rw [hsplit, List.countP_append]
  simp only [BitVec.ofNat_add]
  abel

/-- The untrimmed count of `can_funder_afford_feerate` is that of the next commitment. -/
theorem commitTxNumUntrimmed_next (htlcs : List Htlc) (feeratePerKw : BitVec 32)
    (dust : BitVec 64) (side : Side) :
    commitTxNumUntrimmed (gatherHtlcs htlcs side).1 feeratePerKw dust side
        + commitTxNumUntrimmed (gatherHtlcs htlcs side).2.2 feeratePerKw dust side
        - commitTxNumUntrimmed (gatherHtlcs htlcs side).2.1 feeratePerKw dust side =
      commitTxNumUntrimmed (nextCommitHtlcs htlcs side) feeratePerKw dust side :=
  gatherHtlcs_countP _ htlcs side

/-- The HTLC count of `approx_max_feerate` is the number of HTLCs of the next commitment. -/
theorem gatherHtlcs_length (htlcs : List Htlc) (side : Side) :
    BitVec.ofNat 64 (gatherHtlcs htlcs side).1.length
        + BitVec.ofNat 64 (gatherHtlcs htlcs side).2.2.length
        - BitVec.ofNat 64 (gatherHtlcs htlcs side).2.1.length =
      BitVec.ofNat 64 (nextCommitHtlcs htlcs side).length := by
  simpa only [List.countP_true] using gatherHtlcs_countP (fun _ => true) htlcs side

/-! ## `channel_update_feerate` -/

/-- `channel_update_feerate` succeeds exactly when the funder can afford the rate. -/
@[simp]
theorem channelUpdateFeerate_fst (c : Channel) (feeratePerKw : BitVec 32) :
    (channelUpdateFeerate c feeratePerKw).1 = canFunderAffordFeerate c feeratePerKw := by
  unfold channelUpdateFeerate
  split_ifs with h
  · simp only [Bool.not_eq_true'] at h
    exact h.symm
  · simp only [Bool.not_eq_true', Bool.not_eq_false] at h
    exact h.symm

/-- `channel_update_feerate` accepts a rate exactly when the funder's balance in the other
side's view covers, in 64 bits, its reserve and the base fee of that side's next commitment
over its untrimmed HTLCs. -/
theorem channelUpdateFeerate_fst_iff (c : Channel) (feeratePerKw : BitVec 32) :
    (channelUpdateFeerate c feeratePerKw).1 = true ↔
      channelReserveMsat c c.funder + commitTxBaseFee feeratePerKw
          (commitTxNumUntrimmed (nextCommitHtlcs c.htlcs c.funder.other) feeratePerKw
            (c.config c.funder.other).dustLimitSatoshis c.funder.other) ≤
        (c.view c.funder.other).owedMsat c.funder := by
  rw [channelUpdateFeerate_fst, ← commitTxNumUntrimmed_next]
  simp only [canFunderAffordFeerate, ge_iff_le, decide_eq_true_eq]

/-! ## `approx_max_feerate` -/

/-- `approx_max_feerate` divides by the weight of the next commitment with every HTLC kept. -/
theorem approxMaxFeerate_eq (c : Channel) :
    approxMaxFeerate c = ((c.view c.funder.other).owedMsat c.funder /
      (724 + 172 * BitVec.ofNat 64 (nextCommitHtlcs c.htlcs c.funder.other).length) * 1000).setWidth 32 := by
  rw [← gatherHtlcs_length]
  rfl

/-- The weight of a commitment with fewer than `2^24` HTLC outputs does not wrap. -/
theorem toNat_weight {n : BitVec 64} (hn : n.toNat < 2 ^ 24) :
    (724 + 172 * n).toNat = 724 + 172 * n.toNat := by
  bv_omega

/-- Rounding the rate down to a multiple of 1000 over the weight, a commitment of no more
weight pays a fee that the numerator covers. -/
theorem fee_le_of_rate_le {owed w w' r : ℕ} (hr : r ≤ owed / w * 1000) (hw : w' ≤ w) :
    r * w' / 1000 ≤ owed := by
  apply Nat.div_le_of_le_mul
  calc r * w' ≤ owed / w * 1000 * w := Nat.mul_le_mul hr hw
    _ = owed / w * w * 1000 := Nat.mul_right_comm _ _ _
    _ ≤ owed * 1000 := Nat.mul_le_mul_right 1000 (Nat.div_mul_le_self owed w)
    _ = 1000 * owed := Nat.mul_comm _ _

/-- The base fee at the rate `approx_max_feerate` returns, over at most as many HTLCs as the
next commitment holds, is in satoshi at most the funder's balance in millisatoshi: the units
in which `can_funder_afford_feerate` compares them. -/
theorem commitTxBaseFee_approxMaxFeerate_le {c : Channel}
    (hlen : (nextCommitHtlcs c.htlcs c.funder.other).length < 2 ^ 24) {n : BitVec 64}
    (hn : n.toNat ≤ (nextCommitHtlcs c.htlcs c.funder.other).length) :
    (commitTxBaseFee (approxMaxFeerate c) n).toNat ≤
      ((c.view c.funder.other).owedMsat c.funder).toNat := by
  set len := (nextCommitHtlcs c.htlcs c.funder.other).length
  set owed := ((c.view c.funder.other).owedMsat c.funder).toNat
  have hlen64 : (BitVec.ofNat 64 len).toNat = len := by
    rw [BitVec.toNat_ofNat]
    omega
  have hweight := toNat_weight (n := BitVec.ofNat 64 len) (by omega)
  rw [hlen64] at hweight
  -- the rate is at most the quotient times 1000, whether or not the `u32` cut it
  have hrate : (approxMaxFeerate c).toNat ≤ owed / (724 + 172 * len) * 1000 := by
    rw [approxMaxFeerate_eq, BitVec.toNat_setWidth, BitVec.toNat_mul, BitVec.toNat_udiv,
      hweight]
    calc _ ≤ owed / (724 + 172 * len) * (1000 : BitVec 64).toNat % 2 ^ 64 := Nat.mod_le _ _
      _ ≤ owed / (724 + 172 * len) * 1000 := Nat.mod_le _ _
  have hr32 := (approxMaxFeerate c).isLt
  -- neither the weight of `n` outputs nor its product with a `u32` rate wraps
  have hwn := toNat_weight (n := n) (by omega)
  have hprod : (approxMaxFeerate c).toNat * (724 + 172 * n.toNat) < 2 ^ 64 :=
    calc _ < 2 ^ 32 * (724 + 172 * 2 ^ 24) :=
          Nat.mul_lt_mul_of_lt_of_le hr32 (by omega) (by omega)
      _ < 2 ^ 64 := by decide
  have hr64 : (approxMaxFeerate c).toNat % 2 ^ 64 = (approxMaxFeerate c).toNat :=
    Nat.mod_eq_of_lt (by omega)
  simp only [commitTxBaseFee, BitVec.toNat_udiv, BitVec.toNat_mul, BitVec.toNat_setWidth, hwn,
    hr64, Nat.mod_eq_of_lt hprod]
  exact fee_le_of_rate_le hrate (by omega)

/-- With no reserve, the funder can afford the rate `approx_max_feerate` returns. -/
theorem canFunderAffordFeerate_approxMaxFeerate {c : Channel}
    (hlen : (nextCommitHtlcs c.htlcs c.funder.other).length < 2 ^ 24)
    (hres : channelReserveMsat c c.funder = 0) :
    canFunderAffordFeerate c (approxMaxFeerate c) = true := by
  rw [← channelUpdateFeerate_fst, channelUpdateFeerate_fst_iff, hres, zero_add,
    BitVec.le_def]
  apply commitTxBaseFee_approxMaxFeerate_le hlen
  -- an untrimmed count is at most the number of HTLCs
  simp only [commitTxNumUntrimmed, BitVec.toNat_ofNat]
  exact (Nat.mod_le _ _).trans List.countP_le_length

/-- In our 100000 satoshi channel, holding 100000000 msat against a 1000 satoshi reserve,
`channel_update_feerate` accepts 1000000 satoshi per kiloweight, at which our next commitment
with no HTLC pays 724000 satoshi in fees; and the fee at the rate `approx_max_feerate`
returns, 138121000, is 99999604 satoshi. -/
theorem channelUpdateFeerate_unaffordable :
    ∃ c, fundedChannel = some c ∧ (channelUpdateFeerate c 1000000).1 = true ∧
      ((c.view .remote).owedMsat .local).toNat <
        (channelReserveMsat c .local).toNat + (commitTxBaseFee 1000000
          (commitTxNumUntrimmed (nextCommitHtlcs c.htlcs .remote) 1000000
            (c.config .remote).dustLimitSatoshis .remote)).toNat * 1000 ∧
      ((c.view .remote).owedMsat .local).toNat <
        (commitTxBaseFee (approxMaxFeerate c)
          (BitVec.ofNat 64 (nextCommitHtlcs c.htlcs .remote).length)).toNat * 1000 := by
  have hval : fundedChannel.map (fun c => ((channelUpdateFeerate c 1000000).1,
      ((c.view .remote).owedMsat .local).toNat, (channelReserveMsat c .local).toNat,
      (commitTxBaseFee 1000000 (commitTxNumUntrimmed (nextCommitHtlcs c.htlcs .remote) 1000000
        (c.config .remote).dustLimitSatoshis .remote)).toNat,
      (commitTxBaseFee (approxMaxFeerate c)
        (BitVec.ofNat 64 (nextCommitHtlcs c.htlcs .remote).length)).toNat)) =
      some (true, 100000000, 1000000, 724000, 99999604) := by
    decide
  obtain ⟨c, hc, hv⟩ := Option.map_eq_some_iff.1 hval
  simp only [Prod.mk.injEq] at hv
  obtain ⟨h₁, h₂, h₃, h₄, h₅⟩ := hv
  refine ⟨c, hc, h₁, ?_, ?_⟩
  · rw [h₂, h₃, h₄]
    decide
  · rw [h₂, h₅]
    decide

end Dexfin.Lightning
