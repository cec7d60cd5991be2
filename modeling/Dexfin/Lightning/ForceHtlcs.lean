import Dexfin.Lightning.Invariant
import Dexfin.Lightning.Restore

/-!
# The loops of `channel_force_htlcs`

`channel_force_htlcs` rebuilds the HTLC map from `lightningd`'s records in four loops: it adds
every HTLC in its state, records the preimages, records the failures, and recomputes the
balances. On records with distinct keys whose HTLCs passed the checks of `add_htlc`, each
loop succeeds, and after it the map is the record list read through one more field
(`LdHtlc.added`, `LdHtlc.fulfilled`, `LdHtlc.restored`). The balances end as the opening
balances plus what `adjust_balance` computes for each record (`channelForceHtlcs_records`).
-/

namespace Dexfin.Lightning

/-! ## The HTLC of a record after each loop -/

/-- What the first loop adds for a record. -/
def LdHtlc.added (l : LdHtlc) : Htlc :=
  newHtlc l.hstate l.id l.msatoshi l.cltvExpiry l.paymentHash

/-- The HTLC once the second loop has recorded its preimage. -/
def LdHtlc.fulfilled (l : LdHtlc) : Htlc := { l.added with r := l.preimage }

/-- The HTLC once the third loop has recorded its failure. -/
def LdHtlc.restored (l : LdHtlc) : Htlc :=
  { l.fulfilled with failcode := l.failcode, fail := l.failuremsg }

@[simp] theorem LdHtlc.added_state (l : LdHtlc) : l.added.state = l.hstate := rfl
@[simp] theorem LdHtlc.added_id (l : LdHtlc) : l.added.id = l.id := rfl
@[simp] theorem LdHtlc.added_owner (l : LdHtlc) : l.added.owner = l.hstate.owner := rfl
@[simp] theorem LdHtlc.added_msatoshi (l : LdHtlc) : l.added.msatoshi = l.msatoshi := rfl
@[simp] theorem LdHtlc.added_expiry (l : LdHtlc) : l.added.expiry = l.cltvExpiry := rfl
@[simp] theorem LdHtlc.added_amount (l : LdHtlc) : l.added.amount = l.msatoshi.toNat := rfl
@[simp] theorem LdHtlc.fulfilled_state (l : LdHtlc) : l.fulfilled.state = l.hstate := rfl
@[simp] theorem LdHtlc.fulfilled_id (l : LdHtlc) : l.fulfilled.id = l.id := rfl
@[simp] theorem LdHtlc.fulfilled_owner (l : LdHtlc) : l.fulfilled.owner = l.hstate.owner := rfl
@[simp] theorem LdHtlc.restored_state (l : LdHtlc) : l.restored.state = l.hstate := rfl
@[simp] theorem LdHtlc.restored_id (l : LdHtlc) : l.restored.id = l.id := rfl
@[simp] theorem LdHtlc.restored_owner (l : LdHtlc) : l.restored.owner = l.hstate.owner := rfl

theorem LdHtlc.fulfilled_of_preimage_none {l : LdHtlc} (h : l.preimage = none) :
    l.fulfilled = l.added := by
  simp [LdHtlc.fulfilled, LdHtlc.added, newHtlc, h]

theorem LdHtlc.restored_of_no_failure {l : LdHtlc} (h : ¬(l.failuremsg.isSome ∨ l.failcode ≠ 0)) :
    l.restored = l.fulfilled := by
  simp only [not_or, Option.not_isSome_iff_eq_none, not_not] at h
  simp [LdHtlc.restored, LdHtlc.fulfilled, LdHtlc.added, newHtlc, h.1, h.2]

/-! ## Adding -/

theorem addHtlcFee_not_slt (c : Channel) (htlc : Htlc) (committed removing adding : List Htlc) :
    ¬(addHtlcFee c htlc committed removing adding).slt 0 := by
  have hlt := addHtlcFee_toNat_lt c htlc committed removing adding
  rw [← Word.ofInt_toNat (addHtlcFee c htlc committed removing adding)]
  exact Word.not_slt_zero (by norm_num) (by positivity) (by norm_num; omega)

/-- `add_htlc` without the aggregate limits accepts an HTLC that passes the per-HTLC checks
while the sender's balance, and that balance with the recipient's pending removals paid
back, are nonnegative. -/
theorem addHtlc_unenforced_ok {c : Channel} {state : HtlcState} {id msatoshi : BitVec 64}
    {cltvExpiry : BitVec 32} {paymentHash : Sha256} (hexp : cltvExpiry < 500000000)
    (hfresh : htlcGet c.htlcs id state.owner = none) (hpos : msatoshi ≠ 0)
    (hmin : (c.config state.owner.other).htlcMinimumMsat ≤ msatoshi)
    (hmax : msatoshi ≤ c.maxPaymentMsat)
    (hbal : ¬((c.view state.owner.other).owedMsat state.owner).slt 0)
    (hrem : ¬((gatherHtlcs c.htlcs state.owner.other).2.1.foldl
      (fun b h => b + balanceRemovingHtlc h state.owner)
      ((c.view state.owner.other).owedMsat state.owner)).slt 0) :
    addHtlc c state id msatoshi cltvExpiry paymentHash false =
      some (.addOk, c.insertHtlc (newHtlc state id msatoshi cltvExpiry paymentHash)) := by
  have hfresh' : htlcGet c.htlcs id (newHtlc state id msatoshi cltvExpiry paymentHash).owner =
      none := hfresh
  unfold addHtlc
  rw [if_neg (by simpa using hexp)]
  dsimp only
  rw [hfresh']
  dsimp only
  simp only [newHtlc, Htlc.owner, hpos, if_false, BitVec.not_lt.2 hmin, BitVec.not_lt.2 hmax,
    Bool.false_eq_true, false_and, addHtlcFee_not_slt, hbal, hrem]

/-- What `add_htlc` pays back for the recipient's pending removals is the word of a
nonnegative integer no larger than what the recipient's commitment holds. -/
theorem removing_foldl (hs : List Htlc) (y x : Side) (b : BitVec 64) :
    ∃ a : ℤ, (gatherHtlcs hs y).2.1.foldl (fun b h => b + balanceRemovingHtlc h x) b =
      b + BitVec.ofInt 64 a ∧ 0 ≤ a ∧ a ≤ committedInt hs y := by
  have hterm : ∀ h : Htlc,
      0 ≤ (if (h.has (htlcFlag y htlcFPending) && h.has (htlcFlag y htlcFCommitted)) = true
        then removingCoeff x h.state h.r.isSome * h.amount else 0) ∧
      (if (h.has (htlcFlag y htlcFPending) && h.has (htlcFlag y htlcFCommitted)) = true
        then removingCoeff x h.state h.r.isSome * h.amount else 0) ≤
        if h.state.committed y then h.amount else 0 := by
    intro h
    have ha := h.amount_nonneg
    simp only [Htlc.has, HtlcState.committed, Bool.and_eq_true, removingCoeff]
    split_ifs <;> simp_all
  refine ⟨(hs.map fun h =>
      if (h.has (htlcFlag y htlcFPending) && h.has (htlcFlag y htlcFCommitted)) = true
      then removingCoeff x h.state h.r.isSome * h.amount else 0).sum, ?_, ?_, ?_⟩
  · simp only [gatherHtlcs, Word.foldl_add, List.filter_filter, sum_map_filter_eq,
      Word.ofInt_list_sum, List.map_map]
    congr 2
    refine List.map_congr_left fun h _ => ?_
    rcases Bool.eq_false_or_eq_true (h.has (htlcFlag y htlcFPending)) with hp | hp <;>
      rcases Bool.eq_false_or_eq_true (h.has (htlcFlag y htlcFCommitted)) with hc | hc <;>
      simp [hp, hc, balanceRemovingHtlc_eq]
  · exact List.sum_nonneg fun a ha => by
      obtain ⟨h, -, rfl⟩ := List.mem_map.1 ha
      exact (hterm h).1
  · exact List.sum_le_sum fun h _ => (hterm h).2

/-- The first loop adds every record in order, while the keys are distinct, every HTLC
passes the checks of `add_htlc`, and no commitment would hold more than the funding. -/
theorem forceAdd_records (o : Opening) {c : Channel} (done rest : List LdHtlc)
    (hparams : c.params = o.params) (hview : ∀ s x, (c.view s).owedMsat x = o.owed x)
    (hhtlcs : c.htlcs = done.map LdHtlc.added)
    (hkeys : ((done ++ rest).map LdHtlc.added).Pairwise KeyNe)
    (hvalid : ∀ l ∈ rest, HtlcValid o l.added)
    (hcomm : ∀ y, committedInt ((done ++ rest).map LdHtlc.added) y ≤
      o.params.fundingMsat.toNat) :
    ∃ c', forceAdd c (rest.map fun l =>
        ((⟨l.id, l.msatoshi, l.paymentHash, l.cltvExpiry⟩ : AddedHtlc), l.hstate)) =
      some (true, c') ∧ c'.params = o.params ∧ c'.view = c.view ∧
      c'.htlcs = (done ++ rest).map LdHtlc.added := by
  induction rest generalizing done c with
  | nil => exact ⟨c, rfl, hparams, rfl, by simpa using hhtlcs⟩
  | cons l rest ih =>
    have hl := hvalid l List.mem_cons_self
    have hcfg : c.config = o.params.config := congrArg ChannelParams.config hparams
    have hmaxp : c.maxPaymentMsat = o.params.maxPaymentMsat :=
      congrArg ChannelParams.maxPaymentMsat hparams
    have hF := o.funding_lt
    -- the keys already added differ from this one
    have hfresh : htlcGet c.htlcs l.id l.hstate.owner = none := by
      rw [hhtlcs, List.map_append, List.pairwise_append] at *
      refine List.find?_eq_none.2 fun a ha => ?_
      have hne := hkeys.2.2 a ha l.added (by simp)
      simpa using isKey_eq_false_of_keyNe hne
    -- the sender's balance is its opening balance
    have hbal : ¬((c.view l.hstate.owner.other).owedMsat l.hstate.owner).slt 0 := by
      have hle := o.init_le l.hstate.owner
      rw [hview, ← o.ofInt_init]
      exact Word.not_slt_zero (by norm_num) (o.init_nonneg _) (by norm_num; omega)
    -- the removals paid back are held by a commitment of the records added so far
    have hrem : ¬((gatherHtlcs c.htlcs l.hstate.owner.other).2.1.foldl
        (fun b h => b + balanceRemovingHtlc h l.hstate.owner)
        ((c.view l.hstate.owner.other).owedMsat l.hstate.owner)).slt 0 := by
      obtain ⟨a, ha, ha0, hale⟩ := removing_foldl c.htlcs l.hstate.owner.other l.hstate.owner
        ((c.view l.hstate.owner.other).owedMsat l.hstate.owner)
      have hcommitted : committedInt c.htlcs l.hstate.owner.other ≤ o.params.fundingMsat.toNat := by
        have htotal := hcomm l.hstate.owner.other
        have hrest := committedInt_nonneg ((l :: rest).map LdHtlc.added) l.hstate.owner.other
        rw [List.map_append, committedInt_append] at htotal
        rw [hhtlcs]
        omega
      have hle := o.init_le l.hstate.owner
      have hnn := o.init_nonneg l.hstate.owner
      rw [ha, hview, ← o.ofInt_init, ← BitVec.ofInt_add]
      exact Word.not_slt_zero (by norm_num) (by omega) (by norm_num; omega)
    have hadd : addHtlc c l.hstate l.id l.msatoshi l.cltvExpiry l.paymentHash false =
        some (.addOk, c.insertHtlc l.added) :=
      addHtlc_unenforced_ok hl.expiry hfresh hl.pos (hcfg ▸ hl.aboveMin) (hmaxp ▸ hl.belowMax)
        hbal hrem
    obtain ⟨c', hc', hp', hv', hh'⟩ := ih (done ++ [l]) (c := c.insertHtlc l.added)
      (by rw [Channel.insertHtlc_params]; exact hparams)
      (fun s x => by rw [Channel.insertHtlc_view]; exact hview s x)
      (by rw [Channel.insertHtlc_htlcs, hhtlcs, List.map_append, List.map_singleton])
      (by simpa using hkeys) (fun l' hl' => hvalid l' (List.mem_cons_of_mem l hl'))
      (by simpa using hcomm)
    refine ⟨c', ?_, hp', by rw [hv', Channel.insertHtlc_view], by simpa using hh'⟩
    simp only [List.map_cons, forceAdd, hadd]
    exact hc'

/-! ## Settling -/

/-- The second loop records the preimage of every fulfilled record: each is found under its
key, not yet settled, and being removed. -/
theorem forceFulfill_records {c : Channel} (done rest : List LdHtlc)
    (hhtlcs : c.htlcs = done.map LdHtlc.fulfilled ++ rest.map LdHtlc.added)
    (hkeys : ((done ++ rest).map LdHtlc.added).Pairwise KeyNe)
    (howner : ∀ l ∈ rest, l.owner = l.hstate.owner)
    (hremoving : ∀ l ∈ rest, l.preimage.isSome → l.hstate.has htlcRemoving) :
    ∃ c', forceFulfill c (rest.filterMap fun l =>
        l.preimage.map fun p => ((⟨l.id, p⟩ : FulfilledHtlc), l.owner)) = (true, c') ∧
      c'.params = c.params ∧ c'.view = c.view ∧ c'.htlcs = (done ++ rest).map LdHtlc.fulfilled := by
  induction rest generalizing done c with
  | nil => exact ⟨c, rfl, rfl, rfl, by simpa using hhtlcs⟩
  | cons l rest ih =>
    have hrest : ∀ l' ∈ rest, l' ∈ l :: rest := fun l' hl' => List.mem_cons_of_mem l hl'
    -- the records before this one have other keys
    have hpre : ∀ a ∈ done.map LdHtlc.fulfilled, a.isKey l.id l.owner = false := by
      rw [List.map_append, List.pairwise_append] at hkeys
      intro a ha
      obtain ⟨d, hd, rfl⟩ := List.mem_map.1 ha
      have hne := hkeys.2.2 d.added (List.mem_map_of_mem hd) l.added (by simp)
      rw [howner l List.mem_cons_self]
      simpa [Htlc.isKey, Htlc.has, HtlcState.has_owner_flag, Htlc.owner, KeyNe] using hne
    have hkey : l.added.isKey l.id l.owner = true := by
      rw [howner l List.mem_cons_self]
      exact Htlc.isKey_self l.added
    rcases hp : l.preimage with _ | p
    · -- no preimage: nothing to record, and the HTLC is already as fulfilled
      obtain ⟨c', hc', hp', hv', hh'⟩ := ih (done ++ [l]) (c := c)
        (by simp [hhtlcs, LdHtlc.fulfilled_of_preimage_none hp]) (by simpa using hkeys)
        (fun l' hl' => howner l' (hrest l' hl')) (fun l' hl' => hremoving l' (hrest l' hl'))
      refine ⟨c', ?_, hp', hv', by simpa using hh'⟩
      simpa [List.filterMap_cons, hp] using hc'
    · have hget : htlcGet c.htlcs l.id l.owner = some l.added := by
        rw [hhtlcs, List.map_cons]
        exact FirstMatch.find?_append_cons hpre hkey
      have hsettle : settleable l.added = true := by
        simpa [settleable, LdHtlc.added, newHtlc, Htlc.has] using
          hremoving l List.mem_cons_self (by simp [hp])
      have hwrite : htlcSet l.id l.owner { l.added with r := some p } c.htlcs =
          (done ++ [l]).map LdHtlc.fulfilled ++ rest.map LdHtlc.added := by
        rw [hhtlcs, List.map_cons, htlcSet, FirstMatch.setFirst_append_cons hpre hkey]
        simp [LdHtlc.fulfilled, hp]
      obtain ⟨c', hc', hp', hv', hh'⟩ := ih (done ++ [l])
        (c := { c with htlcs := htlcSet l.id l.owner { l.added with r := some p } c.htlcs })
        hwrite (by simpa using hkeys) (fun l' hl' => howner l' (hrest l' hl'))
        (fun l' hl' => hremoving l' (hrest l' hl'))
      refine ⟨c', ?_, hp', hv', by simpa using hh'⟩
      simp only [List.filterMap_cons, hp, Option.map_some, forceFulfill, hget, hsettle,
        Bool.not_true, Bool.false_eq_true, if_false]
      exact hc'

/-- The third loop records the failure of every failed record: each is found under its key,
has no preimage, and is being removed. -/
theorem forceFail_records {c : Channel} (done rest : List LdHtlc)
    (hhtlcs : c.htlcs = done.map LdHtlc.restored ++ rest.map LdHtlc.fulfilled)
    (hkeys : ((done ++ rest).map LdHtlc.added).Pairwise KeyNe)
    (howner : ∀ l ∈ rest, l.owner = l.hstate.owner)
    (hfailed : ∀ l ∈ rest, (l.failuremsg.isSome ∨ l.failcode ≠ 0) →
      l.preimage = none ∧ l.hstate.has htlcRemoving) :
    ∃ c', forceFail c (rest.filterMap fun l =>
        if l.failuremsg.isSome ∨ l.failcode ≠ 0 then
          some ((⟨l.id, l.failcode, l.failuremsg⟩ : FailedHtlc), l.owner) else none) =
      (true, c') ∧ c'.params = c.params ∧ c'.view = c.view ∧
      c'.htlcs = (done ++ rest).map LdHtlc.restored := by
  induction rest generalizing done c with
  | nil => exact ⟨c, rfl, rfl, rfl, by simpa using hhtlcs⟩
  | cons l rest ih =>
    have hrest : ∀ l' ∈ rest, l' ∈ l :: rest := fun l' hl' => List.mem_cons_of_mem l hl'
    have hpre : ∀ a ∈ done.map LdHtlc.restored, a.isKey l.id l.owner = false := by
      rw [List.map_append, List.pairwise_append] at hkeys
      intro a ha
      obtain ⟨d, hd, rfl⟩ := List.mem_map.1 ha
      have hne := hkeys.2.2 d.added (List.mem_map_of_mem hd) l.added (by simp)
      rw [howner l List.mem_cons_self]
      simpa [Htlc.isKey, Htlc.has, HtlcState.has_owner_flag, Htlc.owner, KeyNe] using hne
    have hkey : l.fulfilled.isKey l.id l.owner = true := by
      rw [howner l List.mem_cons_self]
      exact Htlc.isKey_self l.fulfilled
    by_cases hf : l.failuremsg.isSome ∨ l.failcode ≠ 0
    · obtain ⟨hnone, hremoving⟩ := hfailed l List.mem_cons_self hf
      have hget : htlcGet c.htlcs l.id l.owner = some l.fulfilled := by
        rw [hhtlcs, List.map_cons]
        exact FirstMatch.find?_append_cons hpre hkey
      have hsettle : settleable l.fulfilled = true := by
        simpa [settleable, LdHtlc.fulfilled, LdHtlc.added, newHtlc, Htlc.has, hnone] using
          hremoving
      have hwrite : htlcSet l.id l.owner l.restored c.htlcs =
          (done ++ [l]).map LdHtlc.restored ++ rest.map LdHtlc.fulfilled := by
        rw [hhtlcs, List.map_cons, htlcSet, FirstMatch.setFirst_append_cons hpre hkey]
        simp
      obtain ⟨c', hc', hp', hv', hh'⟩ := ih (done ++ [l])
        (c := { c with htlcs := htlcSet l.id l.owner l.restored c.htlcs }) hwrite (by simpa using hkeys) (fun l' hl' => howner l' (hrest l' hl'))
        (fun l' hl' => hfailed l' (hrest l' hl'))
      refine ⟨c', ?_, hp', hv', by simpa using hh'⟩
      simp only [List.filterMap_cons, hf, if_true, forceFail, hget, hsettle, Bool.not_true,
        Bool.false_eq_true, if_false]
      exact hc'
    · -- no failure: nothing to record, and the HTLC is already as restored
      obtain ⟨c', hc', hp', hv', hh'⟩ := ih (done ++ [l]) (c := c)
        (by simp [hhtlcs, LdHtlc.restored_of_no_failure hf]) (by simpa using hkeys)
        (fun l' hl' => howner l' (hrest l' hl')) (fun l' hl' => hfailed l' (hrest l' hl'))
      refine ⟨c', ?_, hp', hv', by simpa using hh'⟩
      simp only [List.filterMap_cons, if_neg hf]
      exact hc'

/-! ## The balances -/

/-- One side of `adjust_balance` adds to that side's view what `adjust_balance` computes,
unless the HTLC has left the commitment without being settled. -/
theorem adjustSide_eq (c : Channel) (h : Htlc) (side : Side)
    (hout : h.state.wasCommitted side = true → h.state.committed side = false →
      ¬(h.fail = none ∧ h.failcode = 0 ∧ h.r = none)) :
    ∃ c', adjustSide c h side = (true, c') ∧ c'.htlcs = c.htlcs ∧ c'.params = c.params ∧
      ∀ s x, (c'.view s).owedMsat x =
        (c.view s).owedMsat x + if s = side then adjustDelta side h x else 0 := by
  unfold adjustSide
  by_cases hw : h.state.wasCommitted side = true
  case neg =>
    have hw' : h.has (htlcFlag side htlcFWasCommitted) = false := by
      simpa [HtlcState.wasCommitted, Htlc.has] using hw
    refine ⟨c, by simp [hw'], rfl, rfl, fun s x => ?_⟩
    simp [adjustDelta, hw]
  case pos =>
    have hw' : h.has (htlcFlag side htlcFWasCommitted) = true := hw
    by_cases hc : h.state.committed side = true
    case pos =>
      -- still committed: only the addition counts
      have hc' : h.has (htlcFlag side htlcFCommitted) = true := hc
      refine ⟨c.setView side ((c.view side).addBoth (balanceAddingHtlc h)), by simp [hw', hc'],
        rfl, rfl, fun s x => ?_⟩
      by_cases hs : s = side
      · subst hs
        simp [adjustDelta, hw, hc]
      · simp [hs]
    case neg =>
      -- removed: the addition and the removal count
      have hc' : h.has (htlcFlag side htlcFCommitted) = false := by
        simpa [HtlcState.committed, Htlc.has] using hc
      have hsettled := hout hw (by simpa using hc)
      refine ⟨c.setView side (((c.view side).addBoth (balanceAddingHtlc h)).addBoth
        (balanceRemovingHtlc h)), ?_, rfl, rfl, fun s x => ?_⟩
      · simp only [hw', hc', Bool.not_true, Bool.false_eq_true, if_false, Option.isNone_iff_eq_none]
        rw [if_neg hsettled]
      by_cases hs : s = side
      · subst hs
        simp [adjustDelta, hw, hc, add_assoc]
      · simp [hs]

/-- `adjust_balance` adds to both views what it computes for each, unless the HTLC has left
a commitment without being settled. -/
theorem adjustBalance_eq (c : Channel) (h : Htlc)
    (hout : ∀ side, h.state.wasCommitted side = true → h.state.committed side = false →
      ¬(h.fail = none ∧ h.failcode = 0 ∧ h.r = none)) :
    ∃ c', adjustBalance c h = (true, c') ∧ c'.htlcs = c.htlcs ∧ c'.params = c.params ∧
      ∀ s x, (c'.view s).owedMsat x = (c.view s).owedMsat x + adjustDelta s h x := by
  obtain ⟨c₁, h₁, hh₁, hp₁, hv₁⟩ := adjustSide_eq c h .local (hout .local)
  obtain ⟨c₂, h₂, hh₂, hp₂, hv₂⟩ := adjustSide_eq c₁ h .remote (hout .remote)
  refine ⟨c₂, by simp [adjustBalance, h₁, h₂], hh₂.trans hh₁, hp₂.trans hp₁, fun s x => ?_⟩
  rw [hv₂, hv₁]
  cases s <;> simp

/-- The last loop adds to each balance what `adjust_balance` computes for every record:
each is found under its key, and none has left a commitment without being settled. -/
theorem forceAdjust_records {c : Channel} (all rest : List LdHtlc)
    (hhtlcs : c.htlcs = all.map LdHtlc.restored) (hkeys : (all.map LdHtlc.restored).Pairwise KeyNe)
    (hmem : ∀ l ∈ rest, l ∈ all)
    (hout : ∀ l ∈ rest, ∀ side, l.hstate.wasCommitted side = true →
      l.hstate.committed side = false → (l.failuremsg.isSome ∨ l.failcode ≠ 0) ∨
        l.preimage.isSome = true) :
    ∃ c', forceAdjust c (rest.map fun l =>
        ((⟨l.id, l.msatoshi, l.paymentHash, l.cltvExpiry⟩ : AddedHtlc), l.hstate)) =
      some (true, c') ∧ ∀ s x, (c'.view s).owedMsat x =
        (c.view s).owedMsat x + (rest.map fun l => adjustDelta s l.restored x).sum := by
  induction rest generalizing c with
  | nil => exact ⟨c, rfl, fun s x => by simp⟩
  | cons l rest ih =>
    have hget : htlcGet c.htlcs l.id l.hstate.owner = some l.restored := by
      rw [hhtlcs]
      refine FirstMatch.find?_eq_some_of_pairwise (hkeys.imp fun {a b} hne hab => ?_)
        (List.mem_map_of_mem (hmem l List.mem_cons_self)) (Htlc.isKey_self l.restored)
      simp only [Htlc.isKey, Htlc.has, HtlcState.has_owner_flag, Bool.and_eq_true, beq_iff_eq,
        decide_eq_true_eq] at hab
      exact hne ⟨hab.1.1.trans hab.2.1.symm, hab.1.2.trans hab.2.2.symm⟩
    have hsettled : ∀ side, l.restored.state.wasCommitted side = true →
        l.restored.state.committed side = false →
        ¬(l.restored.fail = none ∧ l.restored.failcode = 0 ∧ l.restored.r = none) := by
      intro side hw hc hnone
      rcases hout l List.mem_cons_self side hw hc with hf | hp
      · simp_all [LdHtlc.restored, LdHtlc.fulfilled, LdHtlc.added, newHtlc]
      · simp_all [LdHtlc.restored, LdHtlc.fulfilled, LdHtlc.added, newHtlc]
    obtain ⟨c₁, h₁, hh₁, -, hv₁⟩ := adjustBalance_eq c l.restored hsettled
    obtain ⟨c', hc', hv'⟩ := ih (c := c₁) (hh₁.trans hhtlcs)
      (fun l' hl' => hmem l' (List.mem_cons_of_mem l hl'))
      (fun l' hl' => hout l' (List.mem_cons_of_mem l hl'))
    refine ⟨c', ?_, fun s x => ?_⟩
    · simp only [List.map_cons, forceAdjust, hget, h₁]
      exact hc'
    · rw [hv', hv₁, List.map_cons, List.sum_cons, add_assoc]

/-! ## `peer_htlcs` and the whole call -/

theorem peerHtlcs_htlcs_zip (hs : List LdHtlc) :
    (peerHtlcs hs).htlcs.zip (peerHtlcs hs).hstates = hs.map fun l =>
      ((⟨l.id, l.msatoshi, l.paymentHash, l.cltvExpiry⟩ : AddedHtlc), l.hstate) := by
  induction hs with
  | nil => rfl
  | cons l hs ih => simp_all [peerHtlcs]

theorem peerHtlcs_fulfilled_zip (hs : List LdHtlc) :
    (peerHtlcs hs).fulfilled.zip (peerHtlcs hs).fulfilledSides =
      hs.filterMap fun l => l.preimage.map fun p => ((⟨l.id, p⟩ : FulfilledHtlc), l.owner) := by
  induction hs with
  | nil => rfl
  | cons l hs ih =>
    rcases hp : l.preimage with _ | p <;> simp_all [peerHtlcs, List.filterMap_cons]

theorem peerHtlcs_failed_zip (hs : List LdHtlc) :
    (peerHtlcs hs).failed.zip (peerHtlcs hs).failedSides =
      hs.filterMap fun l => if l.failuremsg.isSome ∨ l.failcode ≠ 0 then
        some ((⟨l.id, l.failcode, l.failuremsg⟩ : FailedHtlc), l.owner) else none := by
  induction hs with
  | nil => rfl
  | cons l hs ih =>
    by_cases hf : l.failuremsg.isSome ∨ l.failcode ≠ 0 <;> simp_all [peerHtlcs, List.filterMap_cons]

/-- `peer_htlcs` gives every array its partner's length. -/
theorem peerHtlcs_lengths (hs : List LdHtlc) :
    (peerHtlcs hs).hstates.length = (peerHtlcs hs).htlcs.length ∧
      (peerHtlcs hs).fulfilled.length = (peerHtlcs hs).fulfilledSides.length ∧
      (peerHtlcs hs).failed.length = (peerHtlcs hs).failedSides.length := by
  induction hs with
  | nil => exact ⟨rfl, rfl, rfl⟩
  | cons l hs ih =>
    refine ⟨by simp [peerHtlcs], ?_, ?_⟩
    · rcases hp : l.preimage with _ | p <;> simp_all [peerHtlcs, List.filterMap_cons]
    · by_cases hf : l.failuremsg.isSome ∨ l.failcode ≠ 0 <;>
        simp_all [peerHtlcs, List.filterMap_cons]

/-- `channel_force_htlcs` on a channel just opened with `o` rebuilds the records that pass the
checks of `add_htlc` and are settled as their state says, and ends with the opening balances
plus what `adjust_balance` computes for each record. -/
theorem channelForceHtlcs_records (o : Opening) {c : Channel} (kept : List LdHtlc)
    (hparams : c.params = o.params) (hview : ∀ s x, (c.view s).owedMsat x = o.owed x)
    (hhtlcs : c.htlcs = []) (hkeys : (kept.map LdHtlc.added).Pairwise KeyNe)
    (hvalid : ∀ l ∈ kept, HtlcValid o l.added)
    (hcomm : ∀ y, committedInt (kept.map LdHtlc.added) y ≤ o.params.fundingMsat.toNat)
    (howner : ∀ l ∈ kept, l.owner = l.hstate.owner)
    (hremoving : ∀ l ∈ kept, l.preimage.isSome → l.hstate.has htlcRemoving)
    (hfailed : ∀ l ∈ kept, (l.failuremsg.isSome ∨ l.failcode ≠ 0) →
      l.preimage = none ∧ l.hstate.has htlcRemoving)
    (hout : ∀ l ∈ kept, ∀ side, l.hstate.wasCommitted side = true →
      l.hstate.committed side = false → (l.failuremsg.isSome ∨ l.failcode ≠ 0) ∨
        l.preimage.isSome = true) :
    ∃ c', channelForceHtlcs c (peerHtlcs kept) = some (true, c') ∧
      ∀ s x, (c'.view s).owedMsat x =
        o.owed x + (kept.map fun l => adjustDelta s l.restored x).sum := by
  obtain ⟨hlen₁, hlen₂, hlen₃⟩ := peerHtlcs_lengths kept
  obtain ⟨c₁, h₁, -, hv₁, hh₁⟩ := forceAdd_records o [] kept hparams hview (by simp [hhtlcs])
    hkeys hvalid hcomm
  obtain ⟨c₂, h₂, -, hv₂, hh₂⟩ := forceFulfill_records (c := c₁) [] kept (by simpa using hh₁)
    hkeys howner hremoving
  obtain ⟨c₃, h₃, -, hv₃, hh₃⟩ := forceFail_records (c := c₂) [] kept (by simpa using hh₂)
    hkeys howner hfailed
  have hkeys' : (kept.map LdHtlc.restored).Pairwise KeyNe := by
    rw [List.pairwise_map] at hkeys ⊢
    exact hkeys.imp fun hne => by simpa [KeyNe] using hne
  obtain ⟨c₄, h₄, hv₄⟩ := forceAdjust_records (c := c₃) kept kept (by simpa using hh₃) hkeys'
    (fun _ hl => hl) hout
  refine ⟨c₄, ?_, fun s x => by rw [hv₄, hv₃, hv₂, hv₁, hview]⟩
  simp only [channelForceHtlcs, hlen₁, hlen₂, hlen₃, ne_eq, not_true_eq_false, if_false,
    peerHtlcs_htlcs_zip, peerHtlcs_fulfilled_zip, peerHtlcs_failed_zip, h₁, h₂, h₃, h₄]

end Dexfin.Lightning
