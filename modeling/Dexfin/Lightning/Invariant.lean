import Dexfin.Lib.Word
import Dexfin.Lightning.Accounting
import Dexfin.Lightning.Calls
import Mathlib.Algebra.Order.BigOperators.Group.List
import Mathlib.Tactic.LinearCombination
import Mathlib.Tactic.Linarith
import Mathlib.Tactic.Ring

/-!
# What a live channel keeps

A channel opened within its bounds keeps, through every call that succeeds, the facts that a
restart relies on: the balances of each view are the opening balances plus what
`adjust_balance` computes for each HTLC, no two HTLCs share a key, every HTLC still passes the
checks `add_htlc` made, and the balance of each side at each cut of `Accounting` is
nonnegative. The last is what the reserve check of `add_htlc` buys: it reads the first cut,
and each commitment call re-establishes a later cut from an earlier one.

Over the integers the balances of a view and its commitment add up to the funding, so no
balance and no commitment exceeds the funding, which keeps every signed comparison of the
code a comparison of the integers it stands for.
-/

namespace Dexfin.Lightning

/-- What a channel is opened with: its parameters and our balance, within the bounds under
which the signed arithmetic of `add_htlc` does not wrap. -/
structure Opening where
  /-- The parameters of the channel. -/
  params : ChannelParams
  /-- `local_msatoshi`. -/
  localMsat : BitVec 64
  /-- `new_initial_channel` refuses more than the funding. -/
  local_le : localMsat ≤ params.fundingMsat
  /-- The funding is small enough that twice it is a positive `s64`. -/
  funding_lt : params.fundingMsat.toNat < 2 ^ 62
  /-- So is the largest payment. -/
  payment_lt : params.maxPaymentMsat.toNat < 2 ^ 62
  /-- Each reserve is a nonnegative `s64`. -/
  reserve_lt : ∀ s, ((params.config s).channelReserveSatoshis * 1000).toNat < 2 ^ 63

namespace Opening

variable (o : Opening)

/-- The opening balances over the integers. -/
def init : Side → ℤ
  | .local => o.localMsat.toNat
  | .remote => o.params.fundingMsat.toNat - o.localMsat.toNat

/-- The opening balances as `new_initial_channel` writes them. -/
def owed : Side → BitVec 64
  | .local => o.localMsat
  | .remote => o.params.fundingMsat - o.localMsat

theorem ofInt_init (x : Side) : BitVec.ofInt 64 (o.init x) = o.owed x := by
  cases x
  · simp [init, owed]
  · simp [init, owed, sub_eq_add_neg, BitVec.ofInt_add, BitVec.ofInt_neg]

theorem local_le_toNat : o.localMsat.toNat ≤ o.params.fundingMsat.toNat := o.local_le

theorem init_nonneg (x : Side) : 0 ≤ o.init x := by
  have hle := o.local_le_toNat
  cases x <;> simp only [init] <;> omega

theorem init_le (x : Side) : o.init x ≤ o.params.fundingMsat.toNat := by
  have hle := o.local_le_toNat
  cases x <;> simp only [init] <;> omega

theorem init_local_add_remote : o.init .local + o.init .remote = o.params.fundingMsat.toNat := by
  simp [init]

end Opening

theorem Htlc.amount_nonneg (h : Htlc) : 0 ≤ h.amount := Int.natCast_nonneg _

/-! ## Balances over the integers -/

/-- The balance of `x` in the view of `s`, over the integers. -/
def balanceInt (o : Opening) (htlcs : List Htlc) (s x : Side) : ℤ :=
  o.init x + (htlcs.map fun h => adjustCoeff s x h.state h.r.isSome * h.amount).sum

/-- The balance of `x` at cut `t`. -/
def cutBalance (o : Opening) (htlcs : List Htlc) (t : Cut) (x : Side) : ℤ :=
  o.init x + (htlcs.map fun h => potCoeff t x h.state h.r.isSome * h.amount).sum

/-- What the commitment of `s` holds, over the integers. -/
def committedInt (htlcs : List Htlc) (s : Side) : ℤ :=
  (htlcs.map fun h => if h.state.committed s then h.amount else 0).sum

theorem committedInt_nonneg (htlcs : List Htlc) (s : Side) : 0 ≤ committedInt htlcs s :=
  List.sum_nonneg fun a ha => by
    obtain ⟨h, -, rfl⟩ := List.mem_map.1 ha
    split
    · exact h.amount_nonneg
    · exact le_rfl

theorem committedInt_append (hs hs' : List Htlc) (s : Side) :
    committedInt (hs ++ hs') s = committedInt hs s + committedInt hs' s := by
  simp [committedInt]

theorem ofInt_balanceInt (o : Opening) (htlcs : List Htlc) (s x : Side) :
    BitVec.ofInt 64 (balanceInt o htlcs s x) = o.owed x + (htlcs.map fun h => adjustDelta s h x).sum := by
  simp only [balanceInt, BitVec.ofInt_add, o.ofInt_init, Word.ofInt_list_sum, List.map_map]
  congr 2
  exact List.map_congr_left fun h _ => (adjustDelta_eq s h x).symm

theorem balanceInt_eq_cutBalance (o : Opening) (htlcs : List Htlc) (s x : Side) :
    balanceInt o htlcs s x = cutBalance o htlcs (commitCut s x) x := by
  simp only [balanceInt, cutBalance, adjustCoeff_eq_potCoeff]

/-- Each view and its commitment hold the funding, over the integers. -/
theorem balanceInt_total (o : Opening) (htlcs : List Htlc) (s : Side) :
    balanceInt o htlcs s .local + balanceInt o htlcs s .remote + committedInt htlcs s =
      o.params.fundingMsat.toNat := by
  have hzero : ∀ h ∈ htlcs, adjustCoeff s .local h.state h.r.isSome * h.amount +
      adjustCoeff s .remote h.state h.r.isSome * h.amount +
      (if h.state.committed s then h.amount else 0) = 0 := by
    intro h _
    rw [← add_mul, adjustCoeff_total]
    split <;> simp
  have hsum : (htlcs.map fun h => adjustCoeff s .local h.state h.r.isSome * h.amount).sum +
      (htlcs.map fun h => adjustCoeff s .remote h.state h.r.isSome * h.amount).sum +
      committedInt htlcs s = 0 := by
    rw [committedInt, ← List.sum_map_add, ← List.sum_map_add]
    exact List.sum_eq_zero (by simpa using hzero)
  have hinit := o.init_local_add_remote
  simp only [balanceInt]
  linear_combination hsum + hinit

/-- A termwise comparison of the coefficients compares the cuts. -/
theorem cutBalance_le_of (o : Opening) {htlcs : List Htlc} {g : Htlc → Htlc} {t t' : Cut}
    {x : Side} (hamount : ∀ h, (g h).amount = h.amount)
    (hle : ∀ h ∈ htlcs, potCoeff t x h.state h.r.isSome ≤ potCoeff t' x (g h).state (g h).r.isSome) :
    cutBalance o htlcs t x ≤ cutBalance o (htlcs.map g) t' x := by
  simp only [cutBalance, List.map_map]
  refine Int.add_le_add_left (List.sum_le_sum fun h hh => ?_) _
  simp only [Function.comp, hamount]
  exact mul_le_mul_of_nonneg_right (hle h hh) h.amount_nonneg

/-! ## The invariant -/

/-- What `add_htlc` checked of an HTLC and no call changes since, and what the removal calls
keep: a live channel records no failure, and a preimage only once the removal has started. -/
structure HtlcValid (o : Opening) (h : Htlc) : Prop where
  /-- The expiry is a block height. -/
  expiry : h.expiry < 500000000
  /-- The amount is not zero. -/
  pos : h.msatoshi ≠ 0
  /-- The amount reaches the recipient's minimum. -/
  aboveMin : (o.params.config h.owner.other).htlcMinimumMsat ≤ h.msatoshi
  /-- The amount is within the chain's limit. -/
  belowMax : h.msatoshi ≤ o.params.maxPaymentMsat
  /-- No failure message. -/
  fail : h.fail = none
  /-- No failure code. -/
  failcode : h.failcode = 0
  /-- A preimage is only known once the removal has started. -/
  removing : h.r.isSome = true → 5 ≤ h.state.phase

/-- Two HTLCs with different keys: `htlc_get` tells them apart. -/
def KeyNe (a b : Htlc) : Prop := ¬(a.id = b.id ∧ a.owner = b.owner)

theorem isKey_eq_false_of_keyNe {a b : Htlc} (h : KeyNe a b) : a.isKey b.id b.owner = false := by
  simpa [KeyNe, Htlc.isKey, Htlc.has, HtlcState.has_owner_flag, Htlc.owner] using h

/-- The invariant of a channel opened with `o`. -/
structure ChannelInv (o : Opening) (c : Channel) : Prop where
  /-- No call changes the parameters. -/
  params : c.params = o.params
  /-- Each balance is the opening balance plus what `adjust_balance` computes. -/
  owed : ∀ s x, (c.view s).owedMsat x = o.owed x + (c.htlcs.map fun h => adjustDelta s h x).sum
  /-- No two HTLCs share a key. -/
  keys : c.htlcs.Pairwise KeyNe
  /-- Every HTLC passed the checks of `add_htlc`. -/
  valid : ∀ h ∈ c.htlcs, HtlcValid o h
  /-- No balance at any cut is negative. -/
  cut_nonneg : ∀ t ∈ cutChain, ∀ x, 0 ≤ cutBalance o c.htlcs t x

namespace ChannelInv

variable {o : Opening} {c : Channel}

theorem balanceInt_nonneg (hinv : ChannelInv o c) (s x : Side) : 0 ≤ balanceInt o c.htlcs s x := by
  rw [balanceInt_eq_cutBalance]
  exact hinv.cut_nonneg _ (commitCut_mem s x) x

/-- No commitment holds more than the funding. -/
theorem committedInt_le (hinv : ChannelInv o c) (s : Side) :
    committedInt c.htlcs s ≤ o.params.fundingMsat.toNat := by
  have htotal := balanceInt_total o c.htlcs s
  have hl := hinv.balanceInt_nonneg s .local
  have hr := hinv.balanceInt_nonneg s .remote
  omega

/-- The cut the add check reads exceeds no funding: what it counts beyond the other side's
view is held by that view's commitment. -/
theorem cutBalance_add_le (hinv : ChannelInv o c) (x : Side) :
    cutBalance o c.htlcs cutAdd x ≤ o.params.fundingMsat.toNat := by
  have hle : cutBalance o c.htlcs cutAdd x ≤
      balanceInt o c.htlcs x.other x + committedInt c.htlcs x.other := by
    have hterm : ∀ h ∈ c.htlcs, potCoeff cutAdd x h.state h.r.isSome * h.amount ≤
        adjustCoeff x.other x h.state h.r.isSome * h.amount +
          (if h.state.committed x.other then h.amount else 0) := by
      intro h _
      have hc := potCoeff_add_le x h.state h.r.isSome
      have hcut : commitCut x.other x = cutOther := by cases x <;> rfl
      rw [adjustCoeff_eq_potCoeff, hcut]
      split
      · rename_i hcomm
        simp only [hcomm, if_true] at hc
        nlinarith [h.amount_nonneg]
      · rename_i hcomm
        simp only [hcomm, Bool.false_eq_true, if_false, add_zero] at hc
        simpa using mul_le_mul_of_nonneg_right hc h.amount_nonneg
    simp only [cutBalance, balanceInt, committedInt, add_assoc, ← List.sum_map_add]
    exact Int.add_le_add_left (List.sum_le_sum hterm) _
  have htotal := balanceInt_total o c.htlcs x.other
  have hown := hinv.balanceInt_nonneg x.other x.other
  cases x <;> simp only [Side.other] at * <;> omega

theorem setPending (hinv : ChannelInv o c) (s : Side) (b : Bool) :
    ChannelInv o (c.setPending s b) :=
  ⟨hinv.params, hinv.owed, hinv.keys, hinv.valid, hinv.cut_nonneg⟩

end ChannelInv

theorem cutBalance_mono (o : Opening) {htlcs : List Htlc} {t t' : Cut} {x : Side}
    (hle : ∀ h ∈ htlcs, potCoeff t x h.state h.r.isSome ≤ potCoeff t' x h.state h.r.isSome) :
    cutBalance o htlcs t x ≤ cutBalance o htlcs t' x := by
  simpa using cutBalance_le_of o (g := id) (fun _ => rfl) hle

/-! ## The commitment calls -/

/-- One HTLC of a pass moves each balance of each view by the change of what
`adjust_balance` computes for it. -/
theorem passView_owed {s : Side} {states : List HtlcState} (hp : passable s states = true)
    (view : Side → ChannelView) (h : Htlc) (s' x : Side) :
    (passView s states view h s').owedMsat x + adjustDelta s' h x =
      (view s').owedMsat x + adjustDelta s' (h.advance states) x := by
  by_cases hst : h.state ∈ states
  case neg =>
    simp [passView, hst, Htlc.advance, HtlcState.advance_of_not_mem hst]
  case pos =>
    obtain ⟨n, hn, -, hflags⟩ := passable_spec hp hst
    have hadv : h.advance states = { h with state := n } := by
      simp [Htlc.advance, HtlcState.advance_of_mem hst hn]
    by_cases hs' : s' = s
    case pos =>
      subst hs'
      simp only [passView, hst, if_true, Function.update_self, hadv, incstateView_owed hflags]
      abel
    case neg =>
      -- the other view is not touched, and `adjust_balance` does not see the step there
      have hother : s' = s.other := by cases s <;> cases s' <;> simp_all [Side.other]
      subst hother
      simp [passView, hst, hadv, adjustDelta_other hflags]

/-- A whole pass moves each balance by the change of what `adjust_balance` computes. -/
theorem foldl_passView_owed {s : Side} {states : List HtlcState} (hp : passable s states = true)
    (view : Side → ChannelView) (hs : List Htlc) (s' x : Side) :
    (hs.foldl (passView s states) view s').owedMsat x + (hs.map fun h => adjustDelta s' h x).sum =
      (view s').owedMsat x +
        ((hs.map (Htlc.advance states)).map fun h => adjustDelta s' h x).sum := by
  induction hs generalizing view with
  | nil => simp
  | cons h hs ih =>
    have hstep := passView_owed hp view h s' x
    have hrest := ih (passView s states view h)
    simp only [List.foldl_cons, List.map_cons, List.sum_cons]
    linear_combination hrest + hstep

theorem Htlc.advance_owner {s : Side} {states : List HtlcState} (hp : passable s states = true)
    (h : Htlc) : (h.advance states).owner = h.owner := by
  by_cases hst : h.state ∈ states
  · obtain ⟨n, hn, -, hflags⟩ := passable_spec hp hst
    have hadv : h.advance states = { h with state := n } := by
      simp [Htlc.advance, HtlcState.advance_of_mem hst hn]
    rw [hadv]
    exact stepFlags_owner hflags
  · simp [Htlc.advance, HtlcState.advance_of_not_mem hst]

theorem HtlcValid.advance {o : Opening} {s : Side} {states : List HtlcState}
    {setCut : Side → Cut} (hp : passable s states = true) (hk : PassKeeps states setCut)
    {h : Htlc} (hv : HtlcValid o h) : HtlcValid o (h.advance states) where
  expiry := hv.expiry
  pos := hv.pos
  aboveMin := by
    rw [Htlc.advance_owner hp]
    exact hv.aboveMin
  belowMax := hv.belowMax
  fail := hv.fail
  failcode := hv.failcode
  removing hr := (hv.removing hr).trans (hk.phase_le h.state)

/-- A pass keeps every cut nonnegative: it raises the cuts it does not re-establish, and the
one it re-establishes ends at least at a cut it raised. -/
theorem cutBalance_pass (o : Opening) {states : List HtlcState} {setCut : Side → Cut}
    (hk : PassKeeps states setCut) {hs : List Htlc}
    (hnn : ∀ t ∈ cutChain, ∀ x, 0 ≤ cutBalance o hs t x) :
    ∀ t ∈ cutChain, ∀ x, 0 ≤ cutBalance o (hs.map (Htlc.advance states)) t x := by
  intro t ht x
  have hrise : ∀ t' ∈ cutChain, t' ≠ setCut x →
      cutBalance o hs t' x ≤ cutBalance o (hs.map (Htlc.advance states)) t' x :=
    fun t' ht' hne => cutBalance_le_of o (fun _ => rfl) fun h _ => hk.rise x h.state _ t' ht' hne
  by_cases hset : t = setCut x
  case neg => exact (hnn t ht x).trans (hrise t ht hset)
  case pos =>
    subst hset
    have hreset : cutBalance o (hs.map (Htlc.advance states)) (setCut x).prev x ≤
        cutBalance o (hs.map (Htlc.advance states)) (setCut x) x := by
      refine cutBalance_mono o fun h' hh' => ?_
      obtain ⟨h, -, rfl⟩ := List.mem_map.1 hh'
      exact hk.reset x h.state _
    calc 0 ≤ cutBalance o hs (setCut x).prev x := hnn _ (hk.prev_mem x) x
      _ ≤ cutBalance o (hs.map (Htlc.advance states)) (setCut x).prev x :=
        hrise _ (hk.prev_mem x) (hk.prev_ne x)
      _ ≤ _ := hreset

/-- A commitment call keeps the invariant. -/
theorem ChannelInv.pass {o : Opening} {c c' : Channel} {s : Side} {states : List HtlcState}
    {setCut : Side → Cut} (hinv : ChannelInv o c) (hp : passable s states = true)
    (hk : PassKeeps states setCut) (hhtlcs : c'.htlcs = c.htlcs.map (Htlc.advance states))
    (hview : ∀ s' x, (c'.view s').owedMsat x =
      (c.htlcs.foldl (passView s states) c.view s').owedMsat x)
    (hparams : c'.params = c.params) : ChannelInv o c' where
  params := hparams.trans hinv.params
  owed s' x := by
    have hpass := foldl_passView_owed hp c.view c.htlcs s' x
    rw [hinv.owed] at hpass
    rw [hview, hhtlcs]
    linear_combination hpass
  keys := by
    rw [hhtlcs, List.pairwise_map]
    exact hinv.keys.imp fun hne => by simpa [KeyNe, Htlc.advance_owner hp] using hne
  valid h hh := by
    rw [hhtlcs] at hh
    obtain ⟨h₀, hh₀, rfl⟩ := List.mem_map.1 hh
    exact (hinv.valid h₀ hh₀).advance hp hk
  cut_nonneg := by
    rw [hhtlcs]
    exact cutBalance_pass o hk hinv.cut_nonneg

/-! ## Fulfilling and failing -/

/-- A removal starts from a state committed on both sides and keeps what `adjust_balance`
computes, whatever the preimage. -/
theorem RemovalStart.adjustCoeff {h : Htlc} {next : HtlcState} (hr : RemovalStart h next)
    (s x : Side) (f f' : Bool) : adjustCoeff s x next f = adjustCoeff s x h.state f' := by
  rcases hr with ⟨hst, rfl⟩ | ⟨hst, rfl⟩ <;> rw [hst] <;> revert s x f f' <;> decide

theorem RemovalStart.owner {h : Htlc} {next : HtlcState} (hr : RemovalStart h next) :
    next.owner = h.state.owner := by
  rcases hr with ⟨hst, rfl⟩ | ⟨hst, rfl⟩ <;> rw [hst] <;> rfl

theorem RemovalStart.phase {h : Htlc} {next : HtlcState} (hr : RemovalStart h next) :
    h.state.phase = 4 ∧ next.phase = 5 := by
  rcases hr with ⟨hst, rfl⟩ | ⟨hst, rfl⟩ <;> rw [hst] <;> decide

theorem RemovalStart.potCoeff_le {h : Htlc} {next : HtlcState} (hr : RemovalStart h next)
    (f : Bool) : ∀ t ∈ cutChain, ∀ x, potCoeff t x h.state false ≤ potCoeff t x next f := by
  intro t ht x
  rcases hr with ⟨hst, rfl⟩ | ⟨hst, rfl⟩ <;> rw [hst]
  · exact (removalStart_keeps x f t ht).1
  · exact (removalStart_keeps x f t ht).2

/-- Writing back an HTLC under its own key, with the same amount and balances and no lower
cut, keeps the invariant. -/
theorem ChannelInv.writeBack {o : Opening} {c : Channel} {id : BitVec 64} {owner : Side}
    {old new : Htlc} (hinv : ChannelInv o c) (hget : htlcGet c.htlcs id owner = some old)
    (hid : new.id = old.id) (howner : new.owner = old.owner) (hamount : new.amount = old.amount)
    (hdelta : ∀ s x, adjustDelta s new x = adjustDelta s old x) (hvalid : HtlcValid o new)
    (hcoeff : ∀ t ∈ cutChain, ∀ x,
      potCoeff t x old.state old.r.isSome ≤ potCoeff t x new.state new.r.isSome) :
    ChannelInv o { c with htlcs := htlcSet id owner new c.htlcs } where
  params := hinv.params
  owed s x := by
    have hsum : ((htlcSet id owner new c.htlcs).map fun h => adjustDelta s h x).sum +
        adjustDelta s old x = (c.htlcs.map fun h => adjustDelta s h x).sum + adjustDelta s new x :=
      FirstMatch.sum_map_setFirst _ hget
    rw [hdelta] at hsum
    show (c.view s).owedMsat x = o.owed x + ((htlcSet id owner new c.htlcs).map _).sum
    rw [add_right_cancel hsum]
    exact hinv.owed s x
  keys := by
    have hiff : ∀ h, KeyNe h new ↔ KeyNe h old := fun h => by simp only [KeyNe, hid, howner]
    have hiff' : ∀ h, KeyNe new h ↔ KeyNe old h := fun h => by simp only [KeyNe, hid, howner]
    exact FirstMatch.pairwise_setFirst hget hiff hiff' hinv.keys
  valid h hh := by
    rcases FirstMatch.mem_setFirst hh with hh | rfl
    · exact hinv.valid h hh
    · exact hvalid
  cut_nonneg t ht x := by
    have hsum : ((htlcSet id owner new c.htlcs).map
        fun h => potCoeff t x h.state h.r.isSome * h.amount).sum +
          potCoeff t x old.state old.r.isSome * old.amount =
        (c.htlcs.map fun h => potCoeff t x h.state h.r.isSome * h.amount).sum +
          potCoeff t x new.state new.r.isSome * new.amount :=
      FirstMatch.sum_map_setFirst _ hget
    have hle : potCoeff t x old.state old.r.isSome * old.amount ≤
        potCoeff t x new.state new.r.isSome * new.amount := by
      rw [hamount]
      exact mul_le_mul_of_nonneg_right (hcoeff t ht x) old.amount_nonneg
    have hnn := hinv.cut_nonneg t ht x
    simp only [cutBalance] at hnn ⊢
    linarith

/-- Starting the removal of an irrevocably committed HTLC, with or without a preimage, keeps
the invariant. -/
theorem ChannelInv.removalStart {o : Opening} {c : Channel} {id : BitVec 64} {owner : Side}
    {old : Htlc} {next : HtlcState} (hinv : ChannelInv o c)
    (hget : htlcGet c.htlcs id owner = some old) (hstart : RemovalStart old next)
    (r : Option Preimage) :
    ChannelInv o { c with htlcs := htlcSet id owner { old with r, state := next } c.htlcs } := by
  have hold := hinv.valid old (htlcGet_spec hget).1
  have hphase := hstart.phase
  have hr : old.r.isSome = false := by
    rcases Bool.eq_false_or_eq_true old.r.isSome with hsome | hnone
    · have := hold.removing hsome
      omega
    · exact hnone
  refine hinv.writeBack hget rfl hstart.owner rfl (fun s x => ?_) ?_ ?_
  · rw [adjustDelta_eq, adjustDelta_eq, hstart.adjustCoeff s x _ old.r.isSome]
    rfl
  · exact ⟨hold.expiry, hold.pos, by simpa [Htlc.owner, hstart.owner] using hold.aboveMin,
      hold.belowMax, hold.fail, hold.failcode, fun _ => hphase.2.ge⟩
  · intro t ht x
    rw [hr]
    exact hstart.potCoeff_le _ t ht x

/-! ## Adding -/

/-- A sum over what a filter keeps is a sum over all of the list. -/
theorem sum_map_filter_eq {α G : Type*} [AddCommMonoid G] (p : α → Bool) (f : α → G)
    (l : List α) :
    ((l.filter p).map f).sum = (l.map fun a => if p a = true then f a else 0).sum := by
  induction l with
  | nil => rfl
  | cons a l ih => by_cases h : p a <;> simp [h, ih]

theorem addState_owner (sender : Side) :
    (if sender = .local then HtlcState.sentAddHtlc else .rcvdAddHtlc).owner = sender := by
  cases sender <;> rfl

/-- A new HTLC counts only at the cut of the add check, and only against its sender. -/
theorem cutBalance_append_added (o : Opening) (hs : List Htlc) {new : Htlc} {sender : Side}
    (hstate : new.state = if sender = .local then .sentAddHtlc else .rcvdAddHtlc)
    (hr : new.r = none) {t : Cut} (ht : t ∈ cutChain) (x : Side) :
    cutBalance o (hs ++ [new]) t x =
      cutBalance o hs t x - if t = cutAdd ∧ x = sender then new.amount else 0 := by
  simp only [cutBalance, List.map_append, List.map_cons, List.map_nil, List.sum_append,
    List.sum_cons, List.sum_nil, add_zero, hstate, hr, Option.isSome_none,
    potCoeff_added sender x t ht]
  split <;> ring

/-- What `add_htlc` sums for one HTLC already there: its balance in the recipient's view,
what it pays the sender if the recipient is removing it, and what it takes from the sender
if the recipient is adding it. Together this is its coefficient at the cut `cutAdd`. -/
theorem addCheckDelta_eq (h : Htlc) (x : Side) :
    adjustDelta x.other h x +
      (if (h.has (htlcFlag x.other htlcFPending) && h.has (htlcFlag x.other htlcFCommitted)) = true
        then balanceRemovingHtlc h x else 0) +
      (if (!h.has (htlcFlag x.other htlcFCommitted) && h.has (htlcFlag x.other htlcFPending)) = true
        then balanceAddingHtlc h x else 0) =
    BitVec.ofInt 64 (potCoeff cutAdd x h.state h.r.isSome * h.amount) := by
  rw [← addCheckCoeff_eq, adjustDelta_eq, balanceRemovingHtlc_eq, balanceAddingHtlc_eq]
  unfold addCheckCoeff
  simp only [Htlc.has, HtlcState.committed]
  rcases Bool.eq_false_or_eq_true (h.state.has (htlcFlag x.other htlcFCommitted)) with hc | hc <;>
    rcases Bool.eq_false_or_eq_true (h.state.has (htlcFlag x.other htlcFPending)) with hp | hp <;>
    simp [hc, hp, add_mul, BitVec.ofInt_add]

/-- The fee `add_htlc` holds is a word divided by 1000. -/
theorem addHtlcFee_toNat_lt (c : Channel) (htlc : Htlc) (committed removing adding : List Htlc) :
    (addHtlcFee c htlc committed removing adding).toNat < 2 ^ 55 := by
  unfold addHtlcFee commitTxBaseFee
  split
  · have hlt := BitVec.isLt ((c.view htlc.owner.other).feeratePerKw.setWidth 64 *
      (724 + 172 * (commitTxNumUntrimmed committed (c.view htlc.owner.other).feeratePerKw
        (c.config htlc.owner.other).dustLimitSatoshis htlc.owner.other +
        commitTxNumUntrimmed adding (c.view htlc.owner.other).feeratePerKw
          (c.config htlc.owner.other).dustLimitSatoshis htlc.owner.other -
        commitTxNumUntrimmed removing (c.view htlc.owner.other).feeratePerKw
          (c.config htlc.owner.other).dustLimitSatoshis htlc.owner.other)))
    have h1000 : (1000 : BitVec 64).toNat = 1000 := rfl
    rw [BitVec.toNat_udiv, h1000]
    omega
  · simp

namespace ChannelInv

variable {o : Opening} {c : Channel}

/-- The sender's balance that `add_htlc` checks is the cut `cutAdd` with the new HTLC. -/
theorem addBalance_eq (hinv : ChannelInv o c) {new : Htlc} (sender : Side)
    (hstate : new.state = if sender = .local then .sentAddHtlc else .rcvdAddHtlc)
    (hr : new.r = none) :
    addBalance c new = BitVec.ofInt 64 (cutBalance o (c.htlcs ++ [new]) cutAdd sender) := by
  have howner : new.owner = sender := by rw [Htlc.owner, hstate, addState_owner]
  have hnew : potCoeff cutAdd sender new.state new.r.isSome = -1 := by
    rw [hstate, hr]
    simpa using potCoeff_added sender sender cutAdd (by decide)
  simp only [addBalance, gatherHtlcs, howner, Word.foldl_add, List.map_append, List.sum_append,
    List.filter_filter, sum_map_filter_eq]
  simp only [cutBalance, List.map_append, List.sum_append, BitVec.ofInt_add]
  -- each HTLC already there contributes its coefficient at `cutAdd`
  have hterms : c.htlcs.map
      (BitVec.ofInt 64 ∘ fun h => potCoeff cutAdd sender h.state h.r.isSome * h.amount) =
      c.htlcs.map fun h => adjustDelta sender.other h sender +
        (if (h.has (htlcFlag sender.other htlcFPending) &&
            h.has (htlcFlag sender.other htlcFCommitted)) = true
          then balanceRemovingHtlc h sender else 0) +
        (if (!h.has (htlcFlag sender.other htlcFCommitted) &&
            h.has (htlcFlag sender.other htlcFPending)) = true
          then balanceAddingHtlc h sender else 0) :=
    List.map_congr_left fun h _ => (addCheckDelta_eq h sender).symm
  have hlast : BitVec.ofInt 64 (potCoeff cutAdd sender new.state new.r.isSome * new.amount) =
      balanceAddingHtlc new sender := by
    rw [hnew, balanceAddingHtlc, howner, if_pos rfl, neg_one_mul, BitVec.ofInt_neg, ofInt_amount]
  rw [hinv.owed, o.ofInt_init, Word.ofInt_list_sum, List.map_map, hterms, List.sum_map_add,
    List.sum_map_add]
  simp only [List.map_cons, List.map_nil, List.sum_cons, List.sum_nil, add_zero, hlast]
  abel

/-- The reserve check of `add_htlc` keeps the sender's cut `cutAdd` nonnegative: the bounds
of the opening make its signed comparison one of integers. -/
theorem added_nonneg (hinv : ChannelInv o c) {new : Htlc} (sender : Side)
    (hstate : new.state = if sender = .local then .sentAddHtlc else .rcvdAddHtlc)
    (hr : new.r = none) (hmax : new.msatoshi ≤ o.params.maxPaymentMsat)
    (hcap : ¬(addBalance c new - addFee c new).slt (channelReserveMsat c new.owner)) :
    0 ≤ cutBalance o (c.htlcs ++ [new]) cutAdd sender := by
  have hA := cutBalance_append_added o c.htlcs hstate hr (t := cutAdd) (by decide) sender
  simp only [and_self, if_true] at hA
  have hlo := hinv.cut_nonneg cutAdd (by decide) sender
  have hhi := hinv.cutBalance_add_le sender
  have hF := o.funding_lt
  have hpos := new.amount_nonneg
  have hamount : new.amount < 2 ^ 62 := by
    have hle : new.msatoshi.toNat ≤ o.params.maxPaymentMsat.toNat := hmax
    have hlt := o.payment_lt
    simp only [Htlc.amount]
    omega
  have hfee : (addFee c new).toNat < 2 ^ 55 := addHtlcFee_toNat_lt _ _ _ _ _
  have hres : (channelReserveMsat c new.owner).toNat < 2 ^ 63 := by
    have hcfg : c.config = o.params.config := congrArg ChannelParams.config hinv.params
    simpa [channelReserveMsat, hcfg] using o.reserve_lt new.owner.other
  have hword : addBalance c new - addFee c new = BitVec.ofInt 64
      (cutBalance o (c.htlcs ++ [new]) cutAdd sender - ((addFee c new).toNat : ℤ)) := by
    rw [hinv.addBalance_eq sender hstate hr, Word.ofInt_sub, Word.ofInt_toNat]
  rw [hword, ← Word.ofInt_toNat (channelReserveMsat c new.owner),
    Word.slt_ofInt_iff (by norm_num) ⟨by norm_num; omega, by norm_num; omega⟩
      ⟨by norm_num, by norm_num; omega⟩] at hcap
  omega

end ChannelInv

theorem keyNe_of_htlcGet_eq_none {hs : List Htlc} {id : BitVec 64} {owner : Side}
    (hget : htlcGet hs id owner = none) {a : Htlc} (ha : a ∈ hs) :
    ¬(a.id = id ∧ a.owner = owner) := by
  have hkey := List.find?_eq_none.1 hget a ha
  simpa [Htlc.isKey, Htlc.has, HtlcState.has_owner_flag, Htlc.owner] using hkey

/-- An HTLC that `add_htlc` accepted with its limits enforced keeps the invariant. -/
theorem ChannelInv.insertHtlc {o : Opening} {c : Channel} (hinv : ChannelInv o c) (sender : Side)
    {id msatoshi : BitVec 64} {cltvExpiry : BitVec 32} {paymentHash : Sha256}
    (hacc : AddAccepted c (newHtlc (if sender = .local then .sentAddHtlc else .rcvdAddHtlc) id
      msatoshi cltvExpiry paymentHash) true) :
    ChannelInv o (c.insertHtlc (newHtlc (if sender = .local then .sentAddHtlc else .rcvdAddHtlc)
      id msatoshi cltvExpiry paymentHash)) := by
  set new := newHtlc (if sender = .local then .sentAddHtlc else .rcvdAddHtlc) id msatoshi
    cltvExpiry paymentHash with hnew
  have hstate : new.state = if sender = .local then .sentAddHtlc else .rcvdAddHtlc := rfl
  have hr : new.r = none := rfl
  have hcfg : c.config = o.params.config := congrArg ChannelParams.config hinv.params
  have hmax : c.maxPaymentMsat = o.params.maxPaymentMsat :=
    congrArg ChannelParams.maxPaymentMsat hinv.params
  refine ⟨?_, ?_, ?_, ?_, ?_⟩
  · rw [Channel.insertHtlc_params]
    exact hinv.params
  · intro s x
    -- a new HTLC is in no commitment yet, so `adjust_balance` does not count it
    have hcoeff : ∀ s x, adjustCoeff s x new.state false = 0 := by
      rw [hstate]
      cases sender <;> decide
    have hzero : adjustDelta s new x = 0 := by
      simp [adjustDelta_eq, hr, hcoeff]
    simp [hinv.owed s x, hzero]
  · rw [Channel.insertHtlc_htlcs, List.pairwise_append]
    refine ⟨hinv.keys, List.pairwise_singleton _ _, fun a ha b hb => ?_⟩
    rw [List.mem_singleton] at hb
    subst hb
    exact keyNe_of_htlcGet_eq_none hacc.fresh ha
  · intro h hh
    rw [Channel.insertHtlc_htlcs, List.mem_append, List.mem_singleton] at hh
    rcases hh with hh | rfl
    · exact hinv.valid h hh
    · exact ⟨hacc.expiry, hacc.pos, hcfg ▸ hacc.aboveMin, hmax ▸ hacc.belowMax, rfl, rfl,
        by simp [hr]⟩
  · intro t ht x
    rw [Channel.insertHtlc_htlcs, cutBalance_append_added o c.htlcs hstate hr ht x]
    split
    · rename_i hadd
      obtain ⟨rfl, rfl⟩ := hadd
      have hnn := hinv.added_nonneg x hstate hr (hmax ▸ hacc.belowMax) (hacc.capacity rfl)
      rw [cutBalance_append_added o c.htlcs hstate hr ht x] at hnn
      simpa using hnn
    · simpa using hinv.cut_nonneg t ht x

/-! ## Runs -/

/-- Every call that succeeds keeps the invariant. -/
theorem ChannelInv.apply {o : Opening} {sha256 : Preimage → Sha256} {c c' : Channel}
    {call : Call} (hinv : ChannelInv o c) (h : c.apply sha256 call = some (true, c')) :
    ChannelInv o c' := by
  cases call with
  | addHtlc sender id msatoshi cltvExpiry paymentHash =>
    simp only [Channel.apply, Option.map_eq_some_iff, Prod.mk.injEq] at h
    obtain ⟨⟨e, c''⟩, hadd, he, rfl⟩ := h
    rcases addHtlc_cases hadd with ⟨hne, -⟩ | ⟨-, rfl, hacc⟩
    · exact absurd (by simpa using he) hne
    · exact hinv.insertHtlc sender hacc
  | fulfillHtlc owner id preimage =>
    simp only [Channel.apply, Option.some.injEq, Prod.mk.injEq] at h
    rcases he : channelFulfillHtlc sha256 c owner id preimage with ⟨e, c''⟩
    rw [he] at h
    obtain ⟨hok, rfl⟩ := h
    obtain rfl : e = .removeOk := by simpa using hok
    obtain ⟨htlc, next, hget, -, -, hstart, rfl⟩ := channelFulfillHtlc_ok he
    exact (hinv.removalStart hget hstart (some preimage)).setPending owner true
  | failHtlc owner id =>
    simp only [Channel.apply, Option.some.injEq, Prod.mk.injEq] at h
    rcases he : channelFailHtlc c owner id with ⟨e, c''⟩
    rw [he] at h
    obtain ⟨hok, rfl⟩ := h
    obtain rfl : e = .removeOk := by simpa using hok
    obtain ⟨htlc, next, hget, hstart, rfl⟩ := channelFailHtlc_ok he
    exact (hinv.removalStart hget hstart htlc.r).setPending owner true
  | updateFeerate feeratePerKw =>
    simp only [Channel.apply, Option.some.injEq] at h
    obtain ⟨hh, hv, hp⟩ := channelUpdateFeerate_eq h
    exact ⟨hp.trans hinv.params, fun s x => by rw [hv, hh]; exact hinv.owed s x,
      hh ▸ hinv.keys, hh ▸ hinv.valid, hh ▸ hinv.cut_nonneg⟩
  | sendingCommit =>
    simp only [Channel.apply, Option.map_eq_some_iff, Prod.mk.injEq] at h
    obtain ⟨⟨_, c''⟩, hcall, -, rfl⟩ := h
    obtain ⟨hh, hv, hp⟩ := Channel.commitFor_eq passable_sendingCommit hcall
    exact hinv.pass passable_sendingCommit passKeeps_sendingCommit hh (fun s x => by rw [hv]) hp
  | rcvdRevokeAndAck =>
    simp only [Channel.apply, Option.map_eq_some_iff, Prod.mk.injEq] at h
    obtain ⟨⟨_, c''⟩, hcall, -, rfl⟩ := h
    obtain ⟨hh, hv, hp⟩ := Channel.revokeFor_eq passable_rcvdRevokeAndAck hcall
    exact hinv.pass passable_rcvdRevokeAndAck passKeeps_rcvdRevokeAndAck hh hv hp
  | rcvdCommit =>
    simp only [Channel.apply, Option.map_eq_some_iff, Prod.mk.injEq] at h
    obtain ⟨⟨_, c''⟩, hcall, -, rfl⟩ := h
    obtain ⟨hh, hv, hp⟩ := Channel.commitFor_eq passable_rcvdCommit hcall
    exact hinv.pass passable_rcvdCommit passKeeps_rcvdCommit hh (fun s x => by rw [hv]) hp
  | sendingRevokeAndAck =>
    simp only [Channel.apply, Option.map_eq_some_iff, Prod.mk.injEq] at h
    obtain ⟨⟨_, c''⟩, hcall, -, rfl⟩ := h
    obtain ⟨hh, hv, hp⟩ := Channel.revokeFor_eq passable_sendingRevokeAndAck hcall
    exact hinv.pass passable_sendingRevokeAndAck passKeeps_sendingRevokeAndAck hh hv hp

/-- A run of calls that all succeed keeps the invariant. -/
theorem ChannelInv.runOk {o : Opening} {sha256 : Preimage → Sha256} {c c' : Channel}
    {calls : List Call} (hinv : ChannelInv o c) (h : c.runOk sha256 calls = some c') :
    ChannelInv o c' := by
  induction calls generalizing c with
  | nil =>
    simp only [Channel.runOk, Option.some.injEq] at h
    exact h ▸ hinv
  | cons call calls ih =>
    simp only [Channel.runOk] at h
    split at h
    · rename_i c'' hcall
      exact ih (hinv.apply hcall) h
    · cases h

/-- A channel with no HTLCs and the opening balances satisfies the invariant. -/
theorem ChannelInv.opened (o : Opening) {c : Channel} (hparams : c.params = o.params)
    (hhtlcs : c.htlcs = []) (howed : ∀ s x, (c.view s).owedMsat x = o.owed x) :
    ChannelInv o c where
  params := hparams
  owed s x := by simp [howed, hhtlcs]
  keys := by simp [hhtlcs]
  valid := by simp [hhtlcs]
  cut_nonneg t _ x := by simpa [cutBalance, hhtlcs] using o.init_nonneg x

end Dexfin.Lightning
