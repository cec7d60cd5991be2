import Dexfin.Lightning.Commit
import Mathlib.Data.BitVec
import Mathlib.Tactic.Abel

/-!
# One pass of `change_htlcs`

A pass moves every HTLC in a listed state one state on, and `htlc_incstate` pays out in the
view of the side that changed. Which steps a pass makes is a finite fact about the flag
table, checked once for each of the four passes of the code (`passable`). From it: the
pass moves each HTLC at most once (`changeHtlc_eq`), and the balances it moves are exactly
the difference of what `adjust_balance` would compute before and after the step
(`incstateView_owed`). Everything later about the commitment calls goes through these two.
-/

namespace Dexfin.Lightning

/-- Whether the commitment of `side` holds an HTLC in `state`. -/
def HtlcState.committed (state : HtlcState) (side : Side) : Bool :=
  state.has (htlcFlag side htlcFCommitted)

/-- Whether the commitment of `side` ever held an HTLC in `state`. -/
def HtlcState.wasCommitted (state : HtlcState) (side : Side) : Bool :=
  state.has (htlcFlag side htlcFWasCommitted)

/-- The state after a pass over `states`: one step on if it is listed. -/
def HtlcState.advance (states : List HtlcState) (state : HtlcState) : HtlcState :=
  if state ∈ states then state.succ?.getD state else state

/-- The HTLC after a pass over `states`. -/
def Htlc.advance (states : List HtlcState) (h : Htlc) : Htlc :=
  { h with state := h.state.advance states }

/-- A step `st → n` for `sidechanged` that the balances can follow: the HTLC keeps its
owner, the other side's commitment is untouched, and `sidechanged`'s commitment is entered
only by an HTLC it never held and left only by one it holds. The last two conjuncts say
this on the coefficients of the amounts `adjust_balance` adds and removes. -/
def stepFlags (sidechanged : Side) (st n : HtlcState) : Bool :=
  let s := sidechanged
  (htlcStateFlags st &&& ownerBits == htlcStateFlags n &&& ownerBits) &&
  n.owner == st.owner &&
  n.committed s.other == st.committed s.other &&
  n.wasCommitted s.other == st.wasCommitted s.other &&
  (n.wasCommitted s).toNat == (st.wasCommitted s).toNat + (!st.committed s && n.committed s).toNat &&
  (n.wasCommitted s && !n.committed s).toNat ==
    (st.wasCommitted s && !st.committed s).toNat + (st.committed s && !n.committed s).toNat

/-- A pass for `sidechanged` over `states` that never gets stuck and never moves an HTLC
twice: each listed state steps, by `stepFlags`, to a state that is not listed. -/
def passable (sidechanged : Side) (states : List HtlcState) : Bool :=
  states.all fun st =>
    match st.succ? with
    | some n => !states.contains n && stepFlags sidechanged st n
    | none => false

theorem passable_sendingCommit : passable .remote sendingCommitStates = true := by decide

theorem passable_rcvdRevokeAndAck : passable .local rcvdRevokeAndAckStates = true := by decide

theorem passable_rcvdCommit : passable .local rcvdCommitStates = true := by decide

theorem passable_sendingRevokeAndAck :
    passable .remote sendingRevokeAndAckStates = true := by decide

theorem passable_spec {s : Side} {states : List HtlcState} (hp : passable s states = true)
    {st : HtlcState} (hst : st ∈ states) :
    ∃ n, st.succ? = some n ∧ n ∉ states ∧ stepFlags s st n = true := by
  have h := List.all_eq_true.1 hp st hst
  cases hn : st.succ? with
  | none => simp [hn] at h
  | some n =>
    simp only [hn, Bool.and_eq_true, Bool.not_eq_true', List.contains_eq_mem,
      decide_eq_false_iff_not] at h
    exact ⟨n, rfl, h.1, h.2⟩

theorem passable_of_cons {s : Side} {a : HtlcState} {states : List HtlcState}
    (hp : passable s (a :: states) = true) : passable s states = true := by
  refine List.all_eq_true.2 fun st hst => ?_
  obtain ⟨n, hn, hnot, hflags⟩ := passable_spec hp (List.mem_cons_of_mem a hst)
  have hnot' : n ∉ states := fun h => hnot (List.mem_cons_of_mem a h)
  simp [hn, hnot', hflags]

theorem HtlcState.advance_of_mem {states : List HtlcState} {st n : HtlcState}
    (hst : st ∈ states) (hn : st.succ? = some n) : st.advance states = n := by
  simp [HtlcState.advance, hst, hn]

theorem HtlcState.advance_of_not_mem {states : List HtlcState} {st : HtlcState}
    (hst : st ∉ states) : st.advance states = st := by
  simp [HtlcState.advance, hst]

@[simp] theorem Htlc.advance_state (states : List HtlcState) (h : Htlc) :
    (h.advance states).state = h.state.advance states := rfl

@[simp] theorem Htlc.advance_msatoshi (states : List HtlcState) (h : Htlc) :
    (h.advance states).msatoshi = h.msatoshi := rfl

@[simp] theorem Htlc.advance_r (states : List HtlcState) (h : Htlc) :
    (h.advance states).r = h.r := rfl

@[simp] theorem Htlc.advance_id (states : List HtlcState) (h : Htlc) :
    (h.advance states).id = h.id := rfl

/-! ## The view a pass leaves -/

/-- The views after the pass has looked at `h`. -/
def passView (sidechanged : Side) (states : List HtlcState) (view : Side → ChannelView)
    (h : Htlc) : Side → ChannelView :=
  if h.state ∈ states then
    Function.update view sidechanged
      (incstateView (view sidechanged) h (h.advance states) sidechanged)
  else view

theorem htlcIncstate_eq {s : Side} {states : List HtlcState} (hp : passable s states = true)
    (view : Side → ChannelView) {h : Htlc} (hst : h.state ∈ states) :
    htlcIncstate view h s = some (passView s states view h, h.advance states) := by
  obtain ⟨n, hn, -, hflags⟩ := passable_spec hp hst
  have howner : htlcStateFlags h.state &&& ownerBits = htlcStateFlags n &&& ownerBits := by
    simp only [stepFlags, Bool.and_eq_true, beq_iff_eq] at hflags
    exact hflags.1.1.1.1.1
  have hadv : h.advance states = { h with state := n } := by
    simp [Htlc.advance, HtlcState.advance_of_mem hst hn]
  simp [htlcIncstate, hn, howner, passView, hst, hadv]

/-- The inner loop of `change_htlcs` moves the HTLC at most once, so it is one step on
exactly when its state is listed. -/
theorem changeHtlc_eq {s : Side} {states : List HtlcState} (hp : passable s states = true)
    (view : Side → ChannelView) (h : Htlc) (cflags : ℕ) :
    ∃ cflags', changeHtlc s view h cflags states =
      some (passView s states view h, h.advance states, cflags') := by
  induction states generalizing view h cflags with
  | nil => exact ⟨cflags, by simp [changeHtlc, passView, Htlc.advance, HtlcState.advance]⟩
  | cons st rest ih =>
    have hrest := passable_of_cons hp
    by_cases hstate : h.state = st
    · subst hstate
      have hmem : h.state ∈ h.state :: rest := List.mem_cons_self
      obtain ⟨n, hn, hnot, -⟩ := passable_spec hp hmem
      have hnext : h.state.advance (h.state :: rest) = n := HtlcState.advance_of_mem hmem hn
      have hnrest : n ∉ rest := fun h' => hnot (List.mem_cons_of_mem _ h')
      obtain ⟨cf, hcf⟩ := ih hrest (passView s (h.state :: rest) view h)
        (h.advance (h.state :: rest)) (cflags ||| (htlcStateFlags h.state ^^^
          htlcStateFlags (h.advance (h.state :: rest)).state))
      have hview : passView s rest (passView s (h.state :: rest) view h)
          (h.advance (h.state :: rest)) = passView s (h.state :: rest) view h := by
        simp [passView, hnext, hnrest]
      have hstay : (h.advance (h.state :: rest)).advance rest = h.advance (h.state :: rest) := by
        simp [Htlc.advance, hnext, HtlcState.advance_of_not_mem hnrest]
      refine ⟨cf, ?_⟩
      rw [changeHtlc, if_pos rfl, htlcIncstate_eq hp view hmem]
      simpa only [hview, hstay] using hcf
    · obtain ⟨cf, hcf⟩ := ih hrest view h cflags
      have hmem : h.state ∈ st :: rest ↔ h.state ∈ rest := by simp [hstate]
      have hadv : h.advance (st :: rest) = h.advance rest := by
        simp [Htlc.advance, HtlcState.advance, hmem]
      have hview : passView s (st :: rest) view h = passView s rest view h := by
        simp [passView, hmem, hadv]
      refine ⟨cf, ?_⟩
      rw [changeHtlc, if_neg hstate, hview, hadv]
      exact hcf

/-- `change_htlcs` moves every HTLC by one pass, and the views by the pass over each HTLC
in iteration order. -/
theorem changeHtlcList_eq {s : Side} {states : List HtlcState} (hp : passable s states = true)
    (view : Side → ChannelView) (cflags : ℕ) (hs : List Htlc) :
    ∃ cflags', changeHtlcList s states view cflags hs =
      some (hs.map (Htlc.advance states), hs.foldl (passView s states) view, cflags') := by
  induction hs generalizing view cflags with
  | nil => exact ⟨cflags, rfl⟩
  | cons h hs ih =>
    obtain ⟨cf, hcf⟩ := changeHtlc_eq hp view h cflags
    obtain ⟨cf', hcf'⟩ := ih (passView s states view h) cf
    exact ⟨cf', by simp [changeHtlcList, hcf, hcf']⟩

/-! ## The balances of a step -/

/-- What `adjust_balance` adds to `view[side].owed_msat[x]` for `h`: its amount leaves its
owner if `side` ever committed it, and goes to whom it pays if `side` no longer does. -/
def adjustDelta (side : Side) (h : Htlc) (x : Side) : BitVec 64 :=
  if h.state.wasCommitted side then
    balanceAddingHtlc h x + if h.state.committed side then 0 else balanceRemovingHtlc h x
  else 0

/-- The balances depend on the HTLC only through its owner, amount and preimage. -/
theorem balanceAddingHtlc_congr {h h' : Htlc} (ho : h'.owner = h.owner)
    (hm : h'.msatoshi = h.msatoshi) (x : Side) :
    balanceAddingHtlc h' x = balanceAddingHtlc h x := by
  simp [balanceAddingHtlc, ho, hm]

theorem balanceRemovingHtlc_congr {h h' : Htlc} (ho : h'.owner = h.owner)
    (hm : h'.msatoshi = h.msatoshi) (hr : h'.r = h.r) (x : Side) :
    balanceRemovingHtlc h' x = balanceRemovingHtlc h x := by
  simp [balanceRemovingHtlc, ho, hm, hr]

/-- A step keeps the owner. -/
theorem stepFlags_owner {s : Side} {h : Htlc} {n : HtlcState}
    (hflags : stepFlags s h.state n = true) : ({ h with state := n } : Htlc).owner = h.owner := by
  simp only [stepFlags, Bool.and_eq_true, beq_iff_eq] at hflags
  exact hflags.1.1.1.1.2

/-- The coefficient form of `stepFlags`: the amount added on entering the commitment and
the amount removed on leaving it are the change of what `adjust_balance` computes. -/
theorem delta_step {G : Type*} [AddCommGroup G] (add rem : G) {w₀ c₀ w₁ c₁ : Bool}
    (hw : w₁.toNat = w₀.toNat + (!c₀ && c₁).toNat)
    (hr : (w₁ && !c₁).toNat = (w₀ && !c₀).toNat + (c₀ && !c₁).toNat) :
    (if w₁ then add + if c₁ then 0 else rem else 0) =
      (if w₀ then add + if c₀ then 0 else rem else 0) +
        (if !c₀ && c₁ then add else if c₀ && !c₁ then rem else 0) := by
  cases w₀ <;> cases c₀ <;> cases w₁ <;> cases c₁ <;> simp_all

/-- What `htlc_incstate` adds to one balance of the changed view. -/
theorem incstateView_owedMsat (v : ChannelView) (pre post : Htlc) (s x : Side) :
    (incstateView v pre post s).owedMsat x = v.owedMsat x +
      if !pre.state.committed s && post.state.committed s then balanceAddingHtlc post x
      else if pre.state.committed s && !post.state.committed s then balanceRemovingHtlc post x
      else 0 := by
  simp only [incstateView, Htlc.has, HtlcState.committed]
  rcases Bool.eq_false_or_eq_true (pre.state.has (htlcFlag s htlcFCommitted)) with h₀ | h₀ <;>
    rcases Bool.eq_false_or_eq_true (post.state.has (htlcFlag s htlcFCommitted)) with h₁ | h₁ <;>
    simp [h₀, h₁]

/-- `htlc_incstate` moves the balances of the changed side by the change of what
`adjust_balance` computes for it. -/
theorem incstateView_owed {s : Side} {h : Htlc} {n : HtlcState}
    (hflags : stepFlags s h.state n = true) (v : ChannelView) (x : Side) :
    (incstateView v h { h with state := n } s).owedMsat x =
      v.owedMsat x + (adjustDelta s { h with state := n } x - adjustDelta s h x) := by
  have ho := stepFlags_owner hflags
  have hadd : balanceAddingHtlc { h with state := n } x = balanceAddingHtlc h x :=
    balanceAddingHtlc_congr ho rfl x
  have hrem : balanceRemovingHtlc { h with state := n } x = balanceRemovingHtlc h x :=
    balanceRemovingHtlc_congr ho rfl rfl x
  simp only [stepFlags, Bool.and_eq_true, beq_iff_eq] at hflags
  obtain ⟨⟨⟨⟨-, -⟩, -⟩, hw⟩, hr⟩ := hflags
  have key := delta_step (balanceAddingHtlc h x) (balanceRemovingHtlc h x) hw hr
  rw [incstateView_owedMsat, hadd, hrem]
  simp only [adjustDelta, hadd, hrem, key]
  abel

/-- The other side's view does not see the step. -/
theorem adjustDelta_other {s : Side} {h : Htlc} {n : HtlcState}
    (hflags : stepFlags s h.state n = true) (x : Side) :
    adjustDelta s.other { h with state := n } x = adjustDelta s.other h x := by
  have ho := stepFlags_owner hflags
  have hadd : balanceAddingHtlc { h with state := n } x = balanceAddingHtlc h x :=
    balanceAddingHtlc_congr ho rfl x
  have hrem : balanceRemovingHtlc { h with state := n } x = balanceRemovingHtlc h x :=
    balanceRemovingHtlc_congr ho rfl rfl x
  simp only [stepFlags, Bool.and_eq_true, beq_iff_eq] at hflags
  obtain ⟨⟨⟨⟨-, hc⟩, hw⟩, -⟩, -⟩ := hflags
  simp only [adjustDelta, hc, hw, hadd, hrem]

end Dexfin.Lightning
