import Dexfin.Token.Supply

/-!
# Allowances follow the history

For an owner `o` and a spender `sp`, `allowance[o][sp]` is always the value of the last
`approve` or `approveAndCall` by `o` for `sp`, less what `sp` has moved out of `o`'s balance
since through `transferFrom` and `burnFrom`, and what was moved never exceeds the approved
value. The history is the ghost record of successful calls in `World`, so a call undone by a
reverting `receiveApproval` does not count. Only these four kinds of call touch the entry
`[o][sp]`: the key order of the nested mapping is owner first, then `msg.sender`.
-/

namespace Dexfin.Token

/-- How one successful call changes the pair (last approved value, moved since) for `o`
and `sp`. -/
def approvalStep (o sp : Address) (acc : ℕ × ℕ) : Address × Call → ℕ × ℕ
  | (sender, .approve _spender _value) =>
    if sender = o ∧ _spender = sp then (_value.toNat, 0) else acc
  | (sender, .approveAndCall _spender _value _) =>
    if sender = o ∧ _spender = sp then (_value.toNat, 0) else acc
  | (sender, .transferFrom _from _ _value) =>
    if sender = sp ∧ _from = o then (acc.1, acc.2 + _value.toNat) else acc
  | (sender, .burnFrom _from _value) =>
    if sender = sp ∧ _from = o then (acc.1, acc.2 + _value.toNat) else acc
  | (_, .transfer ..) => acc
  | (_, .burn _) => acc

/-- The value of the most recent `approve` or `approveAndCall` by `o` for `sp` in a history
(zero, the initial allowance, if there is none), and the total that calls by `sp` moved
out of `o`'s balance after it. -/
def sinceApproval (o sp : Address) (history : List (Address × Call)) : ℕ × ℕ :=
  history.foldl (approvalStep o sp) (0, 0)

@[simp] theorem sinceApproval_nil (o sp : Address) : sinceApproval o sp [] = (0, 0) := rfl

theorem sinceApproval_append_singleton (o sp : Address) (history : List (Address × Call))
    (e : Address × Call) :
    sinceApproval o sp (history ++ [e]) = approvalStep o sp (sinceApproval o sp history) e := by
  simp [sinceApproval, List.foldl_append]

/-- The entry `[o][sp]` after writing `[o'][sp']`. -/
theorem allowance_setAllowance (s : State) (o' sp' o sp : Address) (v : Uint256) :
    (s.setAllowance o' sp' v).allowance o sp = if o' = o ∧ sp' = sp then v else s.allowance o sp := by
  by_cases ho : o = o'
  · subst ho
    by_cases hs : sp = sp'
    · subst hs
      simp
    · simp [Function.update_of_ne hs, Ne.symm hs]
  · simp [Function.update_of_ne ho, Ne.symm ho]

/-- `_transfer` moves balances only. -/
theorem _transfer_allowance {s s' : State} {_from _to : Address} {_value : Uint256}
    (h : _transfer s _from _to _value = .ok s') : s'.allowance = s.allowance := by
  unfold _transfer at h
  rw [require_bind, require_bind, require_bind] at h
  split_ifs at h
  dsimp only at h
  rw [assert_bind] at h
  split_ifs at h
  cases h
  rfl

/-- The entry `[o][sp]` after one successful call: set by an approval of `o` for `sp`,
lowered by a `transferFrom` or `burnFrom` of `sp` out of `o`, and otherwise unchanged. -/
theorem allowance_execute {s s' : State} {sender : Address} {c : Call} (o sp : Address)
    (h : execute s sender c = .ok s') :
    match c with
    | .approve _spender _value | .approveAndCall _spender _value _ =>
      s'.allowance o sp = if sender = o ∧ _spender = sp then _value else s.allowance o sp
    | .transferFrom _from _ _value | .burnFrom _from _value =>
      _value ≤ s.allowance _from sender ∧
        s'.allowance o sp =
          if sender = sp ∧ _from = o then s.allowance o sp - _value else s.allowance o sp
    | .transfer .. | .burn _ => s'.allowance o sp = s.allowance o sp := by
  cases c with
  | transfer _to _value =>
    rw [_transfer_allowance h]
  | transferFrom _from _to _value =>
    obtain ⟨hallow, htransfer⟩ := transferFrom_eq_ok h
    refine ⟨hallow, ?_⟩
    rw [_transfer_allowance htransfer, allowance_setAllowance]
    by_cases hpair : sender = sp ∧ _from = o
    · obtain ⟨rfl, rfl⟩ := hpair
      simp
    · rw [if_neg (fun h => hpair ⟨h.2, h.1⟩), if_neg hpair]
  | approve _spender _value =>
    cases h
    exact allowance_setAllowance s sender _spender o sp _value
  | approveAndCall _spender _value _extraData =>
    cases h
    exact allowance_setAllowance s sender _spender o sp _value
  | burn _value =>
    obtain ⟨-, rfl⟩ := burn_eq_ok h
    rfl
  | burnFrom _from _value =>
    obtain ⟨-, hallow, rfl⟩ := burnFrom_eq_ok h
    refine ⟨hallow, ?_⟩
    simp only [State.setTotalSupply_allowance]
    rw [allowance_setAllowance]
    by_cases hpair : sender = sp ∧ _from = o
    · obtain ⟨rfl, rfl⟩ := hpair
      simp
    · rw [if_neg (fun h => hpair ⟨h.2, h.1⟩), if_neg hpair]
      rfl

/-- The allowance invariant of a world, for one pair. -/
def Tracks (o sp : Address) (w : World) : Prop :=
  (sinceApproval o sp w.history).2 ≤ (sinceApproval o sp w.history).1 ∧
    (w.storage.allowance o sp).toNat =
      (sinceApproval o sp w.history).1 - (sinceApproval o sp w.history).2

/-- A successful `transferFrom` or `burnFrom` by `sp` out of `o` spends what the allowance
covers, so the moved total grows by exactly what the allowance loses. -/
theorem Tracks.spend {acc : ℕ × ℕ} {allowance _value : Uint256}
    (hmoved : acc.2 ≤ acc.1) (hallowance : allowance.toNat = acc.1 - acc.2)
    (hcover : _value ≤ allowance) :
    acc.2 + _value.toNat ≤ acc.1 ∧
      (allowance - _value).toNat = acc.1 - (acc.2 + _value.toNat) := by
  have hv : _value.toNat ≤ allowance.toNat := BitVec.le_def.mp hcover
  rw [BitVec.toNat_sub_of_le hcover]
  omega

/-- Every successful call keeps the allowance invariant of every pair. -/
theorem Tracks.exec {o sp : Address} {w w' : World} {sender : Address} {c : Call}
    (ht : Tracks o sp w) (h : w.exec sender c = .ok w') : Tracks o sp w' := by
  obtain ⟨hexec, hhistory⟩ := World.exec_eq_ok h
  have hstep := allowance_execute o sp hexec
  obtain ⟨hmoved, hallowance⟩ := ht
  unfold Tracks
  rw [hhistory, sinceApproval_append_singleton]
  generalize sinceApproval o sp w.history = acc at hmoved hallowance
  cases c with
  | transfer _to _value =>
    simp only [approvalStep]
    exact ⟨hmoved, hstep ▸ hallowance⟩
  | transferFrom _from _to _value =>
    obtain ⟨hcover, hnew⟩ := hstep
    by_cases hpair : sender = sp ∧ _from = o
    · obtain ⟨rfl, rfl⟩ := hpair
      rw [if_pos ⟨rfl, rfl⟩] at hnew
      simp only [approvalStep, hnew]
      exact Tracks.spend hmoved hallowance hcover
    · rw [if_neg hpair] at hnew
      simp only [approvalStep, if_neg hpair]
      exact ⟨hmoved, hnew ▸ hallowance⟩
  | approve _spender _value =>
    dsimp only at hstep
    by_cases hpair : sender = o ∧ _spender = sp
    · rw [if_pos hpair] at hstep
      simp only [approvalStep, if_pos hpair, hstep]
      omega
    · rw [if_neg hpair] at hstep
      simp only [approvalStep, if_neg hpair]
      exact ⟨hmoved, hstep ▸ hallowance⟩
  | approveAndCall _spender _value _extraData =>
    dsimp only at hstep
    by_cases hpair : sender = o ∧ _spender = sp
    · rw [if_pos hpair] at hstep
      simp only [approvalStep, if_pos hpair, hstep]
      omega
    · rw [if_neg hpair] at hstep
      simp only [approvalStep, if_neg hpair]
      exact ⟨hmoved, hstep ▸ hallowance⟩
  | burn _value =>
    simp only [approvalStep]
    exact ⟨hmoved, hstep ▸ hallowance⟩
  | burnFrom _from _value =>
    obtain ⟨hcover, hnew⟩ := hstep
    by_cases hpair : sender = sp ∧ _from = o
    · obtain ⟨rfl, rfl⟩ := hpair
      rw [if_pos ⟨rfl, rfl⟩] at hnew
      simp only [approvalStep, hnew]
      exact Tracks.spend hmoved hallowance hcover
    · rw [if_neg hpair] at hnew
      simp only [approvalStep, if_neg hpair]
      exact ⟨hmoved, hnew ▸ hallowance⟩

theorem Config.step_tracks {o sp : Address} {k : Config} (hk : k.All (Tracks o sp))
    (a : Action) : (k.step a).All (Tracks o sp) := by
  apply hk.of_step
  rcases k.step_cases a with h | ⟨sender, c, w, hexec, h⟩ | h | h
  · exact .inl h
  · exact .inr (.inl ⟨w, hk.1.exec hexec, h⟩)
  · exact .inr (.inr (.inl h))
  · exact .inr (.inr (.inr h))

theorem Config.run_tracks {o sp : Address} {k : Config} (hk : k.All (Tracks o sp))
    (actions : List Action) : (k.run actions).All (Tracks o sp) := by
  induction actions generalizing k with
  | nil => exact hk
  | cons a actions ih => exact ih (Config.step_tracks hk a)

/-- At deployment nothing is approved and nothing moved. -/
theorem deploy_tracks (creator o sp : Address) : (deploy creator).All (Tracks o sp) := by
  refine CallFrames.Stack.all_mk_nil.mpr ⟨le_refl 0, ?_⟩
  simp [constructor]

/-- For every run from deployment and every owner `o` and spender `sp`, what `sp` moved out
of `o`'s balance since the last approval by `o` for `sp` is at most the approved value, and
`allowance[o][sp]` is the approved value less that total. No call by a sender other than `o`
and `sp`, and no `transfer` or `burn` by `o`, changes `allowance[o][sp]`. -/
theorem allowance_tracks_approval :
    (∀ (creator : Address) (actions : List Action) (o sp : Address),
      let w := ((deploy creator).run actions).current
      (sinceApproval o sp w.history).2 ≤ (sinceApproval o sp w.history).1 ∧
        (w.storage.allowance o sp).toNat =
          (sinceApproval o sp w.history).1 - (sinceApproval o sp w.history).2) ∧
    (∀ (s s' : State) (sender : Address) (c : Call) (o sp : Address),
      execute s sender c = .ok s' →
      (sender ≠ o ∧ sender ≠ sp) ∨
        (sender = o ∧ ((∃ _to _value, c = .transfer _to _value) ∨ ∃ _value, c = .burn _value)) →
      s'.allowance o sp = s.allowance o sp) := by
  refine ⟨fun creator actions o sp => (Config.run_tracks (deploy_tracks creator o sp) actions).1, ?_⟩
  intro s s' sender c o sp h hwho
  have hstep := allowance_execute o sp h
  cases c with
  | transfer _to _value => exact hstep
  | transferFrom _from _to _value =>
    rcases hwho with ⟨-, hsp⟩ | ⟨-, ⟨_, _, hc⟩ | ⟨_, hc⟩⟩
    · rw [hstep.2, if_neg (fun hpair => hsp hpair.1)]
    · cases hc
    · cases hc
  | approve _spender _value =>
    rcases hwho with ⟨ho, -⟩ | ⟨-, ⟨_, _, hc⟩ | ⟨_, hc⟩⟩
    · rw [hstep, if_neg (fun hpair => ho hpair.1)]
    · cases hc
    · cases hc
  | approveAndCall _spender _value _extraData =>
    rcases hwho with ⟨ho, -⟩ | ⟨-, ⟨_, _, hc⟩ | ⟨_, hc⟩⟩
    · rw [hstep, if_neg (fun hpair => ho hpair.1)]
    · cases hc
    · cases hc
  | burn _value => exact hstep
  | burnFrom _from _value =>
    rcases hwho with ⟨-, hsp⟩ | ⟨-, ⟨_, _, hc⟩ | ⟨_, hc⟩⟩
    · rw [hstep.2, if_neg (fun hpair => hsp hpair.1)]
    · cases hc
    · cases hc

end Dexfin.Token
