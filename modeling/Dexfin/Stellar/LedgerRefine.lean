import Dexfin.Stellar.LedgerState

/-!
# Ledger states refine a stack of maps

The calls on the innermost ledger state act on the stack of maps of `NestedTx` as writes,
openings, commits and roll-backs (`absApply`), and every reachable stack refines the stack
of maps run on the same calls (`Refines.run`): at every level the newest versions are the
level's view, each state holds an entry exactly where its level wrote a value, and every
erased entry it keeps is over a parent that has the key. Every header carries the ledger
number of the root, which the stamps of `NestedTx` read.

From this: `getChanges` never meets its `assert` (`Tombstoned.keyChanges_isSome`), a commit
hands the parent the child's view with the entries the child held stamped
(`views_step_commit`), and a child rolled back leaves the stack it was opened on
(`step_rollback_run`).
-/

namespace Dexfin.Stellar

open NestedTx

variable {K D : Type} [DecidableEq K]

/-- The calls on the stack of maps; `ledgerSeq` is the ledger number of every header. -/
def absApply (keyOf : LedgerEntry D → K) (ledgerSeq : Nat) (A : Stack K (LedgerEntry D)) :
    Call K D → Except LedgerStateError (Stack K (LedgerEntry D))
  | .openChild shouldUpdateLastModified =>
    .ok (A.push (stampEntry shouldUpdateLastModified ledgerSeq))
  | .create entry =>
    match A.levels with
    | [] => .error .noLedgerState
    | _ :: _ =>
      if (A.top (keyOf entry)).isSome then .error .keyAlreadyExists
      else .ok (A.write (keyOf entry) (some entry))
  | .load key modify =>
    match A.levels, A.top key with
    | [], _ => .error .noLedgerState
    | _ :: _, none => .ok A
    | _ :: _, some e => .ok (A.write key (some (modify e)))
  | .erase key =>
    match A.levels, A.top key with
    | [], _ => .error .noLedgerState
    | _ :: _, none => .error .keyDoesNotExist
    | _ :: _, some _ => .ok (A.write key none)
  | .commit =>
    match A.levels with
    | [] => .error .noLedgerState
    | _ :: _ => .ok A.commit
  | .rollback =>
    match A.levels with
    | [] => .error .noLedgerState
    | _ :: _ => .ok A.pop

/-- A call on the stack of maps, an error leaving it as it was. -/
def absStep (keyOf : LedgerEntry D → K) (ledgerSeq : Nat) (A : Stack K (LedgerEntry D))
    (c : Call K D) : Stack K (LedgerEntry D) :=
  match absApply keyOf ledgerSeq A c with
  | .ok A' => A'
  | .error _ => A

/-- The stack of maps after the calls in order. -/
def absRun (keyOf : LedgerEntry D → K) (ledgerSeq : Nat) :
    Stack K (LedgerEntry D) → List (Call K D) → Stack K (LedgerEntry D)
  | A, [] => A
  | A, c :: cs => absRun keyOf ledgerSeq (absStep keyOf ledgerSeq A c) cs

/-! ## The refinement -/

/-- A ledger state over `parents` against a level: its newest versions are the level's
view, it stamps as the level does, and it holds an entry exactly where the level wrote
the value it sees. -/
structure LevelRefines (root : LedgerStateRoot K D) (s : LedgerState K D)
    (parents : List (LedgerState K D)) (l : Level K (LedgerEntry D)) : Prop where
  view : l.view = getNewestVersion root (s :: parents)
  stamp : l.stamp = s.sealEntry
  written : ∀ k e, s.entry k = some (some e) ↔ l.written k = true ∧ l.view k = some e

/-- The open ledger states against the levels, level by level. -/
def LevelsRefine (root : LedgerStateRoot K D) :
    List (LedgerState K D) → List (Level K (LedgerEntry D)) → Prop
  | [], [] => True
  | s :: parents, l :: ls => LevelRefines root s parents l ∧ LevelsRefine root parents ls
  | _, _ => False

/-- Every erased entry a state keeps is over a parent whose newest version exists. -/
def Tombstoned (root : LedgerStateRoot K D) : List (LedgerState K D) → Prop
  | [] => True
  | s :: parents =>
    (∀ k, s.entry k = some none → (getNewestVersion root parents k).isSome) ∧
      Tombstoned root parents

/-- A stack of ledger states refines a stack of maps. -/
structure Refines (ledgerSeq : Nat) (S : LedgerStack K D) (A : Stack K (LedgerEntry D)) :
    Prop where
  base : A.base = S.root.entries
  levels : LevelsRefine S.root S.states A.levels
  tombstoned : Tombstoned S.root S.states
  rootSeq : S.root.ledgerSeq = ledgerSeq
  headers : ∀ s ∈ S.states, s.ledgerSeq = ledgerSeq

section Level

variable {root : LedgerStateRoot K D} {s : LedgerState K D} {parents : List (LedgerState K D)}
  {l : Level K (LedgerEntry D)}

omit [DecidableEq K] in
/-- A key a level wrote but whose state holds no entry for it is absent from the view. -/
theorem LevelRefines.view_eq_none (h : LevelRefines root s parents l) {k : K}
    (hw : l.written k = true) (hs : ∀ e, s.entry k ≠ some (some e)) : l.view k = none := by
  cases hv : l.view k with
  | none => rfl
  | some e => exact absurd ((h.written k e).2 ⟨hw, hv⟩) (hs e)

omit [DecidableEq K] in
/-- The view a level hands down is the state's entries, stamped, over its parents. -/
theorem LevelRefines.sealedView (h : LevelRefines root s parents l) (k : K) :
    l.sealedView k =
      match s.entry k with
      | some (some e) => some (s.sealEntry e)
      | some none => none
      | none => getNewestVersion root parents k := by
  have hview : l.view k = getNewestVersion root (s :: parents) k := congrFun h.view k
  rcases hs : s.entry k with _ | _ | e
  · -- no entry: the parent's version, which is absent if the level wrote the key
    have hparent : l.view k = getNewestVersion root parents k := by
      simpa [getNewestVersion_cons, hs] using hview
    cases hw : l.written k
    · rw [Level.sealedView_of_not_written hw, hparent]
    · have hnone := h.view_eq_none hw (by simp [hs])
      rw [Level.sealedView_of_written hw, hnone, ← hparent, hnone]
      rfl
  · have hnone : l.view k = none := by simpa [getNewestVersion_cons, hs] using hview
    cases l.written k <;> simp [Level.sealedView, hnone]
  · obtain ⟨hw, hv⟩ := (h.written k e).1 hs
    rw [Level.sealedView_of_written hw, hv, h.stamp]
    rfl

omit [DecidableEq K] in
/-- The parent a child is committed into, against the level the child's level is committed
into. -/
theorem LevelRefines.commitChild {p : LedgerState K D} {gp : List (LedgerState K D)}
    {lp : Level K (LedgerEntry D)} (hl : LevelRefines root s (p :: gp) l)
    (hlp : LevelRefines root p gp lp) (hseq : s.ledgerSeq = p.ledgerSeq) :
    LevelRefines root (p.commitChild root gp s) gp
      { lp with view := l.sealedView, written := fun k => lp.written k || l.written k } where
  view := funext fun k => (hl.sealedView k).trans (getNewestVersion_commitChild p k).symm
  stamp := by
    simp only [hlp.stamp, LedgerState.sealEntry, LedgerState.commitChild, hseq]
  written k e := by
    simp only
    rw [hl.sealedView k]
    rcases hsk : s.entry k with _ | _ | e0
    · -- the child holds nothing: the parent's entry, and a key the child wrote is absent
      have hpk : (p.commitChild root gp s).entry k = p.entry k := by
        simp [LedgerState.commitChild, LedgerState.sealed, hsk]
      rw [hpk, hlp.written k e, ← congrFun hlp.view k]
      constructor
      · rintro ⟨hw, hv⟩
        exact ⟨by simp [hw], hv⟩
      · rintro ⟨hw, hv⟩
        cases hwp : lp.written k
        · have hwl : l.written k = true := by simpa [hwp] using hw
          have hnone := hl.view_eq_none hwl (by simp [hsk])
          have hsame : l.view k = lp.view k := by
            rw [congrFun hl.view k, congrFun hlp.view k, getNewestVersion_cons, hsk]
            rfl
          rw [← hsame, hnone] at hv
          cases hv
        · exact ⟨rfl, hv⟩
    · -- the child erased it: the parent drops it or keeps it erased
      cases hg : getNewestVersion root gp k <;>
        simp [LedgerState.commitChild, LedgerState.sealed, hsk, hg]
    · have hw := ((hl.written k e0).1 hsk).1
      simp [LedgerState.commitChild, LedgerState.sealed, hsk, hw]

/-- Recording `x` for `key` in the state and writing the resulting newest version in the
level keep them related. -/
theorem LevelRefines.write (h : LevelRefines root s parents l) (key : K)
    (x : Option (Option (LedgerEntry D))) (v : Option (LedgerEntry D))
    (hv : getNewestVersion root ({ s with entry := Function.update s.entry key x } :: parents)
      key = v)
    (hx : ∀ e, x = some (some e) ↔ v = some e) :
    LevelRefines root { s with entry := Function.update s.entry key x } parents
      (l.write key v) where
  view := by
    funext k
    by_cases hk : k = key
    · subst hk
      simp [hv]
    · simp only [Level.write_view, Function.update_of_ne hk, h.view, getNewestVersion_cons]
  stamp := h.stamp
  written k e := by
    by_cases hk : k = key
    · subst hk
      simp [hx]
    · simp [Function.update_of_ne hk, h.written k e]

/-- Recording anything but an erased entry, or an erased entry over a parent with the key,
keeps the tombstone invariant. -/
theorem Tombstoned.write (h : Tombstoned root (s :: parents)) (key : K)
    (x : Option (Option (LedgerEntry D)))
    (hx : x = some none → (getNewestVersion root parents key).isSome) :
    Tombstoned root ({ s with entry := Function.update s.entry key x } :: parents) := by
  refine ⟨fun k hk => ?_, h.2⟩
  by_cases hkey : k = key
  · subst hkey
    exact hx (by simpa using hk)
  · exact h.1 k (by simpa [Function.update_of_ne hkey] using hk)

end Level

/-! ## One call -/

section Steps

variable {keyOf : LedgerEntry D → K} {ledgerSeq : Nat} {root : LedgerStateRoot K D}
  {base : K → Option (LedgerEntry D)}

omit [DecidableEq K] in
/-- The innermost view of the stack of maps is the newest version of the innermost state. -/
theorem Refines.top {S : LedgerStack K D} {A : Stack K (LedgerEntry D)}
    (h : Refines ledgerSeq S A) : A.top = getNewestVersion S.root S.states := by
  obtain ⟨root, states⟩ := S
  obtain ⟨base, levels⟩ := A
  rcases states with _ | ⟨s, ps⟩ <;> rcases levels with _ | ⟨l, ls⟩
  · exact h.base
  · exact h.levels.elim
  · exact h.levels.elim
  · exact h.levels.1.view

omit [DecidableEq K] in
/-- Replacing the innermost state and level by related ones keeps the refinement. -/
theorem Refines.replaceTop {s s' : LedgerState K D} {ps : List (LedgerState K D)}
    {l l' : Level K (LedgerEntry D)} {ls : List (Level K (LedgerEntry D))}
    (h : Refines ledgerSeq ⟨root, s :: ps⟩ ⟨base, l :: ls⟩) (hl : LevelRefines root s' ps l')
    (ht : Tombstoned root (s' :: ps)) (hseq : s'.ledgerSeq = s.ledgerSeq) :
    Refines ledgerSeq ⟨root, s' :: ps⟩ ⟨base, l' :: ls⟩ where
  base := h.base
  levels := ⟨hl, h.levels.2⟩
  tombstoned := ht
  rootSeq := h.rootSeq
  headers t ht' := by
    rcases List.mem_cons.1 ht' with rfl | ht'
    · rw [hseq]
      exact h.headers s List.mem_cons_self
    · exact h.headers t (List.mem_cons_of_mem _ ht')

/-- Recording `x` for `key` in the innermost state and writing the resulting newest
version to the innermost level keep the refinement. -/
theorem Refines.write {s : LedgerState K D} {ps : List (LedgerState K D)}
    {l : Level K (LedgerEntry D)} {ls : List (Level K (LedgerEntry D))}
    (h : Refines ledgerSeq ⟨root, s :: ps⟩ ⟨base, l :: ls⟩) (key : K)
    (x : Option (Option (LedgerEntry D))) (v : Option (LedgerEntry D))
    (hv : getNewestVersion root ({ s with entry := Function.update s.entry key x } :: ps)
      key = v)
    (hx : ∀ e, x = some (some e) ↔ v = some e)
    (htomb : x = some none → (getNewestVersion root ps key).isSome) :
    Refines ledgerSeq ⟨root, { s with entry := Function.update s.entry key x } :: ps⟩
      ⟨base, l.write key v :: ls⟩ :=
  h.replaceTop (h.levels.1.write key x v hv hx) (h.tombstoned.write key x htomb) rfl

variable {S : LedgerStack K D} {A : Stack K (LedgerEntry D)}

theorem Refines.step_openChild (h : Refines ledgerSeq S A) (shouldUpdateLastModified : Bool) :
    Refines ledgerSeq (S.step keyOf (.openChild shouldUpdateLastModified))
      (absStep keyOf ledgerSeq A (.openChild shouldUpdateLastModified)) := by
  have hheader : S.header = ledgerSeq := by
    obtain ⟨root, states⟩ := S
    rcases states with _ | ⟨s, ps⟩
    · exact h.rootSeq
    · exact h.headers s List.mem_cons_self
  have hS : S.step keyOf (.openChild shouldUpdateLastModified) =
      ⟨S.root, ⟨fun _ => none, S.header, shouldUpdateLastModified⟩ :: S.states⟩ := rfl
  have hA : absStep keyOf ledgerSeq A (.openChild shouldUpdateLastModified) =
      A.push (stampEntry shouldUpdateLastModified ledgerSeq) := rfl
  rw [hS, hA]
  -- the new state holds nothing, and sees its parent's newest versions
  refine ⟨h.base, ⟨⟨?_, ?_, ?_⟩, h.levels⟩, ⟨fun k hk => by simp at hk, h.tombstoned⟩,
    h.rootSeq, ?_⟩
  · funext k
    simp [h.top, getNewestVersion_cons]
  · simp [LedgerState.sealEntry, hheader]
  · intro k e
    simp
  · intro t ht
    rcases List.mem_cons.1 ht with rfl | ht
    · exact hheader
    · exact h.headers t ht

theorem Refines.step_create (h : Refines ledgerSeq S A) (entry : LedgerEntry D) :
    Refines ledgerSeq (S.step keyOf (.create entry)) (absStep keyOf ledgerSeq A (.create entry)) := by
  obtain ⟨root, states⟩ := S
  obtain ⟨base, levels⟩ := A
  rcases states with _ | ⟨s, ps⟩ <;> rcases levels with _ | ⟨l, ls⟩
  · exact h
  · exact h.levels.elim
  · exact h.levels.elim
  · have htop : l.view = getNewestVersion root (s :: ps) := h.levels.1.view
    by_cases hdup : (getNewestVersion root (s :: ps) (keyOf entry)).isSome
    · -- the key exists: both refuse
      have hs : LedgerStack.step keyOf ⟨root, s :: ps⟩ (.create entry) = ⟨root, s :: ps⟩ := by
        simp [LedgerStack.step, LedgerStack.apply, LedgerState.create, hdup, Except.map]
      have ha : absStep keyOf ledgerSeq ⟨base, l :: ls⟩ (.create entry) = ⟨base, l :: ls⟩ := by
        simp [absStep, absApply, Stack.top, htop, hdup]
      rw [hs, ha]
      exact h
    · have hnone : getNewestVersion root (s :: ps) (keyOf entry) = none := by simpa using hdup
      have hs : LedgerStack.step keyOf ⟨root, s :: ps⟩ (.create entry) =
          ⟨root, { s with entry := Function.update s.entry (keyOf entry) (some (some entry)) }
            :: ps⟩ := by
        simp [LedgerStack.step, LedgerStack.apply, LedgerState.create, hnone, Except.map]
      have ha : absStep keyOf ledgerSeq ⟨base, l :: ls⟩ (.create entry) =
          ⟨base, l.write (keyOf entry) (some entry) :: ls⟩ := by
        simp [absStep, absApply, Stack.top, htop, hnone, Stack.write]
      rw [hs, ha]
      exact h.write _ _ _ (by simp [getNewestVersion_cons]) (by simp) (by simp)

theorem Refines.step_load (h : Refines ledgerSeq S A) (key : K)
    (modify : LedgerEntry D → LedgerEntry D) :
    Refines ledgerSeq (S.step keyOf (.load key modify))
      (absStep keyOf ledgerSeq A (.load key modify)) := by
  obtain ⟨root, states⟩ := S
  obtain ⟨base, levels⟩ := A
  rcases states with _ | ⟨s, ps⟩ <;> rcases levels with _ | ⟨l, ls⟩
  · exact h
  · exact h.levels.elim
  · exact h.levels.elim
  · have htop : l.view = getNewestVersion root (s :: ps) := h.levels.1.view
    cases hnew : getNewestVersion root (s :: ps) key with
    | none =>
      -- nothing to load: both stay
      have hs : LedgerStack.step keyOf ⟨root, s :: ps⟩ (.load key modify) = ⟨root, s :: ps⟩ := by
        simp [LedgerStack.step, LedgerStack.apply, LedgerState.load, hnew]
      have ha : absStep keyOf ledgerSeq ⟨base, l :: ls⟩ (.load key modify) = ⟨base, l :: ls⟩ := by
        simp [absStep, absApply, Stack.top, htop, hnew]
      rw [hs, ha]
      exact h
    | some e =>
      have hs : LedgerStack.step keyOf ⟨root, s :: ps⟩ (.load key modify) =
          ⟨root, { s with entry := Function.update s.entry key (some (some (modify e))) }
            :: ps⟩ := by
        simp [LedgerStack.step, LedgerStack.apply, LedgerState.load, hnew]
      have ha : absStep keyOf ledgerSeq ⟨base, l :: ls⟩ (.load key modify) =
          ⟨base, l.write key (some (modify e)) :: ls⟩ := by
        simp [absStep, absApply, Stack.top, htop, hnew, Stack.write]
      rw [hs, ha]
      exact h.write _ _ _ (by simp [getNewestVersion_cons]) (by simp) (by simp)

theorem Refines.step_erase (h : Refines ledgerSeq S A) (key : K) :
    Refines ledgerSeq (S.step keyOf (.erase key)) (absStep keyOf ledgerSeq A (.erase key)) := by
  obtain ⟨root, states⟩ := S
  obtain ⟨base, levels⟩ := A
  rcases states with _ | ⟨s, ps⟩ <;> rcases levels with _ | ⟨l, ls⟩
  · exact h
  · exact h.levels.elim
  · exact h.levels.elim
  · have htop : l.view = getNewestVersion root (s :: ps) := h.levels.1.view
    cases hnew : getNewestVersion root (s :: ps) key with
    | none =>
      -- no such key: both refuse
      have hs : LedgerStack.step keyOf ⟨root, s :: ps⟩ (.erase key) = ⟨root, s :: ps⟩ := by
        simp [LedgerStack.step, LedgerStack.apply, LedgerState.erase, hnew, Except.map]
      have ha : absStep keyOf ledgerSeq ⟨base, l :: ls⟩ (.erase key) = ⟨base, l :: ls⟩ := by
        simp [absStep, absApply, Stack.top, htop, hnew]
      rw [hs, ha]
      exact h
    | some e =>
      have ha : absStep keyOf ledgerSeq ⟨base, l :: ls⟩ (.erase key) =
          ⟨base, l.write key none :: ls⟩ := by
        simp [absStep, absApply, Stack.top, htop, hnew, Stack.write]
      rw [ha]
      by_cases hp : (getNewestVersion root ps key).isNone
      · -- created in this ledger state: its record goes
        have hs : LedgerStack.step keyOf ⟨root, s :: ps⟩ (.erase key) =
            ⟨root, { s with entry := Function.update s.entry key none } :: ps⟩ := by
          simp [LedgerStack.step, LedgerStack.apply, LedgerState.erase, hnew, hp, Except.map]
        rw [hs]
        exact h.write _ _ _ (by simpa [getNewestVersion_cons] using hp) (by simp) (by simp)
      · -- existed in a parent: an erased entry is kept
        have hs : LedgerStack.step keyOf ⟨root, s :: ps⟩ (.erase key) =
            ⟨root, { s with entry := Function.update s.entry key (some none) } :: ps⟩ := by
          simp [LedgerStack.step, LedgerStack.apply, LedgerState.erase, hnew, hp, Except.map]
        rw [hs]
        exact h.write _ _ _ (by simp [getNewestVersion_cons]) (by simp)
          (fun _ => Option.isSome_iff_ne_none.2 (by simpa using hp))

theorem Refines.step_rollback (h : Refines ledgerSeq S A) :
    Refines ledgerSeq (S.step keyOf .rollback) (absStep keyOf ledgerSeq A .rollback) := by
  obtain ⟨root, states⟩ := S
  obtain ⟨base, levels⟩ := A
  rcases states with _ | ⟨s, ps⟩ <;> rcases levels with _ | ⟨l, ls⟩
  · exact h
  · exact h.levels.elim
  · exact h.levels.elim
  · exact ⟨h.base, h.levels.2, h.tombstoned.2, h.rootSeq,
      fun t ht => h.headers t (List.mem_cons_of_mem _ ht)⟩

theorem Refines.step_commit (h : Refines ledgerSeq S A) :
    Refines ledgerSeq (S.step keyOf .commit) (absStep keyOf ledgerSeq A .commit) := by
  obtain ⟨root, states⟩ := S
  obtain ⟨base, levels⟩ := A
  rcases states with _ | ⟨s, _ | ⟨p, gp⟩⟩ <;> rcases levels with _ | ⟨l, _ | ⟨lp, ls⟩⟩
  · exact h
  all_goals try exact h.levels.elim
  all_goals try exact h.levels.2.elim
  · -- into the root: the database takes the child's sealed entries
    have hseq : s.ledgerSeq = ledgerSeq := h.headers s List.mem_cons_self
    have hS : LedgerStack.step keyOf ⟨root, [s]⟩ .commit = ⟨root.commitChild s, []⟩ := rfl
    have hA : absStep keyOf ledgerSeq ⟨base, [l]⟩ .commit = ⟨l.sealedView, []⟩ := rfl
    rw [hS, hA]
    refine ⟨?_, trivial, trivial, hseq, fun t ht => by simp at ht⟩
    funext k
    show l.sealedView k = (root.commitChild s).entries k
    rewrite [h.levels.1.sealedView k, LedgerStateRoot.commitChild_entries]
    rfl
  · -- into a parent state
    obtain ⟨hl, hlp, hls⟩ := h.levels
    obtain ⟨-, htp, htgp⟩ := h.tombstoned
    have hseq : s.ledgerSeq = ledgerSeq := h.headers s List.mem_cons_self
    have hseqp : p.ledgerSeq = ledgerSeq := h.headers p (by simp)
    have hS : LedgerStack.step keyOf ⟨root, s :: p :: gp⟩ .commit =
        ⟨root, p.commitChild root gp s :: gp⟩ := rfl
    have hA : absStep keyOf ledgerSeq ⟨base, l :: lp :: ls⟩ .commit =
        ⟨base, { lp with view := l.sealedView, written := fun k => lp.written k || l.written k }
          :: ls⟩ := rfl
    rw [hS, hA]
    refine ⟨h.base, ⟨hl.commitChild hlp (hseq.trans hseqp.symm), hls⟩, ⟨fun k hk => ?_, htgp⟩,
      h.rootSeq, ?_⟩
    · rcases hsk : s.entry k with _ | _ | e
      · exact htp k (by simpa [LedgerState.commitChild, LedgerState.sealed, hsk] using hk)
      · -- an erased entry survives only over a grandparent with the key
        cases hg : getNewestVersion root gp k with
        | none => simp [LedgerState.commitChild, LedgerState.sealed, hsk, hg] at hk
        | some e => simp
      · simp [LedgerState.commitChild, LedgerState.sealed, hsk] at hk
    · intro t ht
      rcases List.mem_cons.1 ht with rfl | ht
      · exact hseq
      · exact h.headers t (by simp [ht])

/-- Each call keeps the refinement. -/
theorem Refines.step (h : Refines ledgerSeq S A) (c : Call K D) :
    Refines ledgerSeq (S.step keyOf c) (absStep keyOf ledgerSeq A c) := by
  cases c with
  | openChild shouldUpdateLastModified => exact h.step_openChild shouldUpdateLastModified
  | create entry => exact h.step_create entry
  | load key modify => exact h.step_load key modify
  | erase key => exact h.step_erase key
  | commit => exact h.step_commit
  | rollback => exact h.step_rollback

/-- Every run keeps the refinement. -/
theorem Refines.run (h : Refines ledgerSeq S A) (calls : List (Call K D)) :
    Refines ledgerSeq (S.run keyOf calls) (absRun keyOf ledgerSeq A calls) := by
  induction calls generalizing S A with
  | nil => exact h
  | cons c cs ih => exact ih (h.step c)

omit [DecidableEq K] in
/-- A root alone refines its map. -/
theorem Refines.init (r : LedgerStateRoot K D) :
    Refines r.ledgerSeq ⟨r, []⟩ ⟨r.entries, []⟩ :=
  ⟨rfl, trivial, trivial, rfl, by simp⟩

end Steps

/-! ## What every run satisfies -/

section Runs

variable {root : LedgerStateRoot K D}

omit [DecidableEq K] in
/-- Related states and levels: the newest versions at each level are the levels' views, the
database's last. -/
theorem LevelsRefine.newestVersions_eq :
    ∀ {states : List (LedgerState K D)} {levels : List (Level K (LedgerEntry D))},
      LevelsRefine root states levels →
        newestVersions root states = levels.map Level.view ++ [root.entries]
  | [], [], _ => rfl
  | _ :: _, _ :: _, ⟨hl, hls⟩ => by
    rw [newestVersions, ← hl.view, hls.newestVersions_eq]
    rfl
  | [], _ :: _, h => h.elim
  | _ :: _, [], h => h.elim

omit [DecidableEq K] in
/-- At every level the newest versions are the views of the stack of maps, the database's
last. -/
theorem Refines.views {ledgerSeq : Nat} {S : LedgerStack K D} {A : Stack K (LedgerEntry D)}
    (h : Refines ledgerSeq S A) : S.views = A.levels.map Level.view ++ [A.base] := by
  rw [LedgerStack.views, h.levels.newestVersions_eq, h.base]

omit [DecidableEq K] in
/-- The tombstone invariant holds of every state with its own parents. -/
theorem Tombstoned.of_suffix {s : LedgerState K D} {ps : List (LedgerState K D)} :
    ∀ {states : List (LedgerState K D)}, Tombstoned root states → s :: ps <:+ states →
      Tombstoned root (s :: ps)
  | [], _, hsuf => absurd (List.suffix_nil.1 hsuf) (List.cons_ne_nil s ps)
  | _ :: _, h, hsuf => by
    rcases List.suffix_cons_iff.1 hsuf with heq | hsuf
    · rw [heq]
      exact h
    · exact Tombstoned.of_suffix h.2 hsuf

omit [DecidableEq K] in
/-- Over parents that have every key the state erased, `getChanges` meets no failing
`assert`. -/
theorem Tombstoned.keyChanges_isSome {s : LedgerState K D} {parents : List (LedgerState K D)}
    (h : Tombstoned root (s :: parents)) (key : K) :
    (s.keyChanges root parents key).isSome := by
  unfold LedgerState.keyChanges LedgerState.sealed
  rcases hs : s.entry key with _ | _ | e
  · rfl
  · -- an erased entry: a parent has a version of it
    obtain ⟨previous, hp⟩ := Option.isSome_iff_exists.1 (h.1 key hs)
    simp [hp]
  · cases getNewestVersion root parents key <;> rfl

/-- Every stack reached from a root by any calls: the newest versions at every level are the
views of the stack of maps run on the same calls; a commit gives the parent the child's view,
sealed where the child held an entry; a child opened, kept open and rolled back leaves the
stack it was opened on; and every state keeps an erased entry only over parents that have the
key, so `getChanges` meets no failing `assert`. -/
theorem ledgerStack_nestedTx (keyOf : LedgerEntry D → K) (root : LedgerStateRoot K D)
    (calls : List (Call K D)) :
    let S := LedgerStack.run keyOf ⟨root, []⟩ calls
    let A := absRun keyOf root.ledgerSeq ⟨root.entries, []⟩ calls
    S.views = A.levels.map Level.view ++ [A.base] ∧
    (∀ s ps, S.states = s :: ps →
      (S.step keyOf .commit).views =
        (fun key => if (s.entry key).isSome
          then (getNewestVersion S.root S.states key).map s.sealEntry
          else getNewestVersion S.root S.states key) :: S.views.drop 2) ∧
    (∀ b calls', (∀ n ≤ calls'.length, S.states.length <
        ((S.step keyOf (.openChild b)).run keyOf (calls'.take n)).states.length) →
      ((S.step keyOf (.openChild b)).run keyOf calls').states.length = S.states.length + 1 →
      ((S.step keyOf (.openChild b)).run keyOf calls').step keyOf .rollback = S) ∧
    (∀ s ps, s :: ps <:+ S.states → ∀ key,
      (s.entry key = some none → (getNewestVersion S.root ps key).isSome) ∧
        (s.keyChanges S.root ps key).isSome) := by
  intro S A
  have h : Refines root.ledgerSeq S A := (Refines.init root).run calls
  refine ⟨h.views, fun s ps hS => views_step_commit hS,
    fun b calls' hopen hdepth => S.step_rollback_run b calls' hopen hdepth,
    fun s ps hsuf key => ?_⟩
  have ht := h.tombstoned.of_suffix hsuf
  exact ⟨ht.1 key, ht.keyChanges_isSome key⟩

/-- A child erases an entry of the database: it keeps the erased entry over the database,
its commit leaves the database without the key, and a grandchild that loads the key and is
rolled back leaves the stack as it was. -/
theorem ledgerStack_nestedTx_erased :
    let S := LedgerStack.run (fun _ : LedgerEntry Unit => (0 : Nat))
      ⟨⟨fun _ => some ⟨5, ()⟩, 10⟩, []⟩ [.openChild true, .erase 0]
    let s : LedgerState Nat Unit := ⟨Function.update (fun _ => none) 0 (some none), 10, true⟩
    S.states = [s] ∧
      (S.step (fun _ => 0) .commit).views =
        (fun key => if (s.entry key).isSome
          then (getNewestVersion S.root S.states key).map s.sealEntry
          else getNewestVersion S.root S.states key) :: S.views.drop 2 ∧
      ((S.step (fun _ => 0) (.openChild false)).run (fun _ => 0) [.load 0 id]).step
        (fun _ => 0) .rollback = S ∧
      (getNewestVersion S.root [] 0).isSome ∧ (s.keyChanges S.root [] 0).isSome := by
  intro S s
  obtain ⟨-, hcommit, hrollback, htomb⟩ :=
    ledgerStack_nestedTx (fun _ : LedgerEntry Unit => (0 : Nat)) ⟨fun _ => some ⟨5, ()⟩, 10⟩
      [.openChild true, .erase 0]
  have hS : S.states = [s] := rfl
  have hsuf : s :: [] <:+ S.states := by
    rewrite [hS]
    exact List.suffix_refl _
  exact ⟨hS, hcommit s [] hS, hrollback false [.load 0 id] (by decide) (by decide),
    (htomb s [] hsuf 0).1 rfl, (htomb s [] hsuf 0).2⟩

/-- A child loads an entry of the database and commits: the database then holds the entry
stamped with the header's ledger number, not the version the child saw. -/
theorem commit_restamps_loaded :
    let S := LedgerStack.run (fun _ : LedgerEntry Unit => (0 : Nat))
      ⟨⟨fun _ => some ⟨5, ()⟩, 10⟩, []⟩ [.openChild true, .load 0 id]
    S.views.head?.map (fun v => v 0) = some (some ⟨5, ()⟩) ∧
      (S.step (fun _ => 0) .commit).views.head?.map (fun v => v 0) = some (some ⟨10, ()⟩) := by
  decide

end Runs

end Dexfin.Stellar
