import Dexfin.Lib.NestedTx

/-!
# Nested ledger states

`LedgerState` of stellar-core: each ledger state holds, over its parent, the entries it
created, loaded or erased (`mEntry`, with `nullptr` for an erased entry), and
`getNewestVersion` reads a key through the chain of parents down to the database of the
`LedgerStateRoot`. Only the innermost state takes calls; committing it first seals its
entries (`maybeUpdateLastModified` stamps each with the header's ledger number) and then
merges them into its parent (`commitChild`); rolling it back drops it.

Each open state refines a level of the stack of maps of `NestedTx` (`Refines`): its newest
versions are that level's view, and the entries it holds are the keys the level wrote with
their values. The tombstone invariant (`Tombstoned`) says that an erased entry is only
kept over a parent that has the key, which is what the `assert` of `getChanges` needs.
-/

namespace Dexfin.Stellar

open NestedTx

/-- `LedgerEntry`: the ledger it was last modified in, and the rest of the entry. -/
structure LedgerEntry (D : Type) where
  /-- `lastModifiedLedgerSeq`. -/
  lastModifiedLedgerSeq : Nat
  /-- `data`. -/
  data : D
  deriving DecidableEq, Repr

/-- `LedgerStateRoot`: the entries of the database, and the ledger number of its header. -/
structure LedgerStateRoot (K D : Type) where
  /-- What the database holds for each key. -/
  entries : K → Option (LedgerEntry D)
  /-- `mHeader->ledgerSeq`. -/
  ledgerSeq : Nat

/-- `LedgerState::Impl`: `mEntry` (`some none` is a `nullptr`, an erased entry), the ledger
number of `mHeader`, and `mShouldUpdateLastModified`. -/
structure LedgerState (K D : Type) where
  /-- `mEntry`. -/
  entry : K → Option (Option (LedgerEntry D))
  /-- `mHeader->ledgerSeq`. -/
  ledgerSeq : Nat
  /-- `mShouldUpdateLastModified`. -/
  shouldUpdateLastModified : Bool

/-- A root and the ledger states open over it, innermost first. -/
structure LedgerStack (K D : Type) where
  /-- The `LedgerStateRoot`. -/
  root : LedgerStateRoot K D
  /-- The open ledger states, each the parent of the one before it. -/
  states : List (LedgerState K D)

/-- What the calls throw. -/
inductive LedgerStateError where
  /-- `create` of a key with a newest version. -/
  | keyAlreadyExists
  /-- `erase` of a key with no newest version. -/
  | keyDoesNotExist
  /-- A call with no ledger state open to take it. -/
  | noLedgerState
  deriving DecidableEq, Repr

/-- The text of an exception the source throws. -/
def LedgerStateError.message : LedgerStateError → Option String
  | .keyAlreadyExists => some "Key already exists"
  | .keyDoesNotExist => some "Key does not exist"
  | .noLedgerState => none

variable {K D : Type} [DecidableEq K]

/-- `getNewestVersion` of a state over its parents. -/
def getNewestVersion (root : LedgerStateRoot K D) :
    List (LedgerState K D) → K → Option (LedgerEntry D)
  | [], key => root.entries key
  | s :: parents, key =>
    match s.entry key with
    | some entry => entry
    | none => getNewestVersion root parents key

/-- What `maybeUpdateLastModified` does to an entry of a state with these fields. -/
def stampEntry (shouldUpdateLastModified : Bool) (ledgerSeq : Nat) (e : LedgerEntry D) :
    LedgerEntry D :=
  if shouldUpdateLastModified then { e with lastModifiedLedgerSeq := ledgerSeq } else e

/-- What sealing does to each entry of `s`. -/
def LedgerState.sealEntry (s : LedgerState K D) : LedgerEntry D → LedgerEntry D :=
  stampEntry s.shouldUpdateLastModified s.ledgerSeq

/-- `maybeUpdateLastModified`: the entries of `s` as sealing leaves them. -/
def LedgerState.sealed (s : LedgerState K D) (key : K) : Option (Option (LedgerEntry D)) :=
  (s.entry key).map (Option.map s.sealEntry)

/-- `LedgerState::Impl::create`, with `LedgerEntryKey` given as `keyOf`. -/
def LedgerState.create (keyOf : LedgerEntry D → K) (root : LedgerStateRoot K D)
    (parents : List (LedgerState K D)) (s : LedgerState K D) (entry : LedgerEntry D) :
    Except LedgerStateError (LedgerState K D) :=
  let key := keyOf entry
  if (getNewestVersion root (s :: parents) key).isSome then .error .keyAlreadyExists
  else .ok { s with entry := Function.update s.entry key (some (some entry)) }

/-- `LedgerState::Impl::load`, followed by `modify` through the entry it returns. -/
def LedgerState.load (root : LedgerStateRoot K D) (parents : List (LedgerState K D))
    (s : LedgerState K D) (key : K) (modify : LedgerEntry D → LedgerEntry D) :
    LedgerState K D :=
  match getNewestVersion root (s :: parents) key with
  | none => s
  | some newest => { s with entry := Function.update s.entry key (some (some (modify newest))) }

/-- `LedgerState::Impl::erase`. -/
def LedgerState.erase (root : LedgerStateRoot K D) (parents : List (LedgerState K D))
    (s : LedgerState K D) (key : K) : Except LedgerStateError (LedgerState K D) :=
  match getNewestVersion root (s :: parents) key with
  | none => .error .keyDoesNotExist
  | some _ =>
    -- created in this ledger state, or existed in a previous one
    if (getNewestVersion root parents key).isNone then
      .ok { s with entry := Function.update s.entry key none }
    else .ok { s with entry := Function.update s.entry key (some none) }

/-- `LedgerState::Impl::commitChild` of the sealed entries of `child` into `p`, whose own
parents are `parents`. Each key is handled on its own, so the loop is one update per key. -/
def LedgerState.commitChild (root : LedgerStateRoot K D) (parents : List (LedgerState K D))
    (p child : LedgerState K D) : LedgerState K D :=
  { p with
    entry := fun key =>
      match child.sealed key with
      | none => p.entry key
      | some (some e) => some (some e)
      | some none => if (getNewestVersion root parents key).isNone then none else some none
    ledgerSeq := child.ledgerSeq }

/-- `LedgerStateRoot::Impl::commitChild`: each sealed entry of `child` is inserted or updated
in the database, and each erased one deleted. -/
def LedgerStateRoot.commitChild (r : LedgerStateRoot K D) (child : LedgerState K D) :
    LedgerStateRoot K D :=
  ⟨fun key =>
    match child.sealed key with
    | none => r.entries key
    | some entry => entry, child.ledgerSeq⟩

/-- The ledger number a new child copies from its parent's header. -/
def LedgerStack.header (S : LedgerStack K D) : Nat :=
  match S.states with
  | [] => S.root.ledgerSeq
  | s :: _ => s.ledgerSeq

/-- The calls on the innermost ledger state. Each releases the entry it returns, so no key
is active between calls. -/
inductive Call (K D : Type) where
  /-- `LedgerState(parent, shouldUpdateLastModified)`. -/
  | openChild (shouldUpdateLastModified : Bool)
  /-- `create(entry)`. -/
  | create (entry : LedgerEntry D)
  /-- `load(key)`, then `modify` through the entry it returns. -/
  | load (key : K) (modify : LedgerEntry D → LedgerEntry D)
  /-- `erase(key)`. -/
  | erase (key : K)
  /-- `commit()`. -/
  | commit
  /-- `rollback()`. -/
  | rollback

/-- One call on the innermost ledger state. -/
def LedgerStack.apply (keyOf : LedgerEntry D → K) (S : LedgerStack K D) :
    Call K D → Except LedgerStateError (LedgerStack K D)
  | .openChild shouldUpdateLastModified =>
    .ok ⟨S.root, ⟨fun _ => none, S.header, shouldUpdateLastModified⟩ :: S.states⟩
  | .create entry =>
    match S.states with
    | [] => .error .noLedgerState
    | s :: parents => (s.create keyOf S.root parents entry).map fun s' => ⟨S.root, s' :: parents⟩
  | .load key modify =>
    match S.states with
    | [] => .error .noLedgerState
    | s :: parents => .ok ⟨S.root, s.load S.root parents key modify :: parents⟩
  | .erase key =>
    match S.states with
    | [] => .error .noLedgerState
    | s :: parents => (s.erase S.root parents key).map fun s' => ⟨S.root, s' :: parents⟩
  | .commit =>
    match S.states with
    | [] => .error .noLedgerState
    | [s] => .ok ⟨S.root.commitChild s, []⟩
    | s :: p :: parents => .ok ⟨S.root, p.commitChild S.root parents s :: parents⟩
  | .rollback =>
    match S.states with
    | [] => .error .noLedgerState
    | _ :: parents => .ok ⟨S.root, parents⟩

/-- A call, with a thrown exception leaving the stack as it was. -/
def LedgerStack.step (keyOf : LedgerEntry D → K) (S : LedgerStack K D) (c : Call K D) :
    LedgerStack K D :=
  match S.apply keyOf c with
  | .ok S' => S'
  | .error _ => S

/-- The stack after the calls in order. -/
def LedgerStack.run (keyOf : LedgerEntry D → K) : LedgerStack K D → List (Call K D) →
    LedgerStack K D
  | S, [] => S
  | S, c :: cs => (S.step keyOf c).run keyOf cs

/-- The newest versions at each level of `states`, innermost first and the root last. -/
def newestVersions (root : LedgerStateRoot K D) :
    List (LedgerState K D) → List (K → Option (LedgerEntry D))
  | [] => [root.entries]
  | s :: parents => getNewestVersion root (s :: parents) :: newestVersions root parents

/-- The newest versions at each level of a stack. -/
def LedgerStack.views (S : LedgerStack K D) : List (K → Option (LedgerEntry D)) :=
  newestVersions S.root S.states

/-! ## The changes a ledger state reports -/

/-- `LedgerEntryChange`. -/
inductive LedgerEntryChange (K D : Type) where
  | created (entry : LedgerEntry D)
  | updated (entry : LedgerEntry D)
  | removed (key : K)
  | state (entry : LedgerEntry D)

/-- The changes `getChanges` reports for one key of the sealed entries of `s`; `none` where
its `assert(entry)` fails. -/
def LedgerState.keyChanges (root : LedgerStateRoot K D) (parents : List (LedgerState K D))
    (s : LedgerState K D) (key : K) : Option (List (LedgerEntryChange K D)) :=
  match s.sealed key with
  | none => some []
  | some entry =>
    match getNewestVersion root parents key, entry with
    | some previous, some e => some [.state previous, .updated e]
    | some previous, none => some [.state previous, .removed key]
    | none, some e => some [.created e]
    | none, none => none

/-! ## Newest versions -/

section Newest

omit [DecidableEq K] in
theorem getNewestVersion_cons {root : LedgerStateRoot K D} {s : LedgerState K D}
    {parents : List (LedgerState K D)} (key : K) :
    getNewestVersion root (s :: parents) key =
      ((s.entry key).getD (getNewestVersion root parents key)) := by
  simp only [getNewestVersion]
  cases s.entry key <;> rfl

variable {root : LedgerStateRoot K D} {s : LedgerState K D} {parents : List (LedgerState K D)}

/-- Holding a value for a key makes it the newest version there. -/
theorem getNewestVersion_update_some (key : K) (v : Option (LedgerEntry D)) :
    getNewestVersion root ({ s with entry := Function.update s.entry key (some v) } :: parents) =
      Function.update (getNewestVersion root (s :: parents)) key v := by
  funext k
  by_cases hk : k = key
  · subst hk
    simp [getNewestVersion_cons]
  · simp [getNewestVersion_cons, hk]

/-- Dropping the record of a key shows the parent's version there. -/
theorem getNewestVersion_update_none (key : K) :
    getNewestVersion root ({ s with entry := Function.update s.entry key none } :: parents) =
      Function.update (getNewestVersion root (s :: parents)) key
        (getNewestVersion root parents key) := by
  funext k
  by_cases hk : k = key
  · subst hk
    simp [getNewestVersion_cons]
  · simp [getNewestVersion_cons, hk]

omit [DecidableEq K] in
/-- After a commit the parent's newest versions are the child's, with the entries the child
held sealed. -/
theorem getNewestVersion_commitChild (p : LedgerState K D) (key : K) :
    getNewestVersion root (p.commitChild root parents s :: parents) key =
      match s.entry key with
      | some (some e) => some (s.sealEntry e)
      | some none => none
      | none => getNewestVersion root (p :: parents) key := by
  rcases hs : s.entry key with _ | _ | e
  · simp [getNewestVersion_cons, LedgerState.commitChild, LedgerState.sealed, hs]
  · -- an erased entry: removed from the parent over a grandparent without it, else kept
    cases hg : getNewestVersion root parents key with
    | none => simp [getNewestVersion_cons, LedgerState.commitChild, LedgerState.sealed, hs, hg]
    | some e => simp [getNewestVersion_cons, LedgerState.commitChild, LedgerState.sealed, hs, hg]
  · simp [getNewestVersion_cons, LedgerState.commitChild, LedgerState.sealed, hs]

omit [DecidableEq K] in
/-- After a commit into the root the database holds the child's entries, sealed, over what
it held. -/
theorem LedgerStateRoot.commitChild_entries (key : K) :
    (root.commitChild s).entries key =
      match s.entry key with
      | some (some e) => some (s.sealEntry e)
      | some none => none
      | none => getNewestVersion root [] key := by
  rcases hs : s.entry key with _ | _ | e <;>
    simp [LedgerStateRoot.commitChild, LedgerState.sealed, hs, getNewestVersion]

omit [DecidableEq K] in
/-- The newest versions a commit leaves are the child's, sealed where it held an entry. -/
theorem committed_eq_sealed (key : K) :
    (match s.entry key with
      | some (some e) => some (s.sealEntry e)
      | some none => none
      | none => getNewestVersion root parents key) =
      if (s.entry key).isSome then (getNewestVersion root (s :: parents) key).map s.sealEntry
      else getNewestVersion root (s :: parents) key := by
  rcases hs : s.entry key with _ | _ | e <;> simp [getNewestVersion_cons, hs]

/-- A commit replaces the views of the child and its parent by the child's view, sealed where
the child held an entry; the views below are as they were. -/
theorem views_step_commit {keyOf : LedgerEntry D → K} {S : LedgerStack K D}
    (hS : S.states = s :: parents) :
    (S.step keyOf .commit).views =
      (fun key => if (s.entry key).isSome
        then (getNewestVersion S.root S.states key).map s.sealEntry
        else getNewestVersion S.root S.states key) :: S.views.drop 2 := by
  obtain ⟨root, states⟩ := S
  subst hS
  cases parents with
  | nil =>
    show [(root.commitChild s).entries] = _ :: []
    congr 1
    funext key
    rw [LedgerStateRoot.commitChild_entries, committed_eq_sealed]
  | cons p gp =>
    show getNewestVersion root (p.commitChild root gp s :: gp) :: newestVersions root gp =
      _ :: newestVersions root gp
    congr 1
    funext key
    rw [getNewestVersion_commitChild, committed_eq_sealed]

end Newest

/-! ## The states below the innermost -/

section Frame

variable {keyOf : LedgerEntry D → K}

/-- What one call can do to the stack: nothing, open a child, replace the innermost state,
drop it, merge it into its parent, or merge the last state into the root. -/
theorem LedgerStack.step_cases (S : LedgerStack K D) (c : Call K D) :
    S.step keyOf c = S ∨
      (∃ t, S.step keyOf c = ⟨S.root, t :: S.states⟩) ∨
      (∃ s ps s', S.states = s :: ps ∧ S.step keyOf c = ⟨S.root, s' :: ps⟩) ∨
      (∃ s ps, S.states = s :: ps ∧ S.step keyOf c = ⟨S.root, ps⟩) ∨
      (∃ s p gp p', S.states = s :: p :: gp ∧ S.step keyOf c = ⟨S.root, p' :: gp⟩) ∨
      (∃ s, S.states = [s] ∧ (S.step keyOf c).states = []) := by
  obtain ⟨root, states⟩ := S
  cases c with
  | openChild b => exact Or.inr (Or.inl ⟨_, rfl⟩)
  | create entry =>
    rcases states with _ | ⟨s, ps⟩
    · exact Or.inl rfl
    · cases hc : s.create keyOf root ps entry with
      | error => exact Or.inl (by simp [LedgerStack.step, LedgerStack.apply, hc, Except.map])
      | ok s' => exact Or.inr (Or.inr (Or.inl ⟨s, ps, s', rfl,
          by simp [LedgerStack.step, LedgerStack.apply, hc, Except.map]⟩))
  | load key modify =>
    rcases states with _ | ⟨s, ps⟩
    · exact Or.inl rfl
    · exact Or.inr (Or.inr (Or.inl ⟨s, ps, _, rfl, rfl⟩))
  | erase key =>
    rcases states with _ | ⟨s, ps⟩
    · exact Or.inl rfl
    · cases hc : s.erase root ps key with
      | error => exact Or.inl (by simp [LedgerStack.step, LedgerStack.apply, hc, Except.map])
      | ok s' => exact Or.inr (Or.inr (Or.inl ⟨s, ps, s', rfl,
          by simp [LedgerStack.step, LedgerStack.apply, hc, Except.map]⟩))
  | commit =>
    rcases states with _ | ⟨s, _ | ⟨p, gp⟩⟩
    · exact Or.inl rfl
    · exact Or.inr (Or.inr (Or.inr (Or.inr (Or.inr ⟨s, rfl, rfl⟩))))
    · exact Or.inr (Or.inr (Or.inr (Or.inr (Or.inl ⟨s, p, gp, _, rfl, rfl⟩))))
  | rollback =>
    rcases states with _ | ⟨s, ps⟩
    · exact Or.inl rfl
    · exact Or.inr (Or.inr (Or.inr (Or.inl ⟨s, ps, rfl, rfl⟩)))

/-- A call that leaves more states than `B` leaves the root and the states `B` under the
innermost ones as they were. -/
theorem LedgerStack.step_frame {S : LedgerStack K D} {xs B : List (LedgerState K D)}
    (hS : S.states = xs ++ B) (c : Call K D)
    (hlen : B.length < (S.step keyOf c).states.length) :
    ∃ xs', S.step keyOf c = ⟨S.root, xs' ++ B⟩ := by
  rcases S.step_cases c with h | ⟨t, h⟩ | ⟨s, ps, s', hs, h⟩ | ⟨s, ps, hs, h⟩ |
      ⟨s, p, gp, p', hs, h⟩ | ⟨s, hs, h⟩
  · exact ⟨xs, by rw [h, ← hS]⟩
  · exact ⟨t :: xs, by rw [h, hS]; rfl⟩
  · -- the innermost state is one of `xs`
    have hx : s :: ps = xs ++ B := hs.symm.trans hS
    rw [h] at hlen ⊢
    rcases xs with _ | ⟨x, xs⟩
    · have hl := congrArg List.length hx
      simp at hl hlen
      omega
    · simp only [List.cons_append, List.cons.injEq] at hx
      exact ⟨s' :: xs, by rw [hx.2]; rfl⟩
  · have hx : s :: ps = xs ++ B := hs.symm.trans hS
    rw [h] at hlen ⊢
    rcases xs with _ | ⟨x, xs⟩
    · have hl := congrArg List.length hx
      simp at hl hlen
      omega
    · simp only [List.cons_append, List.cons.injEq] at hx
      exact ⟨xs, by rw [hx.2]⟩
  · -- the merged parent is one of `xs` too, or the states would not outnumber `B`
    have hx : s :: p :: gp = xs ++ B := hs.symm.trans hS
    rw [h] at hlen ⊢
    rcases xs with _ | ⟨x, _ | ⟨y, xs⟩⟩
    · have hl := congrArg List.length hx
      simp at hl hlen
      omega
    · have hl := congrArg List.length hx
      simp at hl hlen
      omega
    · simp only [List.cons_append, List.cons.injEq] at hx
      exact ⟨p' :: xs, by rw [hx.2.2]; rfl⟩
  · rw [h] at hlen
    simp at hlen

/-- Calls that keep more states open than `B` leave the root and `B` as they were. -/
theorem LedgerStack.run_frame {S : LedgerStack K D} {xs B : List (LedgerState K D)}
    (hS : S.states = xs ++ B) (calls : List (Call K D))
    (hopen : ∀ n ≤ calls.length, B.length < (S.run keyOf (calls.take n)).states.length) :
    ∃ xs', S.run keyOf calls = ⟨S.root, xs' ++ B⟩ := by
  induction calls generalizing S xs with
  | nil => exact ⟨xs, by rw [LedgerStack.run, ← hS]⟩
  | cons c cs ih =>
    have h1 : B.length < (S.step keyOf c).states.length := by
      simpa [LedgerStack.run] using hopen 1 (by simp)
    obtain ⟨xs1, hstep⟩ := LedgerStack.step_frame hS c h1
    have hopen' : ∀ n ≤ cs.length, B.length < ((S.step keyOf c).run keyOf (cs.take n)).states.length :=
      fun n hn => by simpa [LedgerStack.run] using hopen (n + 1) (by simp; omega)
    obtain ⟨xs', hrun⟩ := ih (by rw [hstep]) hopen'
    refine ⟨xs', ?_⟩
    rw [LedgerStack.run, hrun, hstep]

/-- A child that stays open through the calls and is then rolled back leaves the stack it was
opened on. -/
theorem LedgerStack.step_rollback_run (S : LedgerStack K D) (b : Bool) (calls : List (Call K D))
    (hopen : ∀ n ≤ calls.length,
      S.states.length < ((S.step keyOf (.openChild b)).run keyOf (calls.take n)).states.length)
    (hdepth : ((S.step keyOf (.openChild b)).run keyOf calls).states.length =
      S.states.length + 1) :
    ((S.step keyOf (.openChild b)).run keyOf calls).step keyOf .rollback = S := by
  have hchild : (S.step keyOf (.openChild b)).states =
      [⟨fun _ => none, S.header, b⟩] ++ S.states := rfl
  obtain ⟨xs, hrun⟩ := LedgerStack.run_frame hchild calls hopen
  rw [hrun] at hdepth ⊢
  obtain ⟨x, rfl⟩ : ∃ x, xs = [x] := List.length_eq_one_iff.1 (by simp at hdepth; omega)
  rfl

end Frame

end Dexfin.Stellar
