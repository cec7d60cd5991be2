import Dexfin.Stellar.QuorumSet
import Dexfin.Lib.Ordered

/-!
# SCP statements and the order of a node's statements
(`scp/BallotProtocol.cpp`, `scp/NominationProtocol.cpp`, `xdr/Stellar-SCP.x`)

Each protocol of a slot keeps the latest statement of every node (`mLatestEnvelopes`,
`mLatestNominations`) and records a statement only when `isNewerStatement` says it is newer
than the one kept.

For the ballot protocol that is the order of the SCP paper: by type (PREPARE, CONFIRM,
EXTERNALIZE), then lexicographically by `(b, p, p', h)` for PREPARE and by `(b, p, h)` for
CONFIRM, with ballots ordered by counter, then value; no EXTERNALIZE is newer than another.
`isNewerStatement_iff_rank_lt` says that the chains of `compareBallots` in the code decide
exactly `statementRank old < statementRank st`, for a rank in a lexicographic linear order.

For nomination a statement is newer when its votes and its accepted values contain the old
ones and one of them has more. The code tests it with `std::includes` on the sorted vectors
and compares their sizes. `isNewerStatement_iff_grows` says that on sane nominations this is
strict growth of the pair of sets.

Along any run that records a statement only once it has passed those tests, the latest
statement of each node only moves up (`latestEnvelopes_run`, `latestNominations_run`).
-/

namespace Dexfin.Stellar

/-- `SCPBallot` of `Stellar-SCP.x`: a counter and a value. -/
structure SCPBallot (V : Type*) where
  counter : UInt32
  value : V
  deriving DecidableEq, Repr

namespace SCPBallot

variable {V : Type*}

/-- Ballots rank by counter, then by value. -/
def key (b : SCPBallot V) : ℕ ×ₗ V := toLex (b.counter.toNat, b.value)

theorem key_injective : Function.Injective (key (V := V)) := by
  rintro ⟨c₁, v₁⟩ ⟨c₂, v₂⟩ h
  have h' : (c₁.toNat, v₁) = (c₂.toNat, v₂) := toLex_inj.mp h
  simp only [Prod.mk.injEq, UInt32.toNat_inj] at h'
  rw [h'.1, h'.2]

theorem eq_iff {b₁ b₂ : SCPBallot V} : b₁ = b₂ ↔ b₁.counter = b₂.counter ∧ b₁.value = b₂.value := by
  obtain ⟨c₁, v₁⟩ := b₁
  obtain ⟨c₂, v₂⟩ := b₂
  simp

variable [LinearOrder V]

instance : LinearOrder (SCPBallot V) := LinearOrder.lift' key key_injective

theorem lt_iff {b₁ b₂ : SCPBallot V} :
    b₁ < b₂ ↔ b₁.counter < b₂.counter ∨ b₁.counter = b₂.counter ∧ b₁.value < b₂.value := by
  change b₁.key < b₂.key ↔ _
  rw [key, key, Prod.Lex.toLex_lt_toLex, UInt32.lt_iff_toNat_lt, ← UInt32.toNat_inj]

end SCPBallot

/-- The `prepare` arm of `SCPStatement::pledges`. -/
structure SCPPrepare (V H : Type*) where
  quorumSetHash : H
  ballot : SCPBallot V
  prepared : Option (SCPBallot V)
  preparedPrime : Option (SCPBallot V)
  nC : UInt32
  nH : UInt32
  deriving DecidableEq, Repr

/-- The `confirm` arm of `SCPStatement::pledges`. -/
structure SCPConfirm (V H : Type*) where
  ballot : SCPBallot V
  nPrepared : UInt32
  nCommit : UInt32
  nH : UInt32
  quorumSetHash : H
  deriving DecidableEq, Repr

/-- The `externalize` arm of `SCPStatement::pledges`. -/
structure SCPExternalize (V H : Type*) where
  commit : SCPBallot V
  nH : UInt32
  commitQuorumSetHash : H
  deriving DecidableEq, Repr

/-- `SCPNomination`: the values voted for and the values accepted. -/
structure SCPNomination (V H : Type*) where
  quorumSetHash : H
  votes : List V
  accepted : List V
  deriving DecidableEq, Repr

/-- `SCPStatement::pledges`, a union over `SCPStatementType`. -/
inductive SCPStatementPledges (V H : Type*)
  | prepare (prepare : SCPPrepare V H)
  | confirm (confirm : SCPConfirm V H)
  | externalize (externalize : SCPExternalize V H)
  | nominate (nominate : SCPNomination V H)
  deriving DecidableEq, Repr

/-- `SCPStatementType`. -/
inductive SCPStatementType
  | prepare
  | confirm
  | externalize
  | nominate
  deriving DecidableEq, Repr

/-- The values of `SCPStatementType` in `Stellar-SCP.x`. -/
def SCPStatementType.toNat : SCPStatementType → ℕ
  | .prepare => 0
  | .confirm => 1
  | .externalize => 2
  | .nominate => 3

/-- `pledges.type()`. -/
def SCPStatementPledges.type {V H : Type*} : SCPStatementPledges V H → SCPStatementType
  | .prepare _ => .prepare
  | .confirm _ => .confirm
  | .externalize _ => .externalize
  | .nominate _ => .nominate

/-- `SCPStatement`: the node that makes it and what it pledges. -/
structure SCPStatement (N V H : Type*) where
  nodeID : N
  pledges : SCPStatementPledges V H
  deriving DecidableEq, Repr

namespace BallotProtocol

variable {N V H : Type*} [LinearOrder V]

/-! ## Comparing ballots -/

/-- `BallotProtocol::compareBallots` on two ballots. -/
def compareBallots (b1 b2 : SCPBallot V) : ℤ :=
  if b1.counter < b2.counter then -1
  else if b2.counter < b1.counter then 1
  -- ballots are also strictly ordered by value
  else if b1.value < b2.value then -1
  else if b2.value < b1.value then 1
  else 0

/-- `BallotProtocol::compareBallots` on two `std::unique_ptr<SCPBallot>`: a missing ballot comes
before every ballot. -/
def compareBallotsOpt : Option (SCPBallot V) → Option (SCPBallot V) → ℤ
  | some b1, some b2 => compareBallots b1 b2
  | some _, none => 1
  | none, some _ => -1
  | none, none => 0

/-- `BallotProtocol::areBallotsCompatible`. -/
def areBallotsCompatible (b1 b2 : SCPBallot V) : Bool := b1.value = b2.value

/-- `BallotProtocol::areBallotsLessAndIncompatible`. -/
def areBallotsLessAndIncompatible (b1 b2 : SCPBallot V) : Bool :=
  compareBallots b1 b2 ≤ 0 && !areBallotsCompatible b1 b2

/-- `BallotProtocol::areBallotsLessAndCompatible`. -/
def areBallotsLessAndCompatible (b1 b2 : SCPBallot V) : Bool :=
  compareBallots b1 b2 ≤ 0 && areBallotsCompatible b1 b2

/-- `compareBallots` is the three-way comparison of the ballot order. -/
theorem compareBallots_threeWay : ThreeWay (compareBallots (V := V)) id := by
  constructor
  · intro b1 b2
    rw [id, id, SCPBallot.lt_iff]
    unfold compareBallots
    simp only [UInt32.lt_iff_toNat_lt, ← UInt32.toNat_inj]
    split_ifs with h1 h2 h3 h4
    · simp [h1]
    · simp only [Int.reduceLT, false_iff, not_or, not_and]
      omega
    · simp [h3, show b1.counter.toNat = b2.counter.toNat by omega]
    · simp only [Int.reduceLT, false_iff, not_or, not_and]
      exact ⟨h1, fun _ => h3⟩
    · simp only [Int.reduceLT, false_iff, not_or, not_and]
      exact ⟨h1, fun _ => h3⟩
  · intro b1 b2
    rw [id, id, SCPBallot.eq_iff]
    unfold compareBallots
    simp only [UInt32.lt_iff_toNat_lt, ← UInt32.toNat_inj]
    split_ifs with h1 h2 h3 h4
    · simp only [false_iff, not_and]
      omega
    · simp only [one_ne_zero, false_iff, not_and]
      omega
    · simp only [false_iff, not_and]
      exact fun _ h => absurd h h3.ne
    · simp only [one_ne_zero, false_iff, not_and]
      exact fun _ h => absurd h h4.ne'
    · simp only [true_iff]
      exact ⟨by omega, le_antisymm (not_lt.mp h4) (not_lt.mp h3)⟩

/-- A ballot that may be missing, below every ballot when it is. -/
def optRank : Option (SCPBallot V) → WithBot (SCPBallot V)
  | none => ⊥
  | some b => b

/-- The overload on pointers is the three-way comparison of `optRank`. -/
theorem compareBallotsOpt_threeWay : ThreeWay (compareBallotsOpt (V := V)) optRank := by
  constructor
  · rintro (_ | b1) (_ | b2)
    · simp [compareBallotsOpt, optRank]
    · simp [compareBallotsOpt, optRank]
    · simp [compareBallotsOpt, optRank]
    · simp only [compareBallotsOpt, optRank, WithBot.coe_lt_coe]
      exact compareBallots_threeWay.neg_iff b1 b2
  · rintro (_ | b1) (_ | b2)
    · simp [compareBallotsOpt, optRank]
    · simp [compareBallotsOpt, optRank]
    · simp [compareBallotsOpt, optRank]
    · simp only [compareBallotsOpt, optRank, WithBot.coe_eq_coe]
      exact compareBallots_threeWay.zero_iff b1 b2

/-- Less and compatible: no higher and of the same value. -/
theorem areBallotsLessAndCompatible_iff (b1 b2 : SCPBallot V) :
    areBallotsLessAndCompatible b1 b2 = true ↔ b1 ≤ b2 ∧ b1.value = b2.value := by
  simp [areBallotsLessAndCompatible, areBallotsCompatible,
    compareBallots_threeWay.nonpos_iff b1 b2]

/-! ## Which statement is newer -/

/-- `BallotProtocol::isNewerStatement(oldst, st)`, the total ordering described in the SCP
paper. `none` where the code throws: on two NOMINATE statements it reads `pledges.prepare()`,
which the XDR union refuses. -/
def isNewerStatement (oldst st : SCPStatement N V H) : Option Bool :=
  let t := st.pledges.type
  -- statement type (PREPARE < CONFIRM < EXTERNALIZE)
  if oldst.pledges.type ≠ t then some (decide (oldst.pledges.type.toNat < t.toNat))
  else
    match oldst.pledges, st.pledges with
    -- can't have duplicate EXTERNALIZE statements
    | .externalize _, .externalize _ => some false
    | .confirm oldC, .confirm c =>
      -- sorted by (b, p, p', h) (p' = 0 implicitly)
      let compBallot := compareBallots oldC.ballot c.ballot
      some <| if compBallot < 0 then true
      else if compBallot = 0 then
        if oldC.nPrepared = c.nPrepared then decide (oldC.nH < c.nH)
        else decide (oldC.nPrepared < c.nPrepared)
      else false
    | .prepare oldPrep, .prepare prep =>
      -- Lexicographical order between PREPARE statements: (b, p, p', h)
      let compBallot := compareBallots oldPrep.ballot prep.ballot
      some <| if compBallot < 0 then true
      else if compBallot = 0 then
        let compBallot := compareBallotsOpt oldPrep.prepared prep.prepared
        if compBallot < 0 then true
        else if compBallot = 0 then
          let compBallot := compareBallotsOpt oldPrep.preparedPrime prep.preparedPrime
          if compBallot < 0 then true
          else if compBallot = 0 then decide (oldPrep.nH < prep.nH)
          else false
        else false
      else false
    -- two NOMINATE statements (the ballot protocol never gets one); any other pair differs in
    -- type
    | _, _ => none

/-- What PREPARE statements are ordered by: `(b, p, p', h)`. -/
abbrev PrepareRank (V : Type*) :=
  SCPBallot V ×ₗ WithBot (SCPBallot V) ×ₗ WithBot (SCPBallot V) ×ₗ ℕ

/-- What CONFIRM statements are ordered by: `(b, p, h)`. -/
abbrev ConfirmRank (V : Type*) := SCPBallot V ×ₗ ℕ ×ₗ ℕ

/-- The rank of a statement: first its type, in the order PREPARE, CONFIRM, EXTERNALIZE,
NOMINATE, then within PREPARE and CONFIRM the ranks above. -/
abbrev StatementRank (V : Type*) := PrepareRank V ⊕ₗ ConfirmRank V ⊕ₗ Unit ⊕ₗ Unit

/-- The rank of a PREPARE statement. -/
def prepareRank (p : SCPPrepare V H) : PrepareRank V :=
  toLex (p.ballot, toLex (optRank p.prepared, toLex (optRank p.preparedPrime, p.nH.toNat)))

/-- The rank of a CONFIRM statement. -/
def confirmRank (c : SCPConfirm V H) : ConfirmRank V :=
  toLex (c.ballot, toLex (c.nPrepared.toNat, c.nH.toNat))

/-- The rank of a statement. -/
def statementRank : SCPStatementPledges V H → StatementRank V
  | .prepare p => toLex (.inl (prepareRank p))
  | .confirm c => toLex (.inr (toLex (.inl (confirmRank c))))
  | .externalize _ => toLex (.inr (toLex (.inr (toLex (.inl ())))))
  | .nominate _ => toLex (.inr (toLex (.inr (toLex (.inr ())))))

/-- Between statements of different types, the rank compares the types. -/
theorem statementRank_lt_iff_of_type_ne {a b : SCPStatementPledges V H} (h : a.type ≠ b.type) :
    statementRank a < statementRank b ↔ a.type.toNat < b.type.toNat := by
  cases a <;> cases b <;>
    simp_all [statementRank, SCPStatementPledges.type, SCPStatementType.toNat]

/-- On two PREPARE statements the three comparisons of ballots and the one of `h` decide the
rank order. -/
theorem isNewerStatement_prepare (n n' : N) (p p' : SCPPrepare V H) :
    isNewerStatement ⟨n, .prepare p⟩ ⟨n', .prepare p'⟩ = some true ↔ prepareRank p < prepareRank p' := by
  simp only [isNewerStatement, SCPStatementPledges.type, ne_eq, not_true_eq_false, if_false,
    Option.some.injEq, compareBallots_threeWay.lexStep, compareBallotsOpt_threeWay.lexStep, id, decide_eq_true_eq,
    UInt32.lt_iff_toNat_lt, prepareRank, Prod.Lex.toLex_lt_toLex]

/-- On two CONFIRM statements the comparison of ballots, then of `p` and of `h`, decide the rank
order. -/
theorem isNewerStatement_confirm (n n' : N) (c c' : SCPConfirm V H) :
    isNewerStatement ⟨n, .confirm c⟩ ⟨n', .confirm c'⟩ = some true ↔ confirmRank c < confirmRank c' := by
  simp only [isNewerStatement, SCPStatementPledges.type, ne_eq, not_true_eq_false, if_false,
    Option.some.injEq]
  rw [compareBallots_threeWay.lexStep]
  simp only [confirmRank, Prod.Lex.toLex_lt_toLex, id]
  split_ifs with hp
  · simp [hp, UInt32.lt_iff_toNat_lt]
  · simp [hp, UInt32.lt_iff_toNat_lt, UInt32.toNat_inj]

/-- `isNewerStatement` is the strict order of the statements' ranks. -/
theorem isNewerStatement_iff_rank_lt (oldst st : SCPStatement N V H) :
    isNewerStatement oldst st = some true ↔
      statementRank oldst.pledges < statementRank st.pledges := by
  by_cases ht : oldst.pledges.type = st.pledges.type
  · obtain ⟨n, p⟩ := oldst
    obtain ⟨n', p'⟩ := st
    cases p <;> cases p' <;> simp only [SCPStatementPledges.type, reduceCtorEq] at ht
    · rw [isNewerStatement_prepare]
      simp [statementRank]
    · rw [isNewerStatement_confirm]
      simp [statementRank]
    · simp [isNewerStatement, statementRank, SCPStatementPledges.type]
    · simp [isNewerStatement, statementRank, SCPStatementPledges.type]
  · rw [statementRank_lt_iff_of_type_ne ht]
    simp [isNewerStatement, ht]

/-- No statement is newer than itself. -/
theorem isNewerStatement_self (st : SCPStatement N V H) : isNewerStatement st st ≠ some true := by
  rw [Ne, isNewerStatement_iff_rank_lt]
  exact lt_irrefl _

/-! ## The latest statement of each node -/

section Latest

variable [DecidableEq N]

/-- `BallotProtocol::isNewerStatement(nodeID, st)`: `st` is newer than the statement of
`nodeID` in `mLatestEnvelopes`, or the node has none there. -/
def isNewerStatementOf (latest : List (N × SCPStatement N V H)) (nodeID : N)
    (st : SCPStatement N V H) : Option Bool :=
  match List.lookup nodeID latest with
  | none => some true
  | some old => isNewerStatement old st

/-- `BallotProtocol::recordEnvelope` on `mLatestEnvelopes`: `st` becomes the latest statement
of its node. -/
def recordEnvelope (latest : List (N × SCPStatement N V H)) (st : SCPStatement N V H) :
    List (N × SCPStatement N V H) :=
  AssocList.assign latest st.nodeID st

/-- A change of `mLatestEnvelopes` by `processEnvelope`: it records a statement only after
`isNewerStatement(nodeID, st)` has held. The checks it makes before and after that one only
refuse more statements. -/
def LatestStep (latest latest' : List (N × SCPStatement N V H)) : Prop :=
  ∃ st, isNewerStatementOf latest st.nodeID st = some true ∧ latest' = recordEnvelope latest st

/-- A statement just recorded is stale when it comes again. -/
theorem isNewerStatementOf_recordEnvelope (latest : List (N × SCPStatement N V H))
    (st : SCPStatement N V H) :
    isNewerStatementOf (recordEnvelope latest st) st.nodeID st ≠ some true := by
  simp [isNewerStatementOf, recordEnvelope, isNewerStatement_self]

variable {latest latest' : List (N × SCPStatement N V H)}

/-- The step lemma: a step gives one node a statement of higher rank. -/
theorem LatestStep.newerStep (h : LatestStep latest latest') :
    AssocList.NewerStep (fun a b : SCPStatement N V H => statementRank a.pledges < statementRank b.pledges)
      latest latest' := by
  obtain ⟨st, hnewer, rfl⟩ := h
  refine ⟨st.nodeID, st, fun old hold => ?_, rfl⟩
  rw [isNewerStatementOf, hold] at hnewer
  exact (isNewerStatement_iff_rank_lt old st).mp hnewer

/-- Along any run of `processEnvelope`, the latest statement of a node only moves up the order
of statements. -/
theorem latestEnvelopes_run (hrun : Relation.ReflTransGen LatestStep latest latest') {nodeID : N}
    {old : SCPStatement N V H} (h : List.lookup nodeID latest = some old) :
    ∃ st, List.lookup nodeID latest' = some st ∧ statementRank old.pledges ≤ statementRank st.pledges := by
  have hrun' := Relation.ReflTransGen.mono (fun _ _ => LatestStep.newerStep) _ _ hrun
  have : IsTrans (SCPStatement N V H) (fun a b => statementRank a.pledges < statementRank b.pledges) :=
    ⟨fun _ _ _ => lt_trans⟩
  obtain ⟨st, hst, hle⟩ := AssocList.NewerStep.run hrun' h
  refine ⟨st, hst, ?_⟩
  rcases hle with rfl | hlt
  · exact le_rfl
  · exact hlt.le

/-- A PREPARE of node `0` followed by its CONFIRM of the same ballot. -/
theorem latestEnvelopes_run_confirm :
    ∃ st, List.lookup 0 (recordEnvelope [(0, (⟨0, .prepare ⟨(), ⟨1, 5⟩, none, none, 0, 0⟩⟩ :
        SCPStatement ℕ ℕ Unit))] ⟨0, .confirm ⟨⟨1, 5⟩, 1, 1, 1, ()⟩⟩) = some st ∧
      statementRank (.prepare ⟨(), ⟨1, 5⟩, none, none, 0, 0⟩ : SCPStatementPledges ℕ Unit) ≤
        statementRank st.pledges :=
  latestEnvelopes_run
    (Relation.ReflTransGen.single (show LatestStep [(0, ⟨0, .prepare ⟨(), ⟨1, 5⟩, none, none, 0, 0⟩⟩)] _
      from ⟨⟨0, .confirm ⟨⟨1, 5⟩, 1, 1, 1, ()⟩⟩, by decide, rfl⟩))
    (show List.lookup 0 [(0, ⟨0, .prepare ⟨(), ⟨1, 5⟩, none, none, 0, 0⟩⟩)] =
      some (⟨0, .prepare ⟨(), ⟨1, 5⟩, none, none, 0, 0⟩⟩ : SCPStatement ℕ ℕ Unit) from rfl)

end Latest

end BallotProtocol

namespace NominationProtocol

variable {N V H : Type*} [LinearOrder V]

/-! ## Which nomination is newer -/

/-- `NominationProtocol::isSubsetHelper(p, v, notEqual)`: whether every value of the sorted `p`
is in the sorted `v`, paired with what it writes to `notEqual`. -/
def isSubsetHelper (p v : List V) : Bool × Bool :=
  if p.length ≤ v.length then
    let res := SortedList.includes v p
    if res then (res, p.length ≠ v.length) else (res, true)
  else (false, true)

/-- `NominationProtocol::isNewerStatement(oldst, st)`: the votes and the accepted values of `st`
contain those of `oldst`, and one of them has more. -/
def isNewerStatement (oldst st : SCPNomination V H) : Bool :=
  let votes := isSubsetHelper oldst.votes st.votes
  if votes.1 then
    let accepted := isSubsetHelper oldst.accepted st.accepted
    -- true only if one of the sets grew
    if accepted.1 then votes.2 || accepted.2 else false
  else false

/-- `NominationProtocol::isSane` on the nomination of a statement: it votes for or accepts
something, and `std::adjacent_find` finds no two neighbours out of order in either list. -/
def isSane (nom : SCPNomination V H) : Bool :=
  (nom.votes.length + nom.accepted.length ≠ 0) &&
    SortedList.adjacentFindEnd (fun l r => !decide (l < r)) nom.votes &&
    SortedList.adjacentFindEnd (fun l r => !decide (l < r)) nom.accepted

/-- What a nomination stands for: the set of its votes and the set of its accepted values. -/
def nominationSets (nom : SCPNomination V H) : Finset V × Finset V :=
  (nom.votes.toFinset, nom.accepted.toFinset)

theorem isSane_sorted {nom : SCPNomination V H} (h : isSane nom = true) :
    nom.votes.Pairwise (· < ·) ∧ nom.accepted.Pairwise (· < ·) := by
  simp only [isSane, Bool.and_eq_true, SortedList.adjacentFindEnd_iff_pairwise] at h
  exact ⟨h.1.2, h.2⟩

/-- `isSubsetHelper` answers the inclusion of `std::includes` once the sizes allow it. -/
theorem isSubsetHelper_fst_eq (p v : List V) :
    (isSubsetHelper p v).1 = (decide (p.length ≤ v.length) && SortedList.includes v p) := by
  unfold isSubsetHelper
  dsimp only
  split_ifs <;> simp_all

/-- Where `isSubsetHelper` finds an inclusion, `notEqual` says whether the sizes differ. -/
theorem isSubsetHelper_snd_eq {p v : List V} (h : (isSubsetHelper p v).1 = true) :
    (isSubsetHelper p v).2 = decide (p.length ≠ v.length) := by
  unfold isSubsetHelper at h ⊢
  dsimp only at h ⊢
  split_ifs at h ⊢ <;> simp_all

section Subset

variable {p v : List V} (hp : p.Pairwise (· < ·)) (hv : v.Pairwise (· < ·))
include hp hv

theorem isSubsetHelper_fst : (isSubsetHelper p v).1 = true ↔ p.toFinset ⊆ v.toFinset := by
  have hsub : p.toFinset ⊆ v.toFinset ↔ p ⊆ v := by simp [Finset.subset_iff, List.subset_def]
  rw [hsub, isSubsetHelper_fst_eq, Bool.and_eq_true, decide_eq_true_eq,
    SortedList.includes_iff_subset hv hp]
  -- a duplicate-free list inside another is no longer than it
  exact and_iff_right_of_imp fun hpv => (hp.nodup.subperm hpv).length_le

theorem isSubsetHelper_snd (h : (isSubsetHelper p v).1 = true) :
    (isSubsetHelper p v).2 = true ↔ p.toFinset ⊂ v.toFinset := by
  have hpv : p ⊆ v := by
    have := (isSubsetHelper_fst hp hv).mp h
    simpa [Finset.subset_iff, List.subset_def] using this
  rw [SortedList.toFinset_ssubset_iff hv.nodup hp.nodup hpv, isSubsetHelper_snd_eq h,
    decide_eq_true_eq]

end Subset

/-- On sane nominations, `isNewerStatement` is strict growth of the sets of votes and of
accepted values. -/
theorem isNewerStatement_iff_grows (oldst st : SCPNomination V H) (hold : isSane oldst = true)
    (hst : isSane st = true) :
    isNewerStatement oldst st = true ↔ nominationSets oldst < nominationSets st := by
  obtain ⟨ho₁, ho₂⟩ := isSane_sorted hold
  obtain ⟨hs₁, hs₂⟩ := isSane_sorted hst
  rw [nominationSets, nominationSets, Prod.lt_iff]
  unfold isNewerStatement
  by_cases hv : (isSubsetHelper oldst.votes st.votes).1 = true
  · have hv' := (isSubsetHelper_fst ho₁ hs₁).mp hv
    by_cases ha : (isSubsetHelper oldst.accepted st.accepted).1 = true
    · have ha' := (isSubsetHelper_fst ho₂ hs₂).mp ha
      simp only [hv, ha, if_true, Bool.or_eq_true, isSubsetHelper_snd ho₁ hs₁ hv,
        isSubsetHelper_snd ho₂ hs₂ ha]
      constructor
      · rintro (h | h)
        · exact Or.inl ⟨h, ha'⟩
        · exact Or.inr ⟨hv', h⟩
      · rintro (⟨h, -⟩ | ⟨-, h⟩)
        · exact Or.inl h
        · exact Or.inr h
    · -- the accepted values shrank somewhere
      have ha' : ¬oldst.accepted.toFinset ⊆ st.accepted.toFinset :=
        mt (isSubsetHelper_fst ho₂ hs₂).mpr ha
      simp only [hv, ha, if_true, if_false, Bool.false_eq_true, false_iff, not_or, not_and]
      exact ⟨fun _ h => ha' h, fun _ h => ha' h.subset⟩
  · -- the votes shrank somewhere
    have hv' : ¬oldst.votes.toFinset ⊆ st.votes.toFinset := mt (isSubsetHelper_fst ho₁ hs₁).mpr hv
    simp only [hv, if_false, Bool.false_eq_true, false_iff, not_or, not_and]
    exact ⟨fun h _ => hv' h.subset, fun h _ => hv' h⟩

/-- Accepting a value voted for before is newer. -/
theorem isNewerStatement_iff_grows_accept :
    isSane (⟨(), [1, 2], []⟩ : SCPNomination ℕ Unit) = true ∧
      isSane (⟨(), [1, 2], [2]⟩ : SCPNomination ℕ Unit) = true ∧
      (isNewerStatement (⟨(), [1, 2], []⟩ : SCPNomination ℕ Unit) ⟨(), [1, 2], [2]⟩ = true ↔
        nominationSets (⟨(), [1, 2], []⟩ : SCPNomination ℕ Unit) < nominationSets ⟨(), [1, 2], [2]⟩) :=
  ⟨by decide, by decide, isNewerStatement_iff_grows _ _ (by decide) (by decide)⟩

/-! ## The latest nomination of each node -/

section Latest

variable [DecidableEq N]

/-- `NominationProtocol::isNewerStatement(nodeID, st)`: `st` is newer than the nomination of
`nodeID` in `mLatestNominations`, or the node has none there. -/
def isNewerStatementOf (latest : List (N × SCPNomination V H)) (nodeID : N)
    (st : SCPNomination V H) : Bool :=
  match List.lookup nodeID latest with
  | none => true
  | some old => isNewerStatement old st

/-- `NominationProtocol::recordEnvelope` on `mLatestNominations`. -/
def recordEnvelope (latest : List (N × SCPNomination V H)) (nodeID : N)
    (st : SCPNomination V H) : List (N × SCPNomination V H) :=
  AssocList.assign latest nodeID st

/-- A change of `mLatestNominations` by `processEnvelope`: a nomination is recorded when it is
newer than the latest one of its node, and sane. -/
def LatestStep (latest latest' : List (N × SCPNomination V H)) : Prop :=
  ∃ nodeID st, isNewerStatementOf latest nodeID st = true ∧ isSane st = true ∧
    latest' = recordEnvelope latest nodeID st

/-- Every nomination kept is sane. -/
def AllSane (latest : List (N × SCPNomination V H)) : Prop :=
  ∀ nodeID st, List.lookup nodeID latest = some st → isSane st = true

variable {latest latest' : List (N × SCPNomination V H)}

/-- The step lemma: a step keeps every kept nomination sane, and gives one node a nomination
whose sets have grown. -/
theorem LatestStep.newerStep (h : LatestStep latest latest') (hsane : AllSane latest) :
    AllSane latest' ∧
      AssocList.NewerStep (fun a b : SCPNomination V H => nominationSets a < nominationSets b)
        latest latest' := by
  obtain ⟨nodeID, st, hnewer, hst, rfl⟩ := h
  refine ⟨fun n nom hn => ?_, nodeID, st, fun old hold => ?_, rfl⟩
  · rw [recordEnvelope, AssocList.lookup_assign] at hn
    split_ifs at hn
    · exact Option.some.inj hn ▸ hst
    · exact hsane n nom hn
  · rw [isNewerStatementOf, hold] at hnewer
    exact (isNewerStatement_iff_grows old st (hsane nodeID old hold) hst).mp hnewer

/-- The run lemma for sanity and growth, by induction on the run. -/
theorem LatestStep.run (hrun : Relation.ReflTransGen LatestStep latest latest')
    (hsane : AllSane latest) :
    AllSane latest' ∧
      Relation.ReflTransGen
        (AssocList.NewerStep fun a b : SCPNomination V H => nominationSets a < nominationSets b)
        latest latest' := by
  induction hrun with
  | refl => exact ⟨hsane, Relation.ReflTransGen.refl⟩
  | tail _ hstep ih =>
    obtain ⟨hsane', hgrow⟩ := ih
    obtain ⟨hsane'', hstep'⟩ := hstep.newerStep hsane'
    exact ⟨hsane'', hgrow.tail hstep'⟩

/-- Along any run of `processEnvelope` from sane nominations, the votes and the accepted
values of each node only grow, and every nomination kept stays sane. -/
theorem latestNominations_run (hrun : Relation.ReflTransGen LatestStep latest latest')
    (hsane : AllSane latest) {nodeID : N} {old : SCPNomination V H}
    (h : List.lookup nodeID latest = some old) :
    AllSane latest' ∧ ∃ st, List.lookup nodeID latest' = some st ∧
      old.votes.toFinset ⊆ st.votes.toFinset ∧ old.accepted.toFinset ⊆ st.accepted.toFinset := by
  obtain ⟨hsane', hgrow⟩ := LatestStep.run hrun hsane
  have : IsTrans (SCPNomination V H) (fun a b => nominationSets a < nominationSets b) :=
    ⟨fun _ _ _ => lt_trans⟩
  obtain ⟨st, hst, hle⟩ := AssocList.NewerStep.run hgrow h
  refine ⟨hsane', st, hst, ?_⟩
  rcases hle with rfl | hlt
  · exact ⟨subset_rfl, subset_rfl⟩
  · exact hlt.le

/-- Node `0` votes for `1`, then for `1` and `2` and accepts `1`. -/
theorem latestNominations_run_vote :
    AllSane (recordEnvelope [(0, (⟨(), [1], []⟩ : SCPNomination ℕ Unit))] 0 ⟨(), [1, 2], [1]⟩) ∧
      ∃ st, List.lookup 0 (recordEnvelope [(0, (⟨(), [1], []⟩ : SCPNomination ℕ Unit))] 0
          ⟨(), [1, 2], [1]⟩) = some st ∧
        [1].toFinset ⊆ st.votes.toFinset ∧ ([] : List ℕ).toFinset ⊆ st.accepted.toFinset :=
  latestNominations_run
    (Relation.ReflTransGen.single (show LatestStep [(0, ⟨(), [1], []⟩)] _
      from ⟨0, ⟨(), [1, 2], [1]⟩, by decide, by decide, rfl⟩))
    (fun n st hn => by
      rw [AssocList.lookup_cons] at hn
      split_ifs at hn
      · cases hn
        decide
      · cases hn)
    (show List.lookup 0 [(0, ⟨(), [1], []⟩)] = some (⟨(), [1], []⟩ : SCPNomination ℕ Unit) from rfl)

end Latest

end NominationProtocol

end Dexfin.Stellar
