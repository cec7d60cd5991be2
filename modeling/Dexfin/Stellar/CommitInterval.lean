import Dexfin.Stellar.Statements

/-!
# The search for the commit interval (`scp/BallotProtocol.cpp`)

To accept a commit, `attemptAcceptCommit` looks for an interval of ballot counters `[c, h]`
over which commit is accepted federatedly. It only tries the counters that some latest
statement names as a bound (`getCommitBoundariesFromStatements`). `findExtendedInterval` walks
them from the top down: first to the highest `h` with `[h, h]` accepted, then down from there
as long as `[c, h]` stays accepted.

`ExtendedInterval` says what the walk is for: the highest nonzero boundary `h` at which the
predicate holds, and the lowest boundary `c` with the predicate on `[c, h]`. When the predicate
holds on every sub-interval of an interval where it holds, `findExtendedInterval_eq_iff` says
that the walk returns exactly that interval. The predicates of `attemptAcceptCommit` are closed
in this way whenever federated accept is monotone in the statements it counts. So the ballots
`attemptAcceptCommit` hands to `setAcceptCommit` bound that interval
(`attemptAcceptCommit_extendedInterval`).
-/

namespace Dexfin.Stellar

namespace BallotProtocol

/-! ## The walk down the boundaries -/

/-- `Interval`: a low and a high ballot counter, `(first, second)`. Counters are `uint32` in the
code and are only compared here, so they are kept as numbers. -/
abbrev Interval := ℕ × ℕ

/-- The loop of `findExtendedInterval` over the boundaries, from the greatest down. -/
def findExtendedIntervalLoop (pred : Interval → Bool) : Interval → List ℕ → Interval
  | candidate, [] => candidate
  | candidate, b :: bs =>
    if candidate.1 = 0 then
      -- first, find the high bound
      let cur := (b, b)
      if pred cur then findExtendedIntervalLoop pred cur bs
      else findExtendedIntervalLoop pred candidate bs
    else if b > candidate.2 then findExtendedIntervalLoop pred candidate bs
    else
      let cur := (b, candidate.2)
      if pred cur then findExtendedIntervalLoop pred cur bs
      -- could not extend further
      else candidate

/-- `BallotProtocol::findExtendedInterval(candidate, boundaries, pred)`: the boundaries are
walked from `rbegin` to `rend`. -/
def findExtendedInterval (candidate : Interval) (boundaries : SortedSet ℕ)
    (pred : Interval → Bool) : Interval :=
  findExtendedIntervalLoop pred candidate boundaries.toList.reverse

/-- The predicate holds on every interval inside one where it holds. -/
def SubIntervalClosed (pred : Interval → Bool) : Prop :=
  ∀ a b a' b', pred (a, b) = true → a ≤ a' → b' ≤ b → pred (a', b') = true

/-- What the walk is for: `(0, 0)` when the predicate holds at no nonzero boundary; otherwise
the highest boundary `h ≠ 0` with the predicate on `[h, h]`, and the lowest boundary `c ≤ h`
with the predicate on `[c, h]`. -/
def ExtendedInterval (B : List ℕ) (pred : Interval → Bool) (r : Interval) : Prop :=
  (r = (0, 0) ∧ ∀ b ∈ B, b ≠ 0 → pred (b, b) = false) ∨
    (r.2 ∈ B ∧ r.2 ≠ 0 ∧ pred (r.2, r.2) = true ∧ (∀ b ∈ B, r.2 < b → pred (b, b) = false) ∧
      r.1 ∈ B ∧ r.1 ≤ r.2 ∧ pred r = true ∧ ∀ b ∈ B, b < r.1 → pred (b, r.2) = false)

variable {pred : Interval → Bool}

/-- Only one interval is what the walk is for. -/
theorem ExtendedInterval.unique {B : List ℕ} {r r' : Interval} (h : ExtendedInterval B pred r)
    (h' : ExtendedInterval B pred r') : r = r' := by
  rcases h with ⟨rfl, hnone⟩ | ⟨hhi, hhi0, hphi, hhigh, hlo, -, hpr, hlow⟩
  · rcases h' with ⟨rfl, -⟩ | ⟨hhi', hhi0', hphi', -⟩
    · rfl
    · exact absurd (hnone _ hhi' hhi0') (by simp [hphi'])
  · rcases h' with ⟨-, hnone'⟩ | ⟨hhi', -, hphi', hhigh', hlo', -, hpr', hlow'⟩
    · exact absurd (hnone' _ hhi hhi0) (by simp [hphi])
    · -- the high ends are equal, as neither is above the other
      have h2 : r.2 = r'.2 := by
        rcases lt_trichotomy r.2 r'.2 with hlt | heq | hgt
        · exact absurd (hhigh _ hhi' hlt) (by simp [hphi'])
        · exact heq
        · exact absurd (hhigh' _ hhi hgt) (by simp [hphi])
      have h1 : r.1 = r'.1 := by
        rcases lt_trichotomy r.1 r'.1 with hlt | heq | hgt
        · exact absurd (hlow' _ hlo hlt) (by rw [← h2]; simp [hpr])
        · exact heq
        · exact absurd (hlow _ hlo' hgt) (by rw [h2]; simp [hpr'])
      exact Prod.ext h1 h2

/-- The second phase of the walk: from `[lo, hi]`, extended down over boundaries below `lo`,
in decreasing order, it stops at the first that fails. The induction is on the boundaries
left. -/
theorem findExtendedIntervalLoop_extend (hclosed : SubIntervalClosed pred) {lo hi : ℕ}
    {D : List ℕ} (hD : D.Pairwise (· > ·)) (hbelow : ∀ b ∈ D, b < lo) (hle : lo ≤ hi)
    (hpred : pred (lo, hi) = true) :
    let r := findExtendedIntervalLoop pred (lo, hi) D
    r.2 = hi ∧ (r.1 = lo ∨ r.1 ∈ D) ∧ r.1 ≤ lo ∧ pred r = true ∧
      ∀ b ∈ D, b < r.1 → pred (b, hi) = false := by
  induction D generalizing lo with
  | nil => simp [findExtendedIntervalLoop, hpred]
  | cons b D ih =>
    have hb := List.pairwise_cons.mp hD
    have hblo := hbelow b List.mem_cons_self
    have hlo0 : lo ≠ 0 := by omega
    have hbhi : ¬b > hi := by omega
    simp only [findExtendedIntervalLoop, hlo0, if_false, hbhi]
    by_cases hcur : pred (b, hi) = true
    · -- extended to `[b, hi]`, the walk goes on below `b`
      rw [if_pos hcur]
      obtain ⟨h2, hmem, hle', hpr, hlow⟩ :=
        ih hb.2 (fun b' hb' => hb.1 b' hb') (by omega) hcur
      refine ⟨h2, ?_, by omega, hpr, ?_⟩
      · rcases hmem with h | h
        · rw [h]
          exact Or.inr List.mem_cons_self
        · exact Or.inr (List.mem_cons_of_mem b h)
      · intro b' hb' hlt
        rcases List.mem_cons.mp hb' with rfl | hb'
        · omega
        · exact hlow b' hb' hlt
    · -- `[b, hi]` fails, and so does every wider interval below it
      rw [if_neg hcur]
      refine ⟨rfl, Or.inl rfl, le_rfl, hpred, ?_⟩
      intro b' hb' _
      rcases List.mem_cons.mp hb' with rfl | hb'
      · simpa using hcur
      · by_contra hb'pred
        exact hcur (hclosed b' hi b hi (by simpa using hb'pred) (hb.1 b' hb').le le_rfl)

/-- A boundary above all others that fails on its own interval changes nothing of what the
walk is for. -/
theorem ExtendedInterval.cons_of_false {b : ℕ} {D : List ℕ} {r : Interval}
    (h : ExtendedInterval D pred r) (hb : pred (b, b) = false) (habove : ∀ b' ∈ D, b' < b) :
    ExtendedInterval (b :: D) pred r := by
  rcases h with ⟨hr, hnone⟩ | ⟨hhi, hhi0, hphi, hhigh, hlo, hle, hpr, hlow⟩
  · refine Or.inl ⟨hr, fun b' hb' _ => ?_⟩
    rcases List.mem_cons.mp hb' with rfl | hb'
    · exact hb
    · exact hnone b' hb' ‹_›
  · refine Or.inr ⟨List.mem_cons_of_mem b hhi, hhi0, hphi, ?_, List.mem_cons_of_mem b hlo, hle,
      hpr, ?_⟩
    · intro b' hb' hlt
      rcases List.mem_cons.mp hb' with rfl | hb'
      · exact hb
      · exact hhigh b' hb' hlt
    · intro b' hb' hlt
      rcases List.mem_cons.mp hb' with rfl | hb'
      · exact absurd (habove _ hlo) (by omega)
      · exact hlow b' hb' hlt

/-- The first phase of the walk, from `(0, 0)` over boundaries in decreasing order, reaches
what the walk is for. The induction is on the boundaries. -/
theorem findExtendedIntervalLoop_spec (hclosed : SubIntervalClosed pred) {D : List ℕ}
    (hD : D.Pairwise (· > ·)) : ExtendedInterval D pred (findExtendedIntervalLoop pred (0, 0) D) := by
  induction D with
  | nil => exact Or.inl ⟨rfl, by simp⟩
  | cons b D ih =>
    have hb := List.pairwise_cons.mp hD
    simp only [findExtendedIntervalLoop, if_true]
    by_cases hcur : pred (b, b) = true
    · rw [if_pos hcur]
      by_cases hb0 : b = 0
      · -- `0` is the least boundary, so nothing follows it
        subst hb0
        have hnil : D = [] := List.eq_nil_iff_forall_not_mem.mpr fun b' hb' => by
          have := hb.1 b' hb'
          omega
        subst hnil
        exact Or.inl ⟨rfl, by simp⟩
      · -- `b` is the high bound; the second phase extends it down
        obtain ⟨h2, hmem, hle, hpr, hlow⟩ :=
          findExtendedIntervalLoop_extend hclosed hb.2 hb.1 le_rfl hcur
        refine Or.inr ⟨by rw [h2]; exact List.mem_cons_self, by omega, by rw [h2]; exact hcur,
          ?_, ?_, by omega, hpr, ?_⟩
        · intro b' hb' hlt
          rcases List.mem_cons.mp hb' with rfl | hb'
          · omega
          · exact absurd (hb.1 b' hb') (by omega)
        · rcases hmem with h | h
          · rw [h]
            exact List.mem_cons_self
          · exact List.mem_cons_of_mem b h
        · intro b' hb' hlt
          rcases List.mem_cons.mp hb' with rfl | hb'
          · omega
          · rw [h2]
            exact hlow b' hb' hlt
    · rw [if_neg hcur]
      exact (ih hb.2).cons_of_false (by simpa using hcur) hb.1

/-- Started from `(0, 0)`, `findExtendedInterval` returns exactly the highest boundary at which
the predicate holds, extended down to the lowest boundary where it still holds. -/
theorem findExtendedInterval_eq_iff (boundaries : SortedSet ℕ) (hclosed : SubIntervalClosed pred)
    (r : Interval) :
    findExtendedInterval (0, 0) boundaries pred = r ↔ ExtendedInterval boundaries.toList pred r := by
  have hspec := findExtendedIntervalLoop_spec hclosed boundaries.pairwise_reverse
  have hmem : ∀ x, x ∈ boundaries.toList.reverse ↔ x ∈ boundaries.toList := fun _ => List.mem_reverse
  have hrev : ∀ r', ExtendedInterval boundaries.toList.reverse pred r' ↔
      ExtendedInterval boundaries.toList pred r' := by
    intro r'
    simp only [ExtendedInterval, hmem]
  rw [hrev] at hspec
  constructor
  · rintro rfl
    exact hspec
  · exact fun h => hspec.unique h

/-- Over the boundaries `1, 3, 5`, with a predicate that holds inside `[2, 5]`, the walk returns
`[3, 5]`. -/
theorem findExtendedInterval_eq_iff_three :
    (findExtendedInterval (0, 0) ((SortedSet.empty.emplace 1).emplace 3 |>.emplace 5)
        (fun cur => decide (2 ≤ cur.1 ∧ cur.2 ≤ 5)) = (3, 5) ↔
      ExtendedInterval ((SortedSet.empty.emplace 1).emplace 3 |>.emplace 5).toList
        (fun cur => decide (2 ≤ cur.1 ∧ cur.2 ≤ 5)) (3, 5)) :=
  findExtendedInterval_eq_iff _ (fun a b a' b' h ha hb => by
    simp only [decide_eq_true_eq] at h ⊢
    omega) _

/-! ## The predicates and the boundaries of `attemptAcceptCommit` -/

section Commit

variable {N V H : Type*} [LinearOrder V]

/-- `BallotProtocol::commitPredicate(ballot, check, st)`: `st` accepts commit of `ballot` over
`check`. -/
def commitPredicate (ballot : SCPBallot V) (check : Interval) (st : SCPStatement N V H) : Bool :=
  match st.pledges with
  | .prepare _ => false
  | .confirm c =>
    if areBallotsCompatible ballot c.ballot then c.nCommit.toNat ≤ check.1 && check.2 ≤ c.nH.toNat
    else false
  | .externalize e =>
    if areBallotsCompatible ballot e.commit then e.commit.counter.toNat ≤ check.1 else false
  -- a NOMINATE statement makes the code abort
  | .nominate _ => false

/-- The `voted` predicate of `attemptAcceptCommit`: `st` votes to commit `ballot` over `cur`. -/
def attemptAcceptCommitVoted (ballot : SCPBallot V) (cur : Interval) (st : SCPStatement N V H) :
    Bool :=
  match st.pledges with
  | .prepare p =>
    if areBallotsCompatible ballot p.ballot then
      if p.nC ≠ 0 then p.nC.toNat ≤ cur.1 && cur.2 ≤ p.nH.toNat else false
    else false
  | .confirm c => if areBallotsCompatible ballot c.ballot then c.nCommit.toNat ≤ cur.1 else false
  | .externalize e =>
    if areBallotsCompatible ballot e.commit then e.commit.counter.toNat ≤ cur.1 else false
  | .nominate _ => false

/-- Accepting commit over an interval is accepting it over every interval inside. -/
theorem commitPredicate_mono {ballot : SCPBallot V} {st : SCPStatement N V H} {a b a' b' : ℕ}
    (h : commitPredicate ballot (a, b) st = true) (ha : a ≤ a') (hb : b' ≤ b) :
    commitPredicate ballot (a', b') st = true := by
  rcases st with ⟨_, p | c | e | nom⟩
  · simp [commitPredicate] at h
  · -- CONFIRM: `c.n ≤ first` and `second ≤ h.n`
    simp only [commitPredicate] at h ⊢
    split_ifs at h ⊢
    simp only [Bool.and_eq_true, decide_eq_true_eq] at h ⊢
    omega
  · -- EXTERNALIZE: `c.n ≤ first`
    simp only [commitPredicate] at h ⊢
    split_ifs at h ⊢
    simp only [decide_eq_true_eq] at h ⊢
    omega
  · simp [commitPredicate] at h

/-- Voting to commit over an interval is voting to commit over every interval inside. -/
theorem attemptAcceptCommitVoted_mono {ballot : SCPBallot V} {st : SCPStatement N V H}
    {a b a' b' : ℕ} (h : attemptAcceptCommitVoted ballot (a, b) st = true) (ha : a ≤ a')
    (hb : b' ≤ b) : attemptAcceptCommitVoted ballot (a', b') st = true := by
  rcases st with ⟨_, p | c | e | nom⟩
  · -- PREPARE: `c.n ≤ first` and `second ≤ h.n`
    simp only [attemptAcceptCommitVoted] at h ⊢
    split_ifs at h ⊢
    simp only [Bool.and_eq_true, decide_eq_true_eq] at h ⊢
    omega
  · -- CONFIRM: `c.n ≤ first`
    simp only [attemptAcceptCommitVoted] at h ⊢
    split_ifs at h ⊢
    simp only [decide_eq_true_eq] at h ⊢
    omega
  · -- EXTERNALIZE: `c.n ≤ first`
    simp only [attemptAcceptCommitVoted] at h ⊢
    split_ifs at h ⊢
    simp only [decide_eq_true_eq] at h ⊢
    omega
  · simp [attemptAcceptCommitVoted] at h

/-- `federatedAccept voted accepted` holds still when `voted` and `accepted` hold of more
statements. -/
def FederatedMonotone (federatedAccept : (SCPStatement N V H → Bool) → (SCPStatement N V H → Bool) → Bool) :
    Prop :=
  ∀ v a v' a', (∀ st, v st = true → v' st = true) → (∀ st, a st = true → a' st = true) →
    federatedAccept v a = true → federatedAccept v' a' = true

/-- The predicate `attemptAcceptCommit` searches with. -/
def acceptCommitPred
    (federatedAccept : (SCPStatement N V H → Bool) → (SCPStatement N V H → Bool) → Bool)
    (ballot : SCPBallot V) (cur : Interval) : Bool :=
  federatedAccept (attemptAcceptCommitVoted ballot cur) (commitPredicate ballot cur)

/-- Under a monotone federated accept, the search predicate is closed under sub-intervals. -/
theorem acceptCommitPred_closed
    {federatedAccept : (SCPStatement N V H → Bool) → (SCPStatement N V H → Bool) → Bool}
    (hmono : FederatedMonotone federatedAccept) (ballot : SCPBallot V) :
    SubIntervalClosed (acceptCommitPred federatedAccept ballot) := by
  intro a b a' b' h ha hb
  exact hmono _ _ _ _ (fun _ hv => attemptAcceptCommitVoted_mono hv ha hb)
    (fun _ hc => commitPredicate_mono hc ha hb) h

/-- `UINT32_MAX`. -/
def UINT32_MAX : ℕ := 2 ^ 32 - 1

/-- One statement's turn in `getCommitBoundariesFromStatements`: the bounds it names for a
compatible ballot. -/
def emplaceBoundaries (ballot : SCPBallot V) (res : SortedSet ℕ) (st : SCPStatement N V H) :
    SortedSet ℕ :=
  match st.pledges with
  | .prepare p =>
    if areBallotsCompatible ballot p.ballot then
      if p.nC ≠ 0 then (res.emplace p.nC.toNat).emplace p.nH.toNat else res
    else res
  | .confirm c =>
    if areBallotsCompatible ballot c.ballot then (res.emplace c.nCommit.toNat).emplace c.nH.toNat
    else res
  | .externalize e =>
    if areBallotsCompatible ballot e.commit then
      ((res.emplace e.commit.counter.toNat).emplace e.nH.toNat).emplace UINT32_MAX
    else res
  | .nominate _ => res

/-- `BallotProtocol::getCommitBoundariesFromStatements(ballot)` over `mLatestEnvelopes`. -/
def getCommitBoundariesFromStatements (ballot : SCPBallot V)
    (latest : List (N × SCPStatement N V H)) : SortedSet ℕ :=
  latest.foldl (fun res env => emplaceBoundaries ballot res env.2) SortedSet.empty

/-- A statement adds only counters, which fit in 32 bits. -/
theorem le_of_mem_emplaceBoundaries {ballot : SCPBallot V} {res : SortedSet ℕ}
    {st : SCPStatement N V H} (hres : ∀ x ∈ res.toList, x ≤ UINT32_MAX) {x : ℕ}
    (hx : x ∈ (emplaceBoundaries ballot res st).toList) : x ≤ UINT32_MAX := by
  have hlt : ∀ n : UInt32, n.toNat ≤ UINT32_MAX := fun n => by
    have := n.toNat_lt
    unfold UINT32_MAX
    omega
  rcases st with ⟨_, p | c | e | nom⟩
  · simp only [emplaceBoundaries] at hx
    split_ifs at hx
    · simp only [SortedSet.mem_emplace] at hx
      rcases hx with rfl | rfl | hx
      · exact hlt _
      · exact hlt _
      · exact hres x hx
    all_goals exact hres x hx
  · simp only [emplaceBoundaries] at hx
    split_ifs at hx
    · simp only [SortedSet.mem_emplace] at hx
      rcases hx with rfl | rfl | hx
      · exact hlt _
      · exact hlt _
      · exact hres x hx
    · exact hres x hx
  · simp only [emplaceBoundaries] at hx
    split_ifs at hx
    · simp only [SortedSet.mem_emplace] at hx
      rcases hx with rfl | rfl | rfl | hx
      · exact le_rfl
      · exact hlt _
      · exact hlt _
      · exact hres x hx
    · exact hres x hx
  · exact hres x hx

theorem le_of_mem_getCommitBoundariesFromStatements {ballot : SCPBallot V}
    {latest : List (N × SCPStatement N V H)} {x : ℕ}
    (hx : x ∈ (getCommitBoundariesFromStatements ballot latest).toList) : x ≤ UINT32_MAX := by
  unfold getCommitBoundariesFromStatements at hx
  -- the fold keeps every element within 32 bits, from the empty set on
  suffices h : ∀ (l : List (N × SCPStatement N V H)) (res : SortedSet ℕ),
      (∀ y ∈ res.toList, y ≤ UINT32_MAX) →
      ∀ y ∈ (l.foldl (fun res env => emplaceBoundaries ballot res env.2) res).toList, y ≤ UINT32_MAX from
    h latest _ (by simp) x hx
  intro l
  induction l with
  | nil => exact fun res hres => hres
  | cons e l ih =>
    intro res hres
    exact ih _ fun y hy => le_of_mem_emplaceBoundaries hres hy

/-- An interval that the search over the commit boundaries finds from `(0, 0)`, under a predicate
closed under sub-intervals, is the one the search is for; its ends are counters, so the ballots
made of them have these counters, the low one nonzero. -/
theorem findExtendedInterval_commitBoundaries {pred : Interval → Bool}
    (hclosed : SubIntervalClosed pred) (ballot : SCPBallot V)
    (latest : List (N × SCPStatement N V H))
    (hfound : (findExtendedInterval (0, 0) (getCommitBoundariesFromStatements ballot latest)
      pred).1 ≠ 0) :
    let candidate := findExtendedInterval (0, 0) (getCommitBoundariesFromStatements ballot latest) pred
    UInt32.ofNat candidate.1 ≠ 0 ∧
      ExtendedInterval (getCommitBoundariesFromStatements ballot latest).toList pred
        ((UInt32.ofNat candidate.1).toNat, (UInt32.ofNat candidate.2).toNat) := by
  intro candidate
  have hspec : ExtendedInterval _ _ candidate :=
    (findExtendedInterval_eq_iff _ hclosed candidate).mp rfl
  -- both ends are boundaries, so they fit in 32 bits
  have hfit : ∀ x, x ≤ UINT32_MAX → (UInt32.ofNat x).toNat = x := fun x hx =>
    UInt32.toNat_ofNat_of_lt' (lt_of_le_of_lt hx (by decide))
  have hends : candidate.1 ≤ UINT32_MAX ∧ candidate.2 ≤ UINT32_MAX := by
    rcases hspec with ⟨hzero, -⟩ | ⟨hhi, -, -, -, hlo, -⟩
    · exact absurd (congrArg Prod.fst hzero) hfound
    · exact ⟨le_of_mem_getCommitBoundariesFromStatements hlo,
        le_of_mem_getCommitBoundariesFromStatements hhi⟩
  refine ⟨fun h0 => hfound ?_, ?_⟩
  · rw [← hfit _ hends.1, h0]
    rfl
  · rw [hfit _ hends.1, hfit _ hends.2]
    exact hspec

/-! ## `attemptAcceptCommit` up to `setAcceptCommit` -/

/-- `SCPPhase` of the ballot protocol. -/
inductive SCPPhase
  | prepare
  | confirm
  | externalize
  deriving DecidableEq, Repr

/-- The ballot `attemptAcceptCommit` reads off its hint, or `none` where it returns `false` at
once. -/
def acceptCommitBallot : SCPStatementPledges V H → Option (SCPBallot V)
  | .prepare prep => if prep.nC ≠ 0 then some ⟨prep.nH, prep.ballot.value⟩ else none
  | .confirm con => some ⟨con.nH, con.ballot.value⟩
  | .externalize ext => some ⟨ext.nH, ext.commit.value⟩
  -- a NOMINATE hint makes the code abort
  | .nominate _ => none

/-- `BallotProtocol::attemptAcceptCommit` up to its call of `setAcceptCommit`: the commit and
high ballots it passes there, or `none` where it returns `false` before. `federatedAccept voted
accepted` stands for `Slot::federatedAccept(voted, accepted, mLatestEnvelopes)`, and
`highBallot` for `mHighBallot`, which is set in CONFIRM. -/
def attemptAcceptCommit
    (federatedAccept : (SCPStatement N V H → Bool) → (SCPStatement N V H → Bool) → Bool)
    (phase : SCPPhase) (highBallot : Option (SCPBallot V)) (latest : List (N × SCPStatement N V H))
    (hint : SCPStatement N V H) : Option (SCPBallot V × SCPBallot V) :=
  if phase ≠ .prepare ∧ phase ≠ .confirm then none
  else
    match acceptCommitBallot hint.pledges with
    | none => none
    | some ballot =>
      if phase = .confirm ∧ !highBallot.all (areBallotsCompatible ballot) then none
      else
        -- build the boundaries to scan
        let boundaries := getCommitBoundariesFromStatements ballot latest
        if boundaries.toList = [] then none
        else
          -- now, look for the high interval
          let candidate :=
            findExtendedInterval (0, 0) boundaries (acceptCommitPred federatedAccept ballot)
          if candidate.1 ≠ 0 ∧
              (phase ≠ .confirm ∨ highBallot.all fun h => h.counter.toNat < candidate.2) then
            some (⟨UInt32.ofNat candidate.1, ballot.value⟩, ⟨UInt32.ofNat candidate.2, ballot.value⟩)
          else none

/-- Under a monotone federated accept, the ballots `attemptAcceptCommit` hands to
`setAcceptCommit` carry the hint's value and bound the interval the search is for: the highest
boundary at which commit is accepted, extended down to the lowest boundary where it still is. -/
theorem attemptAcceptCommit_extendedInterval
    {federatedAccept : (SCPStatement N V H → Bool) → (SCPStatement N V H → Bool) → Bool}
    (hmono : FederatedMonotone federatedAccept) {phase : SCPPhase}
    {highBallot : Option (SCPBallot V)} {latest : List (N × SCPStatement N V H)}
    {hint : SCPStatement N V H} {c h : SCPBallot V}
    (hres : attemptAcceptCommit federatedAccept phase highBallot latest hint = some (c, h)) :
    ∃ ballot, acceptCommitBallot hint.pledges = some ballot ∧ c.value = ballot.value ∧
      h.value = ballot.value ∧ c.counter ≠ 0 ∧
      ExtendedInterval (getCommitBoundariesFromStatements ballot latest).toList
        (acceptCommitPred federatedAccept ballot) (c.counter.toNat, h.counter.toNat) := by
  unfold attemptAcceptCommit at hres
  split_ifs at hres with hphase
  cases hb : acceptCommitBallot hint.pledges with
  | none => simp [hb] at hres
  | some ballot =>
    simp only [hb] at hres
    split_ifs at hres with hhigh hempty hfound
    obtain ⟨rfl, rfl⟩ := Prod.mk.inj (Option.some.inj hres)
    -- the search returned the interval it is for
    obtain ⟨hne, hspec⟩ :=
      findExtendedInterval_commitBoundaries (acceptCommitPred_closed hmono ballot) ballot latest
        hfound.1
    exact ⟨ballot, rfl, rfl, rfl, hne, hspec⟩

/-- A CONFIRM that accepts commit over `[1, 3]` lets `attemptAcceptCommit` in PREPARE accept
commit over `[1, 3]`. -/
theorem attemptAcceptCommit_extendedInterval_confirm :
    ∃ ballot, acceptCommitBallot (.confirm ⟨⟨3, 7⟩, 3, 1, 3, ()⟩ : SCPStatementPledges ℕ Unit) =
        some ballot ∧ (⟨1, 7⟩ : SCPBallot ℕ).value = ballot.value ∧
      (⟨3, 7⟩ : SCPBallot ℕ).value = ballot.value ∧ (1 : UInt32) ≠ 0 ∧
      ExtendedInterval (getCommitBoundariesFromStatements ballot
          [(0, (⟨0, .confirm ⟨⟨3, 7⟩, 3, 1, 3, ()⟩⟩ : SCPStatement ℕ ℕ Unit))]).toList
        (acceptCommitPred (fun _ a => a ⟨0, .confirm ⟨⟨3, 7⟩, 3, 1, 3, ()⟩⟩) ballot)
        ((1 : UInt32).toNat, (3 : UInt32).toNat) :=
  attemptAcceptCommit_extendedInterval (fun _ _ _ _ _ ha h => ha _ h)
    (show attemptAcceptCommit (fun _ a => a ⟨0, .confirm ⟨⟨3, 7⟩, 3, 1, 3, ()⟩⟩) .prepare none
      [(0, ⟨0, .confirm ⟨⟨3, 7⟩, 3, 1, 3, ()⟩⟩)] ⟨0, .confirm ⟨⟨3, 7⟩, 3, 1, 3, ()⟩⟩ =
        some (⟨1, 7⟩, ⟨3, 7⟩) by decide)

end Commit

end BallotProtocol

end Dexfin.Stellar
