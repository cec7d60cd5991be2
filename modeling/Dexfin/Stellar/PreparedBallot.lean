import Dexfin.Stellar.CommitInterval
import Dexfin.Lib.BestOf

/-!
# Accepting and confirming ballots as prepared, and confirming commit
(`scp/BallotProtocol.cpp`)

`attemptPreparedAccept` and `attemptPreparedConfirmed` only try the ballots that some latest
statement may have prepared below a ballot of the hint (`getPrepareCandidates`). Both walk these
candidates from the greatest down.

`attemptPreparedAccept` skips what cannot move `p` or `p'` and hands `setPreparedAccept` the
first candidate that is accepted as prepared: the greatest one that passes
(`attemptPreparedAccept_bestOf`).

`attemptPreparedConfirmed` stops at `h`. The first candidate above it that is confirmed prepared
becomes the new `h`, the greatest one such. From there the same walk goes on down to find `c`, as
long as the ballots compatible with the new `h` stay confirmed prepared and do not fall below the
current ballot `b`. Being prepared passes down to lower ballots of the same value
(`hasPreparedBallot_mono`). So when federated ratification asks no more of a predicate that holds
of more statements, that walk never stops on a failure: `c` is the lowest candidate compatible with
the new `h` between `b` and it (`attemptPreparedConfirmed_bestOf`).

`attemptConfirmCommit` searches the commit boundaries as `attemptAcceptCommit` does, with federated
ratification in place of federated acceptance (`attemptConfirmCommit_extendedInterval`).
-/

namespace Dexfin.Stellar

namespace BallotProtocol

open Best

variable {N V H : Type*} [LinearOrder V]

/-! ## The candidates -/

/-- `BallotProtocol::hasPreparedBallot(ballot, st)`: `st` accepts `ballot` as prepared. -/
def hasPreparedBallot (ballot : SCPBallot V) (st : SCPStatement N V H) : Bool :=
  match st.pledges with
  | .prepare p =>
    p.prepared.any (areBallotsLessAndCompatible ballot) ||
      p.preparedPrime.any (areBallotsLessAndCompatible ballot)
  | .confirm c => areBallotsLessAndCompatible ballot ⟨c.nPrepared, c.ballot.value⟩
  | .externalize e => areBallotsCompatible ballot e.commit
  -- a NOMINATE statement makes the code abort
  | .nominate _ => false

/-- A statement that accepts a ballot as prepared accepts every lower ballot of its value. -/
theorem hasPreparedBallot_mono {ballot ballot' : SCPBallot V} {st : SCPStatement N V H}
    (hle : ballot' ≤ ballot) (hval : ballot'.value = ballot.value)
    (h : hasPreparedBallot ballot st = true) : hasPreparedBallot ballot' st = true := by
  -- below and compatible with `ballot`, so with whatever `ballot` is below and compatible with
  have hlc : ∀ b, areBallotsLessAndCompatible ballot b = true →
      areBallotsLessAndCompatible ballot' b = true := by
    intro b hb
    rw [areBallotsLessAndCompatible_iff] at hb ⊢
    exact ⟨hle.trans hb.1, hval.trans hb.2⟩
  rcases st with ⟨_, p | c | e | nom⟩
  · simp only [hasPreparedBallot, Bool.or_eq_true, Option.any_eq_true] at h ⊢
    rcases h with ⟨b, hb, hpb⟩ | ⟨b, hb, hpb⟩
    · exact Or.inl ⟨b, hb, hlc b hpb⟩
    · exact Or.inr ⟨b, hb, hlc b hpb⟩
  · exact hlc _ h
  · simp only [hasPreparedBallot, areBallotsCompatible, decide_eq_true_eq] at h ⊢
    exact hval.trans h
  · exact h

/-- The ballots of the hint that `getPrepareCandidates` looks below. -/
def prepareHintBallots : SCPStatementPledges V H → SortedSet (SCPBallot V)
  | .prepare prep =>
    let s := SortedSet.empty.emplace prep.ballot
    let s := match prep.prepared with
      | some p => s.emplace p
      | none => s
    match prep.preparedPrime with
    | some pp => s.emplace pp
    | none => s
  | .confirm con =>
    (SortedSet.empty.emplace ⟨con.nPrepared, con.ballot.value⟩).emplace
      ⟨UInt32.ofNat UINT32_MAX, con.ballot.value⟩
  | .externalize ext => SortedSet.empty.emplace ⟨UInt32.ofNat UINT32_MAX, ext.commit.value⟩
  -- a NOMINATE hint makes the code abort
  | .nominate _ => SortedSet.empty

/-- One latest statement's turn in `getPrepareCandidates`: the ballots it may have prepared
below `topVote`. -/
def emplacePrepareCandidates (topVote : SCPBallot V) (candidates : SortedSet (SCPBallot V))
    (st : SCPStatement N V H) : SortedSet (SCPBallot V) :=
  match st.pledges with
  | .prepare prep =>
    let c := if areBallotsLessAndCompatible prep.ballot topVote then candidates.emplace prep.ballot
      else candidates
    let c := match prep.prepared with
      | some p => if areBallotsLessAndCompatible p topVote then c.emplace p else c
      | none => c
    match prep.preparedPrime with
    | some pp => if areBallotsLessAndCompatible pp topVote then c.emplace pp else c
    | none => c
  | .confirm con =>
    if areBallotsCompatible topVote con.ballot then
      let c := candidates.emplace topVote
      if con.nPrepared < topVote.counter then c.emplace ⟨con.nPrepared, topVote.value⟩ else c
    else candidates
  | .externalize ext =>
    if areBallotsCompatible topVote ext.commit then candidates.emplace topVote else candidates
  | .nominate _ => candidates

/-- `BallotProtocol::getPrepareCandidates(hint)` over `mLatestEnvelopes`: the hint's ballots are
taken from the greatest down, and below each every latest statement adds what it may have
prepared. -/
def getPrepareCandidates (hint : SCPStatement N V H) (latest : List (N × SCPStatement N V H)) :
    SortedSet (SCPBallot V) :=
  (prepareHintBallots hint.pledges).toList.reverse.foldl
    (fun candidates topVote =>
      latest.foldl (fun c env => emplacePrepareCandidates topVote c env.2) candidates)
    SortedSet.empty

/-- The fields of `BallotProtocol` that the searches read: `mPhase`, `mCurrentBallot` (`b`),
`mPrepared` (`p`), `mPreparedPrime` (`p'`), `mHighBallot` (`h`) and `mCommit` (`c`). -/
structure BallotState (V : Type*) where
  phase : SCPPhase
  currentBallot : Option (SCPBallot V)
  prepared : Option (SCPBallot V)
  preparedPrime : Option (SCPBallot V)
  highBallot : Option (SCPBallot V)
  commit : Option (SCPBallot V)
  deriving DecidableEq, Repr

/-! ## `attemptPreparedAccept` up to `setPreparedAccept` -/

/-- Walked from the greatest down, a set's first element that passes a test is the greatest that
does. -/
theorem bestOf_find?_reverse (s : SortedSet (SCPBallot V)) (p : SCPBallot V → Bool) :
    BestOf (· > ·) {x | x ∈ s.toList ∧ p x = true} (s.toList.reverse.find? p) := by
  refine (bestOf_find? (s.pairwise_reverse.imp fun hab hba => lt_asymm hab hba) p).of_eq ?_
  ext x
  simp

/-- `federatedRatify` holds of a predicate that holds of more statements than one it holds of. -/
def RatifyMonotone (federatedRatify : (SCPStatement N V H → Bool) → Bool) : Prop :=
  ∀ v v', (∀ st, v st = true → v' st = true) → federatedRatify v = true → federatedRatify v' = true

/-- `ballot` is confirmed prepared: federated ratification of `hasPreparedBallot`. -/
def preparedRatified (federatedRatify : (SCPStatement N V H → Bool) → Bool)
    (ballot : SCPBallot V) : Bool :=
  federatedRatify (hasPreparedBallot ballot)

/-- Under a monotone federated ratification, a ballot confirmed prepared makes every lower ballot
of its value confirmed prepared. -/
theorem preparedRatified_mono {federatedRatify : (SCPStatement N V H → Bool) → Bool}
    (hmono : RatifyMonotone federatedRatify) {ballot ballot' : SCPBallot V} (hle : ballot' ≤ ballot)
    (hval : ballot'.value = ballot.value) (h : preparedRatified federatedRatify ballot = true) :
    preparedRatified federatedRatify ballot' = true :=
  hmono _ _ (fun _ hst => hasPreparedBallot_mono hle hval hst) h

/-- The first loop of `attemptPreparedConfirmed`, from the greatest candidate down: the first one
above `h` that is confirmed prepared, with the candidates from it on, where the loop leaves
`cur`. -/
def preparedConfirmedHigh (ratified : SCPBallot V → Bool) (highBallot : Option (SCPBallot V)) :
    List (SCPBallot V) → Option (SCPBallot V × List (SCPBallot V))
  | [] => none
  | ballot :: rest =>
    -- only consider it if we can potentially raise h
    if highBallot.any (fun h => decide (compareBallots h ballot ≥ 0)) then none
    else if ratified ballot then some (ballot, ballot :: rest)
    else preparedConfirmedHigh ratified highBallot rest

/-- The second loop, from `newH` down: the last candidate compatible with `newH` before one below
the current ballot `b` or one compatible with `newH` that is not confirmed prepared. Where there
is no current ballot the code compares with `SCPBallot()`, below every ballot. -/
def preparedConfirmedCommit (ratified : SCPBallot V → Bool) (b : Option (SCPBallot V))
    (newH : SCPBallot V) : Option (SCPBallot V) → List (SCPBallot V) → Option (SCPBallot V)
  | newC, [] => newC
  | newC, ballot :: rest =>
    if b.any (fun b => decide (compareBallots ballot b < 0)) then newC
    -- c and h must be compatible
    else if !areBallotsLessAndCompatible ballot newH then
      preparedConfirmedCommit ratified b newH newC rest
    else if ratified ballot then preparedConfirmedCommit ratified b newH (some ballot) rest
    else newC

/-- The test before the second loop: `c` is looked for only when there is none, and when the new
`h` is not below and incompatible with `p` or `p'`. -/
def preparedConfirmedSetsCommit (st : BallotState V) (newH : SCPBallot V) : Bool :=
  st.commit.isNone && !st.prepared.any (areBallotsLessAndIncompatible newH) &&
    !st.preparedPrime.any (areBallotsLessAndIncompatible newH)

/-- `BallotProtocol::attemptPreparedConfirmed(hint)` up to its call of `setPreparedConfirmed`:
the new `c`, `none` where the code leaves it as `SCPBallot()`, and the new `h`; or `none` where
it returns `false`. `federatedRatify voted` stands for
`Slot::federatedRatify(voted, mLatestEnvelopes)`. -/
def attemptPreparedConfirmed (federatedRatify : (SCPStatement N V H → Bool) → Bool)
    (st : BallotState V) (latest : List (N × SCPStatement N V H)) (hint : SCPStatement N V H) :
    Option (Option (SCPBallot V) × SCPBallot V) :=
  if st.phase ≠ .prepare then none
  -- check if we could accept this ballot as prepared
  else if st.prepared.isNone then none
  else
    match preparedConfirmedHigh (preparedRatified federatedRatify) st.highBallot
        (getPrepareCandidates hint latest).toList.reverse with
    | none => none
    | some (newH, cur) =>
      -- now, look for newC, continuing where the first loop left off (`cur` is at newH)
      if preparedConfirmedSetsCommit st newH then
        some (preparedConfirmedCommit (preparedRatified federatedRatify) st.currentBallot newH
          none cur, newH)
      else some (none, newH)

/-- The first loop stops at `h`: a candidate it stops at is one no greater than `h`. -/
theorem any_compareBallots_nonneg (o : Option (SCPBallot V)) (ballot : SCPBallot V) :
    o.any (fun h => decide (compareBallots h ballot ≥ 0)) = !o.all (· < ballot) := by
  cases o with
  | none => rfl
  | some h =>
    simp only [Option.any_some, Option.all_some, ge_iff_le, ← not_lt,
      compareBallots_threeWay.neg_iff, id, ← decide_not]

/-- The second loop stops below `b`. -/
theorem any_compareBallots_neg (o : Option (SCPBallot V)) (ballot : SCPBallot V) :
    o.any (fun b => decide (compareBallots ballot b < 0)) = !o.all (· ≤ ballot) := by
  cases o with
  | none => rfl
  | some b =>
    simp only [Option.any_some, Option.all_some, compareBallots_threeWay.neg_iff, id, ← decide_not,
      not_le]

/-- On candidates from the greatest down, the first loop finds the first candidate above `h`
that is confirmed prepared: once it is at `h`, every later candidate is too. -/
theorem preparedConfirmedHigh_fst {ratified : SCPBallot V → Bool}
    {highBallot : Option (SCPBallot V)} {l : List (SCPBallot V)} (hl : l.Pairwise (· > ·)) :
    (preparedConfirmedHigh ratified highBallot l).map Prod.fst =
      l.find? fun ballot => highBallot.all (· < ballot) && ratified ballot := by
  induction l with
  | nil => rfl
  | cons ballot rest ih =>
    have hb := List.pairwise_cons.mp hl
    rw [preparedConfirmedHigh, any_compareBallots_nonneg, List.find?_cons]
    by_cases habove : highBallot.all (· < ballot) = true
    · -- above `h`: taken when it is confirmed prepared
      by_cases hr : ratified ballot = true
      · simp [habove, hr]
      · simp [habove, hr, ih hb.2]
    · -- at or below `h`, and so is every later candidate
      obtain ⟨h, rfl, hle⟩ : ∃ h, highBallot = some h ∧ ballot ≤ h := by
        cases highBallot with
        | none => simp at habove
        | some h => exact ⟨h, rfl, by simpa using habove⟩
      have hrest : ∀ x ∈ rest, ¬(decide (h < x) && ratified x) = true := by
        intro x hx
        simp only [Bool.and_eq_true, decide_eq_true_eq, not_and]
        exact fun hlt => absurd ((hb.1 x hx).trans_le hle) (lt_asymm hlt)
      simp only [habove, Bool.not_false, if_true, Option.map_none, Option.all_some, Bool.false_and]
      exact (List.find?_eq_none.mpr hrest).symm

/-- Where the first loop finds the new `h`, it leaves `cur` at it: the candidates from it on. -/
theorem preparedConfirmedHigh_eq_some {ratified : SCPBallot V → Bool}
    {highBallot : Option (SCPBallot V)} {l : List (SCPBallot V)} {newH : SCPBallot V}
    {cur : List (SCPBallot V)} (h : preparedConfirmedHigh ratified highBallot l = some (newH, cur)) :
    ∃ pre rest, l = pre ++ newH :: rest ∧ cur = newH :: rest := by
  induction l with
  | nil => simp [preparedConfirmedHigh] at h
  | cons ballot l ih =>
    unfold preparedConfirmedHigh at h
    split_ifs at h with hstop hr
    · -- found here
      obtain ⟨rfl, rfl⟩ := Prod.mk.inj (Option.some.inj h)
      exact ⟨[], l, rfl, rfl⟩
    · obtain ⟨pre, rest, rfl, rfl⟩ := ih h
      exact ⟨ballot :: pre, rest, rfl, rfl⟩

/-- The second loop, over candidates from the greatest down that are all confirmed prepared where
they are compatible with `newH`: it never stops on a failure, so it ends at the lowest candidate
compatible with `newH` at or above `b`. The induction is on the candidates left; `seen` are the
compatible ones passed so far, all above those left, with `newC` the lowest. -/
theorem preparedConfirmedCommit_bestOf {ratified : SCPBallot V → Bool} {b : Option (SCPBallot V)}
    {newH : SCPBallot V} {l : List (SCPBallot V)} (hl : l.Pairwise (· > ·))
    (hrat : ∀ c ∈ l, areBallotsLessAndCompatible c newH = true → ratified c = true)
    {seen : Set (SCPBallot V)} {newC : Option (SCPBallot V)} (hseen : BestOf (· < ·) seen newC)
    (habove : ∀ c ∈ l, ∀ s ∈ seen, c < s) :
    BestOf (· < ·)
      (seen ∪ {c | c ∈ l ∧ areBallotsLessAndCompatible c newH = true ∧ b.all (· ≤ c) = true})
      (preparedConfirmedCommit ratified b newH newC l) := by
  induction l generalizing seen newC with
  | nil => simpa [preparedConfirmedCommit] using hseen
  | cons ballot rest ih =>
    have hb := List.pairwise_cons.mp hl
    rw [preparedConfirmedCommit, any_compareBallots_neg]
    by_cases hbelow : b.all (· ≤ ballot) = true
    · by_cases hcompat : areBallotsLessAndCompatible ballot newH = true
      · -- compatible, so confirmed prepared: the lowest so far
        have hr := hrat ballot List.mem_cons_self hcompat
        simp only [hbelow, hcompat, hr, Bool.not_true, if_true]
        have hnew : BestOf (· < ·) (insert ballot seen) (some ballot) :=
          isBest_insert fun s hs hlt => lt_asymm hlt (habove ballot List.mem_cons_self s hs)
        refine (ih hb.2 (fun c hc => hrat c (List.mem_cons_of_mem _ hc)) hnew ?_).of_eq ?_
        · intro c hc s hs
          rcases hs with rfl | hs
          · exact hb.1 c hc
          · exact (hb.1 c hc).trans (habove ballot List.mem_cons_self s hs)
        · ext x
          simp only [Set.mem_union, Set.mem_insert_iff, Set.mem_ofPred_eq, List.mem_cons]
          constructor
          · rintro ((rfl | hx) | hx)
            · exact Or.inr ⟨Or.inl rfl, hcompat, hbelow⟩
            · exact Or.inl hx
            · exact Or.inr ⟨Or.inr hx.1, hx.2⟩
          · rintro (hx | ⟨rfl | hx, hx'⟩)
            · exact Or.inl (Or.inr hx)
            · exact Or.inl (Or.inl rfl)
            · exact Or.inr ⟨hx, hx'⟩
      · -- incompatible with `newH`: skipped
        simp only [hbelow, hcompat, Bool.not_true, Bool.not_false, if_true]
        refine (ih hb.2 (fun c hc => hrat c (List.mem_cons_of_mem _ hc)) hseen
          (fun c hc => habove c (List.mem_cons_of_mem _ hc))).of_eq ?_
        ext x
        simp only [Set.mem_union, Set.mem_ofPred_eq, List.mem_cons]
        constructor
        · rintro (hx | ⟨hx, hx'⟩)
          · exact Or.inl hx
          · exact Or.inr ⟨Or.inr hx, hx'⟩
        · rintro (hx | ⟨rfl | hx, hx'⟩)
          · exact Or.inl hx
          · exact absurd hx'.1 hcompat
          · exact Or.inr ⟨hx, hx'⟩
    · -- below `b`, and so is every later candidate: the loop stops
      simp only [hbelow, Bool.not_false, if_true]
      obtain ⟨b, rfl, hlt⟩ : ∃ b', b = some b' ∧ ballot < b' := by
        cases b with
        | none => simp at hbelow
        | some b' => exact ⟨b', rfl, by simpa using hbelow⟩
      refine hseen.of_eq ?_
      ext x
      simp only [Set.mem_union, Set.mem_ofPred_eq, List.mem_cons, Option.all_some,
        decide_eq_true_eq]
      constructor
      · exact Or.inl
      · rintro (hx | ⟨rfl | hx, -, hle⟩)
        · exact hx
        · exact absurd hle (not_le.mpr hlt)
        · exact absurd hle (not_le.mpr ((hb.1 x hx).trans hlt))

/-- Under a monotone federated ratification, `attemptPreparedConfirmed` raises `h` to the greatest
candidate above it that is confirmed prepared, and returns `false` when there is none; and where
it looks for `c`, it hands `setPreparedConfirmed` the lowest candidate compatible with the new `h`
between the current ballot and it, or leaves `c` unset when there is none. -/
theorem attemptPreparedConfirmed_bestOf {federatedRatify : (SCPStatement N V H → Bool) → Bool}
    (hmono : RatifyMonotone federatedRatify) (st : BallotState V)
    (latest : List (N × SCPStatement N V H)) (hint : SCPStatement N V H) :
    BestOf (· > ·)
        {newH | st.phase = .prepare ∧ st.prepared.isSome = true ∧
          newH ∈ (getPrepareCandidates hint latest).toList ∧ st.highBallot.all (· < newH) = true ∧
          preparedRatified federatedRatify newH = true}
        ((attemptPreparedConfirmed federatedRatify st latest hint).map Prod.snd) ∧
      ∀ newC newH, attemptPreparedConfirmed federatedRatify st latest hint = some (newC, newH) →
        BestOf (· < ·)
          {c | preparedConfirmedSetsCommit st newH = true ∧
            c ∈ (getPrepareCandidates hint latest).toList ∧ c.value = newH.value ∧ c ≤ newH ∧
            st.currentBallot.all (· ≤ c) = true}
          newC := by
  have hsorted := (getPrepareCandidates hint latest).pairwise_reverse
  unfold attemptPreparedConfirmed
  split_ifs with hphase hprep
  · -- outside PREPARE the code returns `false` at once
    refine ⟨?_, by simp⟩
    rw [Option.map_none, bestOf_none, Set.eq_empty_iff_forall_notMem]
    exact fun x hx => hphase hx.1
  · -- and so it does with no `p`
    refine ⟨?_, by simp⟩
    rw [Option.map_none, bestOf_none, Set.eq_empty_iff_forall_notMem]
    intro x hx
    exact absurd hx.2.1 (by simp [Option.isNone_iff_eq_none.mp hprep])
  · -- the new `h` is what the first loop finds
    have hphase' : st.phase = .prepare := not_not.mp hphase
    have hprep' : st.prepared.isSome = true := Option.isSome_iff_ne_none.mpr (by simpa using hprep)
    have hhigh := bestOf_find?_reverse (getPrepareCandidates hint latest)
      (fun ballot => st.highBallot.all (· < ballot) && preparedRatified federatedRatify ballot)
    rw [← preparedConfirmedHigh_fst hsorted] at hhigh
    have hset : {newH | st.phase = .prepare ∧ st.prepared.isSome = true ∧
          newH ∈ (getPrepareCandidates hint latest).toList ∧ st.highBallot.all (· < newH) = true ∧
          preparedRatified federatedRatify newH = true} =
        {x | x ∈ (getPrepareCandidates hint latest).toList ∧
          (st.highBallot.all (· < x) && preparedRatified federatedRatify x) = true} := by
      ext x
      simp [hphase', hprep']
    cases hres : preparedConfirmedHigh (preparedRatified federatedRatify) st.highBallot
        (getPrepareCandidates hint latest).toList.reverse with
    | none =>
      rw [hres] at hhigh
      exact ⟨hhigh.of_eq hset.symm, by simp⟩
    | some p =>
      obtain ⟨newH, cur⟩ := p
      rw [hres] at hhigh
      have hratH : preparedRatified federatedRatify newH = true := by
        have hpass := hhigh.1.2
        rw [Bool.and_eq_true] at hpass
        exact hpass.2
      obtain ⟨pre, rest, hl, rfl⟩ := preparedConfirmedHigh_eq_some hres
      dsimp only
      refine ⟨?_, ?_⟩
      · split_ifs <;> exact hhigh.of_eq hset.symm
      · intro newC newH' h
        split_ifs at h with hsets
        · -- `c` is what the second loop finds from the new `h` down
          obtain ⟨rfl, rfl⟩ := Prod.mk.inj (Option.some.inj h)
          rw [hl] at hsorted
          have hcur : (newH :: rest).Pairwise (· > ·) :=
            hsorted.sublist (List.sublist_append_right pre _)
          refine (preparedConfirmedCommit_bestOf hcur ?_
            (show BestOf (· < ·) (∅ : Set (SCPBallot V)) none from rfl) (by simp)).of_eq ?_
          · -- every candidate below the new `h` with its value is confirmed prepared with it
            intro c _ hcompat
            rw [areBallotsLessAndCompatible_iff] at hcompat
            exact preparedRatified_mono hmono hcompat.1 hcompat.2 hratH
          · ext c
            have hmem := SortedList.mem_cons_iff_of_append hsorted (y := c)
            rw [← hl, List.mem_reverse] at hmem
            simp only [Set.empty_union, Set.mem_ofPred_eq, hmem, areBallotsLessAndCompatible_iff,
              hsets, true_and]
            tauto
        · -- `c` is left unset
          obtain ⟨rfl, rfl⟩ := Prod.mk.inj (Option.some.inj h)
          rw [bestOf_none, Set.eq_empty_iff_forall_notMem]
          exact fun c hc => hsets hc.1

/-- A CONFIRM that has prepared `(3, 7)`, ratifying alone, confirms `(3, 7)` prepared: it is the
new `h`, and the new `c` too, the only candidate between the current ballot `(1, 7)` and it. -/
theorem attemptPreparedConfirmed_bestOf_confirm :
    BestOf (· > ·)
        {newH | SCPPhase.prepare = .prepare ∧ (some (⟨1, 7⟩ : SCPBallot ℕ)).isSome = true ∧
          newH ∈ (getPrepareCandidates (⟨0, .confirm ⟨⟨3, 7⟩, 3, 1, 3, ()⟩⟩ : SCPStatement ℕ ℕ Unit)
            [(0, ⟨0, .confirm ⟨⟨3, 7⟩, 3, 1, 3, ()⟩⟩)]).toList ∧
          (none : Option (SCPBallot ℕ)).all (· < newH) = true ∧
          preparedRatified (fun v => v ⟨0, .confirm ⟨⟨3, 7⟩, 3, 1, 3, ()⟩⟩) newH = true}
        ((attemptPreparedConfirmed (fun v => v ⟨0, .confirm ⟨⟨3, 7⟩, 3, 1, 3, ()⟩⟩)
          ⟨.prepare, some ⟨1, 7⟩, some ⟨1, 7⟩, none, none, none⟩
          [(0, ⟨0, .confirm ⟨⟨3, 7⟩, 3, 1, 3, ()⟩⟩)] ⟨0, .confirm ⟨⟨3, 7⟩, 3, 1, 3, ()⟩⟩).map
          Prod.snd) ∧
      ∀ newC newH, attemptPreparedConfirmed (fun v => v ⟨0, .confirm ⟨⟨3, 7⟩, 3, 1, 3, ()⟩⟩)
          ⟨.prepare, some ⟨1, 7⟩, some ⟨1, 7⟩, none, none, none⟩
          [(0, ⟨0, .confirm ⟨⟨3, 7⟩, 3, 1, 3, ()⟩⟩)] ⟨0, .confirm ⟨⟨3, 7⟩, 3, 1, 3, ()⟩⟩ =
          some (newC, newH) →
        BestOf (· < ·)
          {c | preparedConfirmedSetsCommit ⟨.prepare, some ⟨1, 7⟩, some ⟨1, 7⟩, none, none, none⟩
              newH = true ∧
            c ∈ (getPrepareCandidates (⟨0, .confirm ⟨⟨3, 7⟩, 3, 1, 3, ()⟩⟩ : SCPStatement ℕ ℕ Unit)
              [(0, ⟨0, .confirm ⟨⟨3, 7⟩, 3, 1, 3, ()⟩⟩)]).toList ∧ c.value = newH.value ∧
            c ≤ newH ∧ (some (⟨1, 7⟩ : SCPBallot ℕ)).all (· ≤ c) = true}
          newC :=
  attemptPreparedConfirmed_bestOf (fun _ _ h hv => h _ hv)
    ⟨.prepare, some ⟨1, 7⟩, some ⟨1, 7⟩, none, none, none⟩
    [(0, ⟨0, .confirm ⟨⟨3, 7⟩, 3, 1, 3, ()⟩⟩)] ⟨0, .confirm ⟨⟨3, 7⟩, 3, 1, 3, ()⟩⟩

/-! ## `attemptConfirmCommit` up to `setConfirmCommit` -/

/-- The ballot `attemptConfirmCommit` reads off its hint, or `none` where it returns `false` at
once. -/
def confirmCommitBallot : SCPStatementPledges V H → Option (SCPBallot V)
  | .prepare _ => none
  | .confirm con => some ⟨con.nH, con.ballot.value⟩
  | .externalize ext => some ⟨ext.nH, ext.commit.value⟩
  -- a NOMINATE hint makes the code abort
  | .nominate _ => none

/-- The predicate `attemptConfirmCommit` searches with: commit is confirmed over `cur`. -/
def confirmCommitPred (federatedRatify : (SCPStatement N V H → Bool) → Bool)
    (ballot : SCPBallot V) (cur : Interval) : Bool :=
  federatedRatify (commitPredicate ballot cur)

/-- Under a monotone federated ratification, the search predicate is closed under
sub-intervals. -/
theorem confirmCommitPred_closed {federatedRatify : (SCPStatement N V H → Bool) → Bool}
    (hmono : RatifyMonotone federatedRatify) (ballot : SCPBallot V) :
    SubIntervalClosed (confirmCommitPred federatedRatify ballot) := by
  intro a b a' b' h ha hb
  exact hmono _ _ (fun _ hc => commitPredicate_mono hc ha hb) h

/-- `BallotProtocol::attemptConfirmCommit(hint)` up to its call of `setConfirmCommit`: the commit
and high ballots it passes there, or `none` where it returns `false` before. -/
def attemptConfirmCommit (federatedRatify : (SCPStatement N V H → Bool) → Bool)
    (st : BallotState V) (latest : List (N × SCPStatement N V H)) (hint : SCPStatement N V H) :
    Option (SCPBallot V × SCPBallot V) :=
  if st.phase ≠ .confirm then none
  else
    match st.highBallot, st.commit with
    | some _, some commit =>
      -- extracts value from hint
      match confirmCommitBallot hint.pledges with
      | none => none
      | some ballot =>
        if !areBallotsCompatible ballot commit then none
        else
          let candidate := findExtendedInterval (0, 0)
            (getCommitBoundariesFromStatements ballot latest) (confirmCommitPred federatedRatify ballot)
          if candidate.1 ≠ 0 then
            some (⟨UInt32.ofNat candidate.1, ballot.value⟩, ⟨UInt32.ofNat candidate.2, ballot.value⟩)
          else none
    | _, _ => none

/-- Under a monotone federated ratification, the ballots `attemptConfirmCommit` hands to
`setConfirmCommit` carry the value of the hint, which is that of `c`, and bound the interval the
search is for: the highest boundary at which commit is confirmed, extended down to the lowest
boundary where it still is. -/
theorem attemptConfirmCommit_extendedInterval
    {federatedRatify : (SCPStatement N V H → Bool) → Bool} (hmono : RatifyMonotone federatedRatify)
    {st : BallotState V} {latest : List (N × SCPStatement N V H)} {hint : SCPStatement N V H}
    {c h : SCPBallot V}
    (hres : attemptConfirmCommit federatedRatify st latest hint = some (c, h)) :
    ∃ ballot commit, confirmCommitBallot hint.pledges = some ballot ∧ st.phase = .confirm ∧
      st.commit = some commit ∧ commit.value = ballot.value ∧ c.value = ballot.value ∧
      h.value = ballot.value ∧ c.counter ≠ 0 ∧
      ExtendedInterval (getCommitBoundariesFromStatements ballot latest).toList
        (confirmCommitPred federatedRatify ballot) (c.counter.toNat, h.counter.toNat) := by
  unfold attemptConfirmCommit at hres
  split_ifs at hres with hphase
  split at hres
  · -- `h` and `c` are set
    rename_i commit _ hcommit
    cases hb : confirmCommitBallot hint.pledges with
    | none => simp [hb] at hres
    | some ballot =>
      simp only [hb] at hres
      split_ifs at hres with hcompat hfound
      obtain ⟨rfl, rfl⟩ := Prod.mk.inj (Option.some.inj hres)
      -- the search returned the interval it is for
      obtain ⟨hne, hspec⟩ := findExtendedInterval_commitBoundaries
        (confirmCommitPred_closed hmono ballot) ballot latest hfound
      have hval : ballot.value = commit.value := by simpa [areBallotsCompatible] using hcompat
      exact ⟨ballot, commit, rfl, not_not.mp hphase, hcommit, hval.symm, rfl, rfl, hne, hspec⟩
  · simp at hres

/-- A CONFIRM that has committed `[1, 3]` of value `7`, ratifying alone, confirms commit over
`[1, 3]` for a node in CONFIRM with `c = (1, 7)`. -/
theorem attemptConfirmCommit_extendedInterval_confirm :
    ∃ ballot commit, confirmCommitBallot
        (.confirm ⟨⟨3, 7⟩, 3, 1, 3, ()⟩ : SCPStatementPledges ℕ Unit) = some ballot ∧
      SCPPhase.confirm = .confirm ∧ some (⟨1, 7⟩ : SCPBallot ℕ) = some commit ∧
      commit.value = ballot.value ∧ (⟨1, 7⟩ : SCPBallot ℕ).value = ballot.value ∧
      (⟨3, 7⟩ : SCPBallot ℕ).value = ballot.value ∧ (1 : UInt32) ≠ 0 ∧
      ExtendedInterval (getCommitBoundariesFromStatements ballot
          [(0, (⟨0, .confirm ⟨⟨3, 7⟩, 3, 1, 3, ()⟩⟩ : SCPStatement ℕ ℕ Unit))]).toList
        (confirmCommitPred (fun v => v ⟨0, .confirm ⟨⟨3, 7⟩, 3, 1, 3, ()⟩⟩) ballot)
        ((1 : UInt32).toNat, (3 : UInt32).toNat) :=
  attemptConfirmCommit_extendedInterval (fun _ _ h hv => h _ hv)
    (show attemptConfirmCommit (fun v => v ⟨0, .confirm ⟨⟨3, 7⟩, 3, 1, 3, ()⟩⟩)
      ⟨.confirm, some ⟨3, 7⟩, some ⟨1, 7⟩, none, some ⟨3, 7⟩, some ⟨1, 7⟩⟩
      [(0, ⟨0, .confirm ⟨⟨3, 7⟩, 3, 1, 3, ()⟩⟩)] ⟨0, .confirm ⟨⟨3, 7⟩, 3, 1, 3, ()⟩⟩ =
        some (⟨1, 7⟩, ⟨3, 7⟩) by decide)

end BallotProtocol

end Dexfin.Stellar
