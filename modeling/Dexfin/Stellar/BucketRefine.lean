import Dexfin.Stellar.BucketSizes

/-!
# The buckets hold what the closed forms say

After `addBatch` for the ledgers `1`, ..., `ledger`, the buckets of the levels hold the
ledgers `1`, ..., `ledger` newest first: `mCurr` of level 0, its `mSnap`, `mCurr` of level 1,
and so on, with the counts of `BucketSizes` (`currSet`, `snapSet`). Each live `FutureBucket`
holds the merge its level prepared at the last spill of the level below (`nextCurrSet`).
`Represents.addBatch` carries this from one ledger to the next, and
`bucketList_closedForms` reads it back through the closed forms of the source.
-/

namespace Dexfin.Stellar

/-! ## Where each bucket's ledgers lie -/

/-- The newest ledger held on `level` or deeper at `ledger`: the levels below hold the newer
ones. -/
def newestIn (ledger level : Nat) : Nat := ledger - belowCount ledger level

/-- The ledgers `mCurr` of `level` holds: the newest of the level's. -/
def currSet (ledger level : Nat) : Bucket :=
  Finset.Ioc (newestIn ledger level - currCount ledger level) (newestIn ledger level)

/-- The ledgers `mSnap` of `level` holds: the level's older ones. -/
def snapSet (ledger level : Nat) : Bucket :=
  Finset.Ioc (newestIn ledger (level + 1)) (newestIn ledger level - currCount ledger level)

/-- The merge that `level ≥ 1` prepared at the last spill of the level below, if there was
one: `mSnap` below with `mCurr`, or alone when the level snapshots at the next spill. -/
def nextCurrSet (ledger level : Nat) : Option Bucket :=
  let p := levelHalf (level - 1)
  if level = 0 ∨ ledger < p then none
  else some ((if Spills (ledger - ledger % p + p) level then ∅ else currSet ledger level) ∪
    snapSet ledger (level - 1))

section Positions

variable (ledger : Nat)

theorem newestIn_zero : newestIn ledger 0 = ledger := by
  simp [newestIn, belowCount]

theorem newestIn_total : newestIn ledger kNumLevels = 0 := by
  simp [newestIn, belowCount_total]

/-- A level's buckets lie between the deeper levels and the levels below. -/
theorem newestIn_succ {level : Nat} (hl : level < kNumLevels) :
    newestIn ledger (level + 1) + snapCount ledger level + currCount ledger level =
      newestIn ledger level := by
  have := belowCount_succ_le hl ledger
  simp only [newestIn, belowCount_succ]
  omega

theorem newestIn_antitone {l l' : Nat} (h : l ≤ l') : newestIn ledger l' ≤ newestIn ledger l :=
  Nat.sub_le_sub_left (belowCount_mono ledger h) ledger

/-- One ledger more: the newest ledger on `level ≥ 1` or deeper moves up by the snapshot
that spills in from the level below. -/
theorem newestIn_succ_ledger {level : Nat} (h1 : 1 ≤ level) (hl : level ≤ kNumLevels) :
    newestIn (ledger + 1) level = newestIn ledger level +
      (if Spills (ledger + 1) (level - 1) then snapCount ledger (level - 1) else 0) := by
  have h := belowCount_succ_ledger ledger h1 hl
  have hle : belowCount ledger level ≤ ledger :=
    (belowCount_mono ledger hl).trans (belowCount_total ledger).le
  simp only [newestIn]
  split_ifs at h ⊢ <;> omega

/-- One ledger more: where `mCurr` of a level starts. A snapshot moves it up to the newest
ledger the level held. -/
theorem boundary_succ_ledger {level : Nat} (hl : level < kNumLevels) :
    newestIn (ledger + 1) level - currCount (ledger + 1) level =
      if Spills (ledger + 1) level then newestIn ledger level
      else newestIn ledger level - currCount ledger level := by
  have hc := newestIn_succ ledger hl
  rcases Nat.eq_zero_or_pos level with rfl | hpos
  · rw [newestIn_zero, newestIn_zero, currCount_succ_zero]
    split_ifs <;> omega
  · have h0 : level ≠ 0 := by omega
    rw [newestIn_succ_ledger ledger (by omega) hl.le, currCount_succ h0 hl]
    by_cases hs : Spills (ledger + 1) level
    · simp only [hs, hs.prev hl, if_true]
      omega
    · simp only [hs, if_false]
      split_ifs <;> omega

end Positions

/-! ## The buckets after one ledger more -/

section Buckets

variable {ledger level : Nat}

/-- `levelShouldSpill` on a 32-bit ledger number decides `Spills`. -/
theorem levelShouldSpill_eq_decide (hv : ledger < 2 ^ 32) (hl : level < kNumLevels) :
    levelShouldSpill ledger level = decide (Spills ledger level) := by
  rw [Bool.eq_iff_iff, decide_eq_true_iff]
  exact levelShouldSpill_iff hv hl

/-- `mSnap` of the level below, by its size. -/
theorem snapSet_eq (hl : level < kNumLevels) :
    snapSet ledger level = Finset.Ioc (newestIn ledger (level + 1))
      (newestIn ledger (level + 1) + snapCount ledger level) := by
  have := newestIn_succ ledger hl
  rw [snapSet, show newestIn ledger level - currCount ledger level =
    newestIn ledger (level + 1) + snapCount ledger level by omega]

/-- A level that does not snapshot keeps `mSnap`. -/
theorem snapSet_succ_of_not_spills (hl : level < kNumLevels)
    (hs : ¬ Spills (ledger + 1) level) : snapSet (ledger + 1) level = snapSet ledger level := by
  rw [snapSet, snapSet, boundary_succ_ledger ledger hl, if_neg hs,
    newestIn_succ_ledger ledger (by omega) (by omega), Nat.add_sub_cancel, if_neg hs,
    Nat.add_zero]

/-- A level that snapshots takes `mCurr` as `mSnap`. -/
theorem snapSet_succ_of_spills (hl : level < kNumLevels) (hs : Spills (ledger + 1) level) :
    snapSet (ledger + 1) level = currSet ledger level := by
  have := newestIn_succ ledger hl
  rw [snapSet, currSet, boundary_succ_ledger ledger hl, if_pos hs,
    newestIn_succ_ledger ledger (by omega) (by omega), Nat.add_sub_cancel, if_pos hs]
  congr 1
  omega

/-- Level 0 takes the new ledger, on its own when it snapshots. -/
theorem currSet_succ_zero :
    currSet (ledger + 1) 0 = (if Spills (ledger + 1) 0 then ∅ else currSet ledger 0) ∪
      {ledger + 1} := by
  have hbound := @boundary_succ_ledger ledger 0 (by decide)
  rw [newestIn_zero, newestIn_zero] at hbound
  rw [currSet, newestIn_zero, hbound]
  split_ifs
  · rw [Finset.empty_union, Nat.Ioc_succ_singleton]
  · rw [currSet, newestIn_zero, ← Nat.Ioc_succ_singleton,
      Finset.Ioc_union_Ioc_eq_Ioc (Nat.sub_le _ _) (Nat.le_succ ledger)]

/-- A level above 0 that the level below does not spill into keeps `mCurr`. -/
theorem currSet_succ_of_not_spills_prev (h0 : level ≠ 0) (hl : level < kNumLevels)
    (hs : ¬ Spills (ledger + 1) (level - 1)) : currSet (ledger + 1) level = currSet ledger level := by
  have hs' : ¬ Spills (ledger + 1) level := fun h => hs (h.prev hl)
  rw [currSet, currSet, boundary_succ_ledger ledger hl, if_neg hs',
    newestIn_succ_ledger ledger (by omega) hl.le, if_neg hs, Nat.add_zero]

/-- A spill from the level below between snapshots adds `mSnap` below to `mCurr`. -/
theorem currSet_succ_of_spills_prev (h0 : level ≠ 0) (hl : level < kNumLevels)
    (hp : Spills (ledger + 1) (level - 1)) (hs : ¬ Spills (ledger + 1) level) :
    currSet (ledger + 1) level = currSet ledger level ∪ snapSet ledger (level - 1) := by
  have hprev : level - 1 + 1 = level := by omega
  rw [currSet, currSet, boundary_succ_ledger ledger hl, if_neg hs,
    newestIn_succ_ledger ledger (by omega) hl.le, if_pos hp, snapSet_eq (by omega), hprev,
    Finset.Ioc_union_Ioc_eq_Ioc (Nat.sub_le _ _) (Nat.le_add_right _ _)]

/-- At a snapshot a level's `mCurr` is the snapshot of the level below. -/
theorem currSet_succ_of_spills (h0 : level ≠ 0) (hl : level < kNumLevels)
    (hs : Spills (ledger + 1) level) :
    currSet (ledger + 1) level = snapSet ledger (level - 1) := by
  have hprev : level - 1 + 1 = level := by omega
  rw [currSet, boundary_succ_ledger ledger hl, if_pos hs,
    newestIn_succ_ledger ledger (by omega) hl.le, if_pos (hs.prev hl), snapSet_eq (by omega),
    hprev]

/-- Between spills of the level below the prepared merge stays. -/
theorem nextCurrSet_succ_of_not_spills_prev (h0 : level ≠ 0) (hl : level < kNumLevels)
    (hs : ¬ Spills (ledger + 1) (level - 1)) :
    nextCurrSet (ledger + 1) level = nextCurrSet ledger level := by
  have hprev : level - 1 ≠ kNumLevels - 1 := by unfold kNumLevels at hl ⊢; omega
  have hp : ¬ levelHalf (level - 1) ∣ ledger + 1 := fun h => hs ⟨hprev, h⟩
  have hpos := levelHalf_pos (level - 1)
  -- the last spill below is the same, and so is what it concerns
  have hlast : ledger + 1 - (ledger + 1) % levelHalf (level - 1) =
      ledger - ledger % levelHalf (level - 1) := by
    have h1 := Nat.div_add_mod (ledger + 1) (levelHalf (level - 1))
    have h2 := Nat.div_add_mod ledger (levelHalf (level - 1))
    rw [Nat.succ_div_of_not_dvd hp] at h1
    omega
  have hlt : ledger + 1 < levelHalf (level - 1) ↔ ledger < levelHalf (level - 1) := by
    constructor
    · omega
    · intro h
      rcases Nat.lt_or_ge (ledger + 1) (levelHalf (level - 1)) with h' | h'
      · exact h'
      · exact absurd (show ledger + 1 = levelHalf (level - 1) by omega ▸ dvd_refl _) hp
  simp only [nextCurrSet, hlt, hlast, currSet_succ_of_not_spills_prev h0 hl hs,
    snapSet_succ_of_not_spills (by omega) hs]

/-- At a spill of the level below, once the level has started, the merge prepared at the
previous spill is `mSnap` below with `mCurr`, or alone if the level snapshots now. -/
theorem nextCurrSet_of_spills_prev (h0 : level ≠ 0) (hp : Spills (ledger + 1) (level - 1))
    (hL : levelHalf (level - 1) ≤ ledger) :
    nextCurrSet ledger level = some ((if Spills (ledger + 1) level then ∅ else currSet ledger level) ∪
      snapSet ledger (level - 1)) := by
  -- the previous spill below was a half below `ledger + 1`
  have hlast : ledger - ledger % levelHalf (level - 1) + levelHalf (level - 1) = ledger + 1 := by
    have hq := div_succ_of_dvd hp.2
    have hd := Nat.div_add_mod ledger (levelHalf (level - 1))
    rw [Nat.mul_succ] at hq
    omega
  simp only [nextCurrSet, hlast, h0, false_or, if_neg (Nat.not_lt.2 hL)]

/-- At a spill of the level below the level prepares the merge of the new snapshot below,
with `mCurr` unless the level snapshots at the next spill. -/
theorem nextCurrSet_succ_of_spills_prev (h0 : level ≠ 0) (hl : level < kNumLevels)
    (hp : Spills (ledger + 1) (level - 1)) :
    nextCurrSet (ledger + 1) level = some ((if Spills (ledger + 1 + levelHalf (level - 1)) level
      then ∅ else currSet (ledger + 1) level) ∪ currSet ledger (level - 1)) := by
  have hle : levelHalf (level - 1) ≤ ledger + 1 := Nat.le_of_dvd (Nat.succ_pos _) hp.2
  have hmod : (ledger + 1) % levelHalf (level - 1) = 0 := Nat.mod_eq_zero_of_dvd hp.2
  simp only [nextCurrSet, h0, false_or, if_neg (Nat.not_lt.2 hle), hmod, Nat.sub_zero,
    snapSet_succ_of_spills (by omega) hp]

/-- Before its first spill the level below holds no snapshot. -/
theorem snapSet_eq_empty_of_lt (hl : level < kNumLevels) (h : ledger < levelHalf level) :
    snapSet ledger level = ∅ := by
  simp [snapSet_eq hl, snapCount_eq_zero_of_lt h]

end Buckets

/-! ## The loop of `addBatch`, level by level -/

namespace BucketLevel

/-- `prepare` above level 0 leaves `mCurr` out when the level snapshots at the next spill of
the level below; the wrap of the next change at `2^32` changes nothing. -/
theorem prepare_of_ne_zero {b : BucketLevel} (h0 : b.mLevel ≠ 0) (hl : b.mLevel < kNumLevels)
    (currLedger : Nat) (snap : Bucket) :
    b.prepare currLedger snap =
      { b with
        mNextCurr := some ((if Spills (currLedger + levelHalf (b.mLevel - 1)) b.mLevel then ∅
          else b.mCurr) ∪ snap) } := by
  have hspill : levelShouldSpill ((currLedger + levelHalf (b.mLevel - 1)) % 2 ^ 32) b.mLevel = true ↔
      Spills (currLedger + levelHalf (b.mLevel - 1)) b.mLevel := levelShouldSpill_mod _ hl
  simp only [prepare, ne_eq, h0, not_false_eq_true, if_true, hspill]

end BucketLevel

namespace BucketList

/-- Level `j` once the loop of `addBatch` has taken its snapshot, if it spills. -/
def snappedLevel (bl : BucketList) (currLedger j : Nat) : BucketLevel :=
  if levelShouldSpill currLedger j then ((bl.mLevels j).snap).1 else bl.mLevels j

/-- Level `j` after the loop of `addBatch`: the loop reaches level `j - 1` after level `j`,
so the snapshot merged into level `j` is the `mCurr` level `j - 1` had before. -/
def spilledLevel (bl : BucketList) (currLedger j : Nat) : BucketLevel :=
  if j ≠ 0 ∧ levelShouldSpill currLedger (j - 1) then
    ((bl.snappedLevel currLedger j).commit).prepare currLedger (bl.mLevels (j - 1)).mCurr
  else bl.snappedLevel currLedger j

/-- The loop from level `k` down: when the levels above `k` are done, level `k` has taken
its snapshot and the levels below are as before, the loop finishes every level. -/
theorem spillFrom_mLevels (bl : BucketList) (currLedger : Nat) :
    ∀ k < kNumLevels, ∀ bl' : BucketList,
      (∀ j < kNumLevels, bl'.mLevels j =
        if k < j then bl.spilledLevel currLedger j
        else if j = k then bl.snappedLevel currLedger j else bl.mLevels j) →
      ∀ j < kNumLevels, (bl'.spillFrom currLedger k).mLevels j = bl.spilledLevel currLedger j := by
  intro k
  induction k with
  | zero =>
    intro _ bl' hbl j hj
    rw [spillFrom, hbl j hj]
    rcases Nat.eq_zero_or_pos j with rfl | hpos
    · simp [spilledLevel]
    · simp [hpos]
  | succ k ih =>
    intro hk bl' hbl
    apply ih (by omega)
    intro j hj
    have hk0 : bl'.mLevels k = bl.mLevels k := by simpa using hbl k (by omega)
    have hk1 : bl'.mLevels (k + 1) = bl.snappedLevel currLedger (k + 1) := by
      simpa using hbl (k + 1) hk
    have hrest := hbl j hj
    -- the pass at `k + 1` changes levels `k` and `k + 1` only
    by_cases hs : levelShouldSpill currLedger k = true
    · have hpass : (bl'.spillInto currLedger (k + 1)).mLevels =
          Function.update (Function.update bl'.mLevels k (bl'.mLevels k).snap.1) (k + 1)
            (((bl'.mLevels (k + 1)).commit).prepare currLedger (bl'.mLevels k).mCurr) := by
        simp [spillInto, hs, BucketLevel.snap]
      rw [hpass]
      rcases lt_trichotomy j (k + 1) with hlt | rfl | hgt
      · rcases Nat.lt_succ_iff_lt_or_eq.1 hlt with hlt' | rfl
        · simp [hrest, Nat.ne_of_lt hlt, Nat.ne_of_lt hlt', show ¬ k + 1 < j by omega,
            show ¬ k < j by omega]
        · simp [hk0, snappedLevel, hs]
      · simp [hk0, hk1, spilledLevel, hs]
      · simp [Function.update_of_ne (Nat.ne_of_gt hgt), Function.update_of_ne (by omega : j ≠ k),
          hrest, hgt, show k < j by omega]
    · have hs' : levelShouldSpill currLedger k = false := by simpa using hs
      rw [show bl'.spillInto currLedger (k + 1) = bl' by simp [spillInto, hs']]
      rcases lt_trichotomy j (k + 1) with hlt | rfl | hgt
      · rcases Nat.lt_succ_iff_lt_or_eq.1 hlt with hlt' | rfl
        · simp [hrest, Nat.ne_of_lt hlt, Nat.ne_of_lt hlt', show ¬ k + 1 < j by omega,
            show ¬ k < j by omega]
        · simp [hk0, snappedLevel, hs']
      · simp [hk1, spilledLevel, hs']
      · simp [hrest, hgt, show k < j by omega]

/-- `addBatch` level by level: the loop, and then on level 0 the new batch merged in at
once. -/
theorem addBatch_mLevels (bl : BucketList) (currLedger : Nat) {j : Nat} (hj : j < kNumLevels) :
    (bl.addBatch currLedger).mLevels j =
      if j = 0 then ((bl.spilledLevel currLedger 0).prepare currLedger {currLedger}).commit
      else bl.spilledLevel currLedger j := by
  -- the deepest level never spills, so the loop starts with its snapshot taken
  have hstart : ∀ j < kNumLevels, bl.mLevels j =
      if kNumLevels - 1 < j then bl.spilledLevel currLedger j
      else if j = kNumLevels - 1 then bl.snappedLevel currLedger j else bl.mLevels j := by
    intro j hj
    have hlast : ¬ kNumLevels - 1 < j := by omega
    by_cases hj' : j = kNumLevels - 1
    · subst hj'
      simp [snappedLevel, levelShouldSpill]
    · simp [hlast, hj']
  have hloop := spillFrom_mLevels bl currLedger (kNumLevels - 1) (by decide) bl hstart
  unfold addBatch
  by_cases h0 : j = 0
  · subst h0
    simp [hloop 0 (by decide)]
  · simp [h0, hloop j hj]

end BucketList

/-! ## The buckets `addBatch` keeps -/

/-- The level the counts describe at `ledger`. -/
def BucketLevel.ofLedger (ledger level : Nat) : BucketLevel :=
  ⟨level, currSet ledger level, snapSet ledger level, nextCurrSet ledger level⟩

/-- Every level of `bl` holds the buckets the counts describe at `ledger`. -/
def BucketList.Represents (bl : BucketList) (ledger : Nat) : Prop :=
  ∀ level < kNumLevels, bl.mLevels level = BucketLevel.ofLedger ledger level

namespace BucketList.Represents

variable {bl : BucketList} {ledger level : Nat}

/-- No ledger yet: every bucket is empty and no merge is live. -/
theorem empty : BucketList.empty.Represents 0 := by
  intro level _
  simp [BucketList.empty, BucketLevel.ofLedger, currSet, snapSet, nextCurrSet, newestIn,
    currCount_zero, levelHalf_pos]

section Step

variable (h : bl.Represents ledger) (hT : ledger + 1 < 2 ^ 32)
include h hT

/-- Level 0 takes its snapshot, if it spills, and then the new batch. -/
theorem levelZero :
    ((bl.spilledLevel (ledger + 1) 0).prepare (ledger + 1) {ledger + 1}).commit =
      BucketLevel.ofLedger (ledger + 1) 0 := by
  have hnone : nextCurrSet (ledger + 1) 0 = none := by simp [nextCurrSet]
  have hspill := @levelShouldSpill_eq_decide (ledger + 1) 0 hT (by decide)
  by_cases hs : Spills (ledger + 1) 0
  · simp [spilledLevel, snappedLevel, hspill, hs, h 0 (by decide), BucketLevel.snap,
      BucketLevel.prepare, BucketLevel.commit, BucketLevel.ofLedger, currSet_succ_zero,
      snapSet_succ_of_spills (by decide) hs, hnone]
  · simp [spilledLevel, snappedLevel, hspill, hs, h 0 (by decide),
      BucketLevel.prepare, BucketLevel.commit, BucketLevel.ofLedger, currSet_succ_zero,
      snapSet_succ_of_not_spills (by decide) hs, hnone]

/-- At a spill of the level below, `commit` installs the merge prepared at the previous one,
on top of the snapshot the level took if it spills too. Before the first spill below
nothing was prepared, and there is nothing to add. -/
theorem commit_snappedLevel (h0 : level ≠ 0) (hl : level < kNumLevels)
    (hp : Spills (ledger + 1) (level - 1)) :
    (bl.snappedLevel (ledger + 1) level).commit =
      ⟨level, currSet (ledger + 1) level, snapSet (ledger + 1) level, none⟩ := by
  have hprev : level - 1 < kNumLevels := by omega
  have hspill := levelShouldSpill_eq_decide hT hl
  rcases Nat.lt_or_ge ledger (levelHalf (level - 1)) with hL | hL
  · have hs : ¬ Spills (ledger + 1) level := by
      intro hs
      have hle := Nat.le_of_dvd (Nat.succ_pos _) hs.2
      rw [levelHalf_eq_four_mul h0] at hle
      omega
    have hnone : nextCurrSet ledger level = none := by simp [nextCurrSet, hL]
    simp [snappedLevel, hspill, hs, h level hl, BucketLevel.commit,
      BucketLevel.ofLedger, hnone, currSet_succ_of_spills_prev h0 hl hp hs,
      snapSet_eq_empty_of_lt hprev hL, snapSet_succ_of_not_spills hl hs]
  · have hnext := nextCurrSet_of_spills_prev h0 hp hL
    by_cases hs : Spills (ledger + 1) level
    · simp [snappedLevel, hspill, hs, h level hl, BucketLevel.snap, BucketLevel.commit,
        BucketLevel.ofLedger, hnext, currSet_succ_of_spills h0 hl hs,
        snapSet_succ_of_spills hl hs]
    · simp [snappedLevel, hspill, hs, h level hl, BucketLevel.commit,
        BucketLevel.ofLedger, hnext, currSet_succ_of_spills_prev h0 hl hp hs,
        snapSet_succ_of_not_spills hl hs]

/-- The loop leaves every level above 0 with the buckets of the next ledger. -/
theorem spilledLevel (h0 : level ≠ 0) (hl : level < kNumLevels) :
    bl.spilledLevel (ledger + 1) level = BucketLevel.ofLedger (ledger + 1) level := by
  have hprev : level - 1 < kNumLevels := by omega
  by_cases hp : Spills (ledger + 1) (level - 1)
  · -- the level commits and prepares the merge with the new snapshot below
    rw [BucketList.spilledLevel, if_pos ⟨h0, (levelShouldSpill_iff hT hprev).2 hp⟩,
      commit_snappedLevel h hT h0 hl hp, BucketLevel.prepare_of_ne_zero h0 hl, h (level - 1) hprev]
    simp [BucketLevel.ofLedger, nextCurrSet_succ_of_spills_prev h0 hl hp]
  · -- the level below does not spill, and neither does this one
    have hs : ¬ Spills (ledger + 1) level := fun hs => hp (hs.prev hl)
    have hspill := levelShouldSpill_iff hT hl
    rw [BucketList.spilledLevel, if_neg (fun hb => hp ((levelShouldSpill_iff hT hprev).1 hb.2)),
      snappedLevel, if_neg (fun hb => hs (hspill.1 hb)), h level hl]
    simp [BucketLevel.ofLedger, currSet_succ_of_not_spills_prev h0 hl hp,
      snapSet_succ_of_not_spills hl hs, nextCurrSet_succ_of_not_spills_prev h0 hl hp]

/-- `addBatch` of the next ledger keeps the representation. -/
theorem addBatch : (bl.addBatch (ledger + 1)).Represents (ledger + 1) := by
  intro level hl
  rw [addBatch_mLevels bl (ledger + 1) hl]
  by_cases h0 : level = 0
  · subst h0
    exact levelZero h hT
  · rw [if_neg h0]
    exact spilledLevel h hT h0 hl

end Step

end BucketList.Represents

/-- Every run of `addBatch` over the ledgers of the 32-bit range keeps the buckets the counts
describe. -/
theorem BucketList.represents_afterLedgers :
    ∀ ledger < 2 ^ 32, (BucketList.afterLedgers ledger).Represents ledger
  | 0, _ => BucketList.Represents.empty
  | ledger + 1, hT => (represents_afterLedgers ledger (by omega)).addBatch hT

/-! ## The closed forms of the source -/

section ClosedForms

variable {ledger level : Nat}

/-- A bucket's ledgers from its oldest one in the encoding of `oldestLedgerInCurr` and
`oldestLedgerInSnap`, where `2^32 - 1` marks an empty bucket. -/
theorem Icc_oldest_eq_Ioc (a c : Nat) :
    Finset.Icc (if c = 0 then 2 ^ 32 - 1 else a + 1)
      ((if c = 0 then 2 ^ 32 - 1 else a + 1) + c - 1) = Finset.Ioc a (a + c) := by
  ext x
  simp only [Finset.mem_Icc, Finset.mem_Ioc]
  split_ifs <;> omega

/-- `mCurr` by `oldestLedgerInCurr` and `sizeOfCurr`. -/
theorem currSet_eq_Icc (h1 : 1 ≤ ledger) (hv : ledger < 2 ^ 32) (hl : level < kNumLevels) :
    currSet ledger level = Finset.Icc (oldestLedgerInCurr ledger level)
      (oldestLedgerInCurr ledger level + sizeOfCurr ledger level - 1) := by
  have hsizes := closedForms_eq_counts h1 hv
  have hlower : lowerLevelsSize ledger level = belowCount ledger level :=
    lowerLevelsSize_eq_belowCount (fun l hl' => hsizes l (by omega))
  have hfit := newestIn_succ ledger hl
  rw [oldestLedgerInCurr, (hsizes level hl).1, hlower, Icc_oldest_eq_Ioc, currSet]
  congr 1
  simp only [newestIn] at hfit ⊢
  omega

/-- `mSnap` by `oldestLedgerInSnap` and `sizeOfSnap`. -/
theorem snapSet_eq_Icc (h1 : 1 ≤ ledger) (hv : ledger < 2 ^ 32) (hl : level < kNumLevels) :
    snapSet ledger level = Finset.Icc (oldestLedgerInSnap ledger level)
      (oldestLedgerInSnap ledger level + sizeOfSnap ledger level - 1) := by
  have hsizes := closedForms_eq_counts h1 hv
  have hlower : lowerLevelsSize ledger (level + 1) = belowCount ledger (level + 1) :=
    lowerLevelsSize_eq_belowCount (fun l hl' => hsizes l (by omega))
  rw [oldestLedgerInSnap, (hsizes level hl).2, hlower, Icc_oldest_eq_Ioc, snapSet_eq hl]
  rfl

/-- The two buckets of a level do not share a ledger. -/
theorem disjoint_currSet_snapSet : Disjoint (currSet ledger level) (snapSet ledger level) :=
  (Finset.Ioc_disjoint_Ioc_of_le le_rfl).symm

/-- Both buckets of a level: the ledgers between the deeper levels and the levels below. -/
theorem currSet_union_snapSet (hl : level < kNumLevels) :
    currSet ledger level ∪ snapSet ledger level =
      Finset.Ioc (newestIn ledger (level + 1)) (newestIn ledger level) := by
  have hfit := newestIn_succ ledger hl
  rw [Finset.union_comm, snapSet, currSet,
    Finset.Ioc_union_Ioc_eq_Ioc (by omega) (Nat.sub_le _ _)]

/-- A deeper level holds older ledgers. -/
theorem disjoint_levels {l l' : Nat} (hll' : l < l') (hl' : l' < kNumLevels) :
    Disjoint (currSet ledger l ∪ snapSet ledger l) (currSet ledger l' ∪ snapSet ledger l') := by
  rw [currSet_union_snapSet (by omega), currSet_union_snapSet hl']
  exact (Finset.Ioc_disjoint_Ioc_of_le (newestIn_antitone ledger hll')).symm

/-- The levels below `level` hold the ledgers newer than those on `level` and deeper. -/
theorem biUnion_levels (hl : level ≤ kNumLevels) :
    (Finset.range level).biUnion (fun l => currSet ledger l ∪ snapSet ledger l) =
      Finset.Ioc (newestIn ledger level) ledger := by
  induction level with
  | zero => simp [newestIn_zero]
  | succ level ih =>
    rw [Finset.range_add_one, Finset.biUnion_insert, currSet_union_snapSet (by omega),
      ih (by omega), Finset.Ioc_union_Ioc_eq_Ioc (newestIn_antitone ledger (Nat.le_succ level))
        (Nat.sub_le _ _)]

end ClosedForms

/-- The ledgers both buckets of a level hold. -/
def BucketLevel.held (b : BucketLevel) : Bucket := b.mCurr ∪ b.mSnap

/-- For every ledger of the 32-bit range, after `addBatch` of the ledgers `1`, ..., `ledger`
each bucket holds the ledgers the closed forms of the source name, and the buckets of all
levels partition the ledgers `1`, ..., `ledger`. -/
theorem bucketList_closedForms {ledger : Nat} (h1 : 1 ≤ ledger) (hv : ledger < 2 ^ 32) :
    (∀ level < kNumLevels,
      ((BucketList.afterLedgers ledger).mLevels level).mCurr =
          Finset.Icc (oldestLedgerInCurr ledger level)
            (oldestLedgerInCurr ledger level + sizeOfCurr ledger level - 1) ∧
      ((BucketList.afterLedgers ledger).mLevels level).mSnap =
          Finset.Icc (oldestLedgerInSnap ledger level)
            (oldestLedgerInSnap ledger level + sizeOfSnap ledger level - 1)) ∧
    (∀ level < kNumLevels, Disjoint ((BucketList.afterLedgers ledger).mLevels level).mCurr
      ((BucketList.afterLedgers ledger).mLevels level).mSnap) ∧
    (∀ l l', l < l' → l' < kNumLevels →
      Disjoint ((BucketList.afterLedgers ledger).mLevels l).held
        ((BucketList.afterLedgers ledger).mLevels l').held) ∧
    (Finset.range kNumLevels).biUnion (fun l => ((BucketList.afterLedgers ledger).mLevels l).held) =
      Finset.Icc 1 ledger := by
  have hrep := BucketList.represents_afterLedgers ledger hv
  have hcurr : ∀ level < kNumLevels,
      ((BucketList.afterLedgers ledger).mLevels level).mCurr = currSet ledger level := by
    intro level hl
    rw [hrep level hl]
    rfl
  have hsnap : ∀ level < kNumLevels,
      ((BucketList.afterLedgers ledger).mLevels level).mSnap = snapSet ledger level := by
    intro level hl
    rw [hrep level hl]
    rfl
  refine ⟨fun level hl => ⟨?_, ?_⟩, fun level hl => ?_, fun l l' hll' hl' => ?_, ?_⟩
  · rw [hcurr level hl, currSet_eq_Icc h1 hv hl]
  · rw [hsnap level hl, snapSet_eq_Icc h1 hv hl]
  · rw [hcurr level hl, hsnap level hl]
    exact disjoint_currSet_snapSet
  · rw [BucketLevel.held, BucketLevel.held, hcurr l (by omega), hsnap l (by omega), hcurr l' hl',
      hsnap l' hl']
    exact disjoint_levels hll' hl'
  · -- every level at once: the ledgers newer than none
    have hunion := @biUnion_levels ledger kNumLevels le_rfl
    rw [newestIn_total] at hunion
    rw [Finset.biUnion_congr rfl (fun l hl => by
        rw [BucketLevel.held, hcurr l (Finset.mem_range.1 hl), hsnap l (Finset.mem_range.1 hl)]),
      hunion]
    ext x
    simp only [Finset.mem_Ioc, Finset.mem_Icc]
    omega

/-- At ledger 5 each bucket holds what the closed forms say. -/
theorem bucketList_closedForms_five :
    (∀ level < kNumLevels,
      ((BucketList.afterLedgers 5).mLevels level).mCurr =
          Finset.Icc (oldestLedgerInCurr 5 level)
            (oldestLedgerInCurr 5 level + sizeOfCurr 5 level - 1) ∧
      ((BucketList.afterLedgers 5).mLevels level).mSnap =
          Finset.Icc (oldestLedgerInSnap 5 level)
            (oldestLedgerInSnap 5 level + sizeOfSnap 5 level - 1)) ∧
    (∀ level < kNumLevels, Disjoint ((BucketList.afterLedgers 5).mLevels level).mCurr
      ((BucketList.afterLedgers 5).mLevels level).mSnap) ∧
    (∀ l l', l < l' → l' < kNumLevels →
      Disjoint ((BucketList.afterLedgers 5).mLevels l).held
        ((BucketList.afterLedgers 5).mLevels l').held) ∧
    (Finset.range kNumLevels).biUnion (fun l => ((BucketList.afterLedgers 5).mLevels l).held) =
      Finset.Icc 1 5 :=
  bucketList_closedForms (by decide) (by decide)

end Dexfin.Stellar
