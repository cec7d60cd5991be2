import Mathlib.Algebra.BigOperators.Group.Finset.Basic
import Mathlib.Algebra.Order.BigOperators.Group.Finset
import Mathlib.Tactic.Ring
import Dexfin.Stellar.BucketList

/-!
# How many ledgers each bucket holds

The spills of the bucket list in counts. Level `i ≥ 1` changes only when level `i - 1`
spills, every `p = levelHalf (i - 1)` ledgers: its `mCurr` then takes the snapshot level
`i - 1` had, on top of what it held, or in place of it when level `i` itself snapshots, and
its `mSnap` takes its `mCurr` when it snapshots, every `levelHalf i = 4 * p` ledgers. So
after `q` spills of the level below `mCurr` holds `currOfHalves i q` ledgers, and after `q`
snapshots of its own `mSnap` holds `snapOfHalves i q`. Level 0 takes one ledger at every
ledger and snapshots every other one.

`currCount_succ`, `snapCount_succ` and `currCount_succ_zero` say how one ledger changes the
counts; `belowCount_total` follows from them: the buckets hold `ledger` ledgers between them.
`closedForms_eq_counts` connects the counts to the closed forms of the source.
-/

namespace Dexfin.Stellar

/-- What `mCurr` of a level holds when the level first snapshots: one ledger on level 0,
and on each level above that and a half of the level below. -/
def firstSnapCount : Nat → Nat
  | 0 => 1
  | level + 1 => firstSnapCount level + levelHalf level

/-- The ledgers `mCurr` of `level ≥ 1` holds after `q` spills of the level below: the first
one brings nothing, the second the first snapshot below, each further one a half below; from
the fourth on the level snapshots every fourth spill, except on the deepest level. -/
def currOfHalves (level q : Nat) : Nat :=
  let p := levelHalf (level - 1)
  if q < 2 then 0
  else if level = kNumLevels - 1 then firstSnapCount (level - 1) + p * (q - 2)
  else if q = 2 then firstSnapCount (level - 1)
  else if q = 3 then firstSnapCount (level - 1) + p
  else p * (q % 4 + 1)

/-- The ledgers `mSnap` of a level holds after `q` snapshots of the level. -/
def snapOfHalves (level q : Nat) : Nat :=
  if q = 0 then 0 else if q = 1 then firstSnapCount level else levelHalf level

/-- The ledgers `mCurr` of `level` holds at `ledger`. -/
def currCount (ledger level : Nat) : Nat :=
  if level = 0 then (if ledger = 0 then 0 else if ledger = 1 then 1 else 1 + ledger % 2)
  else currOfHalves level (ledger / levelHalf (level - 1))

/-- The ledgers `mSnap` of `level` holds at `ledger`: none on the deepest level. -/
def snapCount (ledger level : Nat) : Nat :=
  if level = kNumLevels - 1 then 0 else snapOfHalves level (ledger / levelHalf level)

/-- `levelShouldSpill` as a proposition: `level` snapshots at `ledger`. -/
def Spills (ledger level : Nat) : Prop :=
  level ≠ kNumLevels - 1 ∧ levelHalf level ∣ ledger

instance (ledger level : Nat) : Decidable (Spills ledger level) :=
  inferInstanceAs (Decidable (_ ∧ _))

/-- The ledgers the levels below `level` hold at `ledger`. -/
def belowCount (ledger level : Nat) : Nat :=
  ∑ l ∈ Finset.range level, (currCount ledger l + snapCount ledger l)

theorem belowCount_succ (ledger level : Nat) :
    belowCount ledger (level + 1) =
      belowCount ledger level + (currCount ledger level + snapCount ledger level) :=
  Finset.sum_range_succ _ _

theorem levelHalf_eq_four_mul {level : Nat} (h0 : level ≠ 0) :
    levelHalf level = 4 * levelHalf (level - 1) := by
  rw [← levelHalf_succ, Nat.sub_add_cancel (Nat.one_le_iff_ne_zero.2 h0)]

theorem levelHalf_le {l l' : Nat} (h : l ≤ l') : levelHalf l ≤ levelHalf l' :=
  Nat.le_of_dvd (levelHalf_pos l') (levelHalf_mono h)

/-! ## One ledger more -/

section Step

/-- At a spill of the level below its half divides the next ledger. -/
theorem div_succ_of_dvd {ledger p : Nat} (h : p ∣ ledger + 1) :
    ledger + 1 = p * (ledger / p + 1) := by
  rw [← Nat.succ_div_of_dvd h, Nat.mul_div_cancel' h]

/-- A level snapshots at the spills of the level below whose count is a multiple of four. -/
theorem levelHalf_dvd_iff {ledger level : Nat} (h0 : level ≠ 0)
    (h : levelHalf (level - 1) ∣ ledger + 1) :
    levelHalf level ∣ ledger + 1 ↔ 4 ∣ ledger / levelHalf (level - 1) + 1 := by
  rw [levelHalf_eq_four_mul h0, div_succ_of_dvd h, Nat.mul_comm 4,
    Nat.mul_dvd_mul_iff_left (levelHalf_pos _)]

/-- One more spill of the level below: the snapshot it had joins `mCurr`, which is emptied
first when the level snapshots. -/
theorem currOfHalves_succ (level q : Nat) :
    currOfHalves level (q + 1) =
      (if level ≠ kNumLevels - 1 ∧ 4 ∣ q + 1 then 0 else currOfHalves level q) +
        snapOfHalves (level - 1) q := by
  unfold currOfHalves snapOfHalves
  dsimp only
  rcases q with _ | _ | _ | q
  · simp
  · by_cases hlast : level = kNumLevels - 1 <;> simp [hlast]
  · by_cases hlast : level = kNumLevels - 1 <;> simp [hlast]
  · -- from the fourth spill on
    simp only [show ¬ q + 3 + 1 < 2 by omega, show ¬ q + 3 < 2 by omega,
      show q + 3 + 1 ≠ 2 by omega, show q + 3 + 1 ≠ 3 by omega, show q + 3 ≠ 0 by omega,
      show q + 3 ≠ 1 by omega, show q + 3 ≠ 2 by omega, if_false]
    by_cases hlast : level = kNumLevels - 1
    · -- the deepest level never snapshots
      simp only [hlast, ne_eq, not_true_eq_false, false_and, if_false, if_true,
        show q + 3 + 1 - 2 = (q + 1) + 1 by omega, show q + 3 - 2 = q + 1 by omega,
        Nat.mul_succ]
      omega
    · simp only [hlast, ne_eq, not_false_eq_true, true_and, if_false]
      by_cases hdvd : 4 ∣ q + 3 + 1
      · -- the level snapshots: `mCurr` is the new snapshot below alone
        have hmod : (q + 3 + 1) % 4 = 0 := Nat.mod_eq_zero_of_dvd hdvd
        rw [if_pos hdvd, hmod]
        omega
      · -- between snapshots the new snapshot below adds a half below
        have hq : q ≠ 0 := fun h => hdvd (by rw [h])
        have hmod : (q + 3 + 1) % 4 = (q + 3) % 4 + 1 := by omega
        rw [if_neg hdvd, if_neg (show q + 3 ≠ 3 by omega), hmod, Nat.mul_succ]

/-- A level snapshots only at a spill of the level below. -/
theorem Spills.prev {ledger level : Nat} (hl : level < kNumLevels)
    (h : Spills ledger level) : Spills ledger (level - 1) :=
  ⟨by unfold kNumLevels at hl ⊢; omega, (levelHalf_mono (Nat.sub_le level 1)).trans h.2⟩

/-- Level 0 takes the new ledger, on its own when it snapshots. -/
theorem currCount_succ_zero (ledger : Nat) :
    currCount (ledger + 1) 0 = (if Spills (ledger + 1) 0 then 0 else currCount ledger 0) + 1 := by
  have hspill : Spills (ledger + 1) 0 ↔ 2 ∣ ledger + 1 := by
    simp [Spills, kNumLevels, levelHalf_eq]
  rw [if_congr hspill rfl rfl]
  unfold currCount
  split_ifs <;> omega

/-- A level that snapshots takes its `mCurr` as `mSnap`. -/
theorem snapCount_succ {level : Nat} (hl : level < kNumLevels) (ledger : Nat) :
    snapCount (ledger + 1) level =
      if Spills (ledger + 1) level then currCount ledger level else snapCount ledger level := by
  by_cases hlast : level = kNumLevels - 1
  · simp [snapCount, Spills, hlast]
  by_cases hdvd : levelHalf level ∣ ledger + 1
  · rw [if_pos ⟨hlast, hdvd⟩]
    unfold snapCount currCount
    rw [if_neg hlast, Nat.succ_div_of_dvd hdvd]
    rcases Nat.eq_zero_or_pos level with rfl | hpos
    · -- level 0: one ledger at the first snapshot, two from then on
      have hhalf : levelHalf 0 = 2 := by simp [levelHalf_eq]
      rw [hhalf] at hdvd ⊢
      simp only [snapOfHalves, firstSnapCount, Nat.add_one_ne_zero, if_false]
      split_ifs <;> omega
    · -- above level 0 the level snapshots after a multiple of four spills below
      have h0 : level ≠ 0 := by omega
      have hp : levelHalf (level - 1) ∣ ledger + 1 :=
        (levelHalf_mono (Nat.sub_le level 1)).trans hdvd
      have h4 : 4 ∣ ledger / levelHalf (level - 1) + 1 := (levelHalf_dvd_iff h0 hp).1 hdvd
      have hq : ledger / levelHalf level = ledger / levelHalf (level - 1) / 4 := by
        rw [levelHalf_eq_four_mul h0, Nat.div_div_eq_div_mul, Nat.mul_comm]
      rw [if_neg h0, hq]
      obtain ⟨l, rfl⟩ : ∃ l, level = l + 1 := ⟨level - 1, by omega⟩
      simp only [snapOfHalves, currOfHalves, firstSnapCount, Nat.add_sub_cancel,
        Nat.add_one_ne_zero, if_false, hlast, levelHalf_succ]
      simp only [Nat.add_sub_cancel] at h4
      generalize ledger / levelHalf l = q at h4
      rcases Nat.lt_or_ge q 4 with hq4 | hq4
      · -- the first snapshot: `q = 3`
        have h3 : q = 3 := by omega
        subst h3
        simp
      · have hmod : q % 4 = 3 := by omega
        simp only [show q / 4 + 1 ≠ 1 by omega, if_false, show ¬ q < 2 by omega,
          show q ≠ 2 by omega, show q ≠ 3 by omega, hmod]
        ring
  · rw [if_neg (fun h => hdvd h.2)]
    unfold snapCount
    rw [Nat.succ_div_of_not_dvd hdvd]

/-- A level above 0 changes only at a spill of the level below: it then takes the snapshot
below, on top of `mCurr` or in its place when it snapshots itself. -/
theorem currCount_succ {level : Nat} (h0 : level ≠ 0) (hl : level < kNumLevels) (ledger : Nat) :
    currCount (ledger + 1) level =
      if Spills (ledger + 1) (level - 1) then
        (if Spills (ledger + 1) level then 0 else currCount ledger level) +
          snapCount ledger (level - 1)
      else currCount ledger level := by
  have hprev : level - 1 ≠ kNumLevels - 1 := by unfold kNumLevels at hl ⊢; omega
  unfold currCount
  rw [if_neg h0, if_neg h0]
  by_cases hp : levelHalf (level - 1) ∣ ledger + 1
  · rw [if_pos ⟨hprev, hp⟩, Nat.succ_div_of_dvd hp, currOfHalves_succ]
    have hspill : Spills (ledger + 1) level ↔
        level ≠ kNumLevels - 1 ∧ 4 ∣ ledger / levelHalf (level - 1) + 1 := by
      rw [Spills, levelHalf_dvd_iff h0 hp]
    rw [if_congr hspill rfl rfl, snapCount, if_neg hprev]
  · rw [if_neg (fun h => hp h.2), Nat.succ_div_of_not_dvd hp]

/-- One ledger more: the levels below `level` hold one ledger more, less the snapshot that
spills out of them into `level`. -/
theorem belowCount_succ_ledger (ledger : Nat) {level : Nat} (h1 : 1 ≤ level)
    (hl : level ≤ kNumLevels) :
    belowCount (ledger + 1) level +
        (if Spills (ledger + 1) (level - 1) then snapCount ledger (level - 1) else 0) =
      belowCount ledger level + 1 := by
  induction level, h1 using Nat.le_induction with
  | base =>
    simp only [belowCount, Finset.sum_range_one, Nat.sub_self]
    rw [currCount_succ_zero, snapCount_succ (by decide)]
    split_ifs <;> omega
  | succ j hj ih =>
    -- level `j` takes what spills out of level `j - 1` and lets its own snapshot out
    have hj0 : j ≠ 0 := by omega
    have ih := ih (by omega)
    rw [belowCount_succ, belowCount_succ, currCount_succ hj0 (by omega),
      snapCount_succ (by omega), Nat.add_sub_cancel]
    by_cases hs : Spills (ledger + 1) j
    · have hp := hs.prev (by omega)
      simp only [hs, hp, if_true] at ih ⊢
      omega
    · simp only [hs, if_false]
      by_cases hp : Spills (ledger + 1) (j - 1) <;> simp only [hp, if_true, if_false] at ih ⊢ <;>
        omega

end Step

/-! ## The buckets hold every ledger -/

section Total

theorem currCount_zero (level : Nat) : currCount 0 level = 0 := by
  unfold currCount currOfHalves
  split_ifs <;> simp_all

theorem snapCount_zero (level : Nat) : snapCount 0 level = 0 := by
  unfold snapCount snapOfHalves
  split_ifs <;> simp_all

/-- The buckets of all levels hold `ledger` ledgers between them. -/
theorem belowCount_total (ledger : Nat) : belowCount ledger kNumLevels = ledger := by
  induction ledger with
  | zero => simp [belowCount, currCount_zero, snapCount_zero]
  | succ ledger ih =>
    have h := @belowCount_succ_ledger ledger kNumLevels (by decide) le_rfl
    rw [if_neg (fun hs => hs.1 rfl), ih] at h
    omega

theorem belowCount_mono (ledger : Nat) {l l' : Nat} (h : l ≤ l') :
    belowCount ledger l ≤ belowCount ledger l' :=
  Finset.sum_le_sum_of_subset (Finset.range_mono h)

/-- The levels up to `level` hold no more than every ledger. -/
theorem belowCount_succ_le {level : Nat} (hl : level < kNumLevels) (ledger : Nat) :
    belowCount ledger level + currCount ledger level + snapCount ledger level ≤ ledger := by
  have := belowCount_mono ledger (show level + 1 ≤ kNumLevels by omega)
  rw [belowCount_succ, belowCount_total] at this
  omega

theorem currCount_eq_zero_of_lt {ledger level : Nat} (h0 : level ≠ 0)
    (h : ledger < 2 * levelHalf (level - 1)) : currCount ledger level = 0 := by
  have hq : ledger / levelHalf (level - 1) < 2 :=
    (Nat.div_lt_iff_lt_mul (levelHalf_pos _)).2 (by omega)
  simp [currCount, currOfHalves, h0, hq]

theorem snapCount_eq_zero_of_lt {ledger level : Nat} (h : ledger < levelHalf level) :
    snapCount ledger level = 0 := by
  simp [snapCount, snapOfHalves, Nat.div_eq_of_lt h]

/-- Before a level has spilled twice the levels above it are empty, so the levels up to it
hold every ledger. -/
theorem belowCount_of_lt_levelSize {ledger level : Nat} (hl : level < kNumLevels)
    (h : ledger < levelSize level) : belowCount ledger (level + 1) = ledger := by
  have hvanish : ∀ l, level + 1 ≤ l → l < kNumLevels →
      belowCount ledger (l + 1) = belowCount ledger l := by
    intro l hl1 _
    have hhalf : levelSize level ≤ 2 * levelHalf (l - 1) := by
      rw [levelSize_eq_two_mul]
      exact Nat.mul_le_mul_left 2 (levelHalf_le (by omega))
    have hsnap : levelSize level ≤ levelHalf l := by
      rw [levelSize_eq_two_mul]
      calc 2 * levelHalf level ≤ 4 * levelHalf level := by omega
        _ = levelHalf (level + 1) := (levelHalf_succ level).symm
        _ ≤ levelHalf l := levelHalf_le hl1
    rw [belowCount_succ, currCount_eq_zero_of_lt (by omega) (by omega),
      snapCount_eq_zero_of_lt (by omega)]
    rfl
  have hstep : ∀ n, level + 1 + n ≤ kNumLevels →
      belowCount ledger (level + 1 + n) = belowCount ledger (level + 1) := by
    intro n
    induction n with
    | zero => intro _; rfl
    | succ n ih =>
      intro hn
      rw [← Nat.add_assoc, hvanish _ (by omega) (by omega), ih (by omega)]
  have := hstep (kNumLevels - (level + 1)) (by omega)
  rw [Nat.add_sub_cancel' (by omega), belowCount_total] at this
  exact this.symm

end Total

/-! ## The closed forms of the source -/

section ClosedForms

/-- The loop of the closed forms over the levels below sums the counts, once the closed
forms agree with them there. -/
theorem lowerLevelsSize_eq_belowCount {ledger level : Nat}
    (h : ∀ l < level, sizeOfCurr ledger l = currCount ledger l ∧
      sizeOfSnap ledger l = snapCount ledger l) :
    lowerLevelsSize ledger level = belowCount ledger level := by
  induction level with
  | zero => rw [lowerLevelsSize_zero]; rfl
  | succ l ih =>
    rw [lowerLevelsSize_succ, belowCount_succ, ih (fun l' hl' => h l' (by omega)),
      (h l (by omega)).1, (h l (by omega)).2, Nat.add_assoc]

/-- At a snapshot of a level its `mCurr` is the snapshot of the level below alone. -/
theorem currCount_of_snapshot {ledger level : Nat} (h0 : level ≠ 0)
    (hlast : level ≠ kNumLevels - 1) (hpos : 1 ≤ ledger) (hdvd : levelHalf level ∣ ledger) :
    currCount ledger level = levelHalf (level - 1) := by
  obtain ⟨k, hk⟩ := hdvd
  have hp := levelHalf_pos (level - 1)
  have hq : ledger / levelHalf (level - 1) = 4 * k := by
    rw [hk, levelHalf_eq_four_mul h0, Nat.mul_comm 4, Nat.mul_assoc,
      Nat.mul_div_cancel_left _ hp]
  have hk1 : 1 ≤ k := by
    rcases k with _ | k
    · simp at hk; omega
    · omega
  simp only [currCount, currOfHalves, if_neg h0, hq, hlast, if_false,
    show ¬ 4 * k < 2 by omega, show 4 * k ≠ 2 by omega, show 4 * k ≠ 3 by omega,
    Nat.mul_mod_right, Nat.zero_add, Nat.mul_one]

/-- At a spill of the level below between snapshots, `mCurr` grows by a half below. -/
theorem currCount_of_spill_below {ledger level : Nat} (h0 : level ≠ 0)
    (hlast : level ≠ kNumLevels - 1) (hhalf : levelHalf level ≤ ledger)
    (hdvd : ¬ levelHalf level ∣ ledger) (hpdvd : levelHalf (level - 1) ∣ ledger) :
    currCount (ledger - levelHalf (level - 1)) level + levelHalf (level - 1) =
      currCount ledger level := by
  obtain ⟨q, hq⟩ := hpdvd
  have hp := levelHalf_pos (level - 1)
  have hdiv : ledger / levelHalf (level - 1) = q := by rw [hq, Nat.mul_div_cancel_left _ hp]
  have hq4 : 4 ≤ q := by
    rw [levelHalf_eq_four_mul h0, hq, Nat.mul_comm 4] at hhalf
    exact Nat.le_of_mul_le_mul_left hhalf hp
  have hmod : q % 4 ≠ 0 := fun hm => hdvd (by
    rw [hq, levelHalf_eq_four_mul h0, Nat.mul_comm 4]
    exact Nat.mul_dvd_mul_left _ (Nat.dvd_of_mod_eq_zero hm))
  have hdiv' : (ledger - levelHalf (level - 1)) / levelHalf (level - 1) = q - 1 := by
    rw [hq, ← Nat.mul_sub_one, Nat.mul_div_cancel_left _ hp]
  have hmod' : (q - 1) % 4 + 1 = q % 4 := by omega
  simp only [currCount, currOfHalves, if_neg h0, hdiv, hdiv', hlast, if_false,
    show ¬ q < 2 by omega, show q ≠ 2 by omega, show q ≠ 3 by omega,
    show ¬ q - 1 < 2 by omega, show q - 1 ≠ 2 by omega, show q - 1 ≠ 3 by omega, hmod']
  obtain ⟨m, hm⟩ : ∃ m, q % 4 = m + 1 := ⟨q % 4 - 1, by omega⟩
  rw [hm]
  ring

/-- Between spills of the level below `mCurr` is what it was at the last one. -/
theorem currCount_sub_mod {ledger level : Nat} (h0 : level ≠ 0) :
    currCount (ledger - ledger % levelHalf (level - 1)) level = currCount ledger level := by
  have hp := levelHalf_pos (level - 1)
  have hround : ledger - ledger % levelHalf (level - 1) =
      levelHalf (level - 1) * (ledger / levelHalf (level - 1)) := by
    have := Nat.div_add_mod ledger (levelHalf (level - 1))
    omega
  simp only [currCount, if_neg h0, hround, Nat.mul_div_cancel_left _ hp]

/-- Before a level first fills, and on the deepest level, `mCurr` holds every ledger the
levels below do not. -/
theorem currCount_eq_sub_belowCount {ledger level : Nat} (hl : level < kNumLevels)
    (h : level = kNumLevels - 1 ∨ ledger < levelHalf level) :
    ledger - belowCount ledger level = currCount ledger level := by
  have htotal : belowCount ledger (level + 1) = ledger ∧ snapCount ledger level = 0 := by
    rcases h with hlast | hlt
    · subst hlast
      exact ⟨belowCount_total ledger, by simp [snapCount]⟩
    · refine ⟨belowCount_of_lt_levelSize hl ?_, snapCount_eq_zero_of_lt hlt⟩
      rw [levelSize_eq_two_mul]
      omega
  rw [belowCount_succ] at htotal
  omega

/-- `sizeOfCurr` and `sizeOfSnap` count the ledgers of the buckets, at every ledger of the
32-bit range and on every level. -/
theorem closedForms_eq_counts {ledger : Nat} (h1 : 1 ≤ ledger) (hv : ledger < 2 ^ 32) :
    ∀ level < kNumLevels, sizeOfCurr ledger level = currCount ledger level ∧
      sizeOfSnap ledger level = snapCount ledger level := by
  -- `sizeOfCurr` recurses to earlier ledgers on the same level, and both to lower levels
  induction ledger using Nat.strong_induction_on with
  | _ ledger ihL =>
  intro level
  induction level using Nat.strong_induction_on with
  | _ level ihl =>
  intro hl
  have hlower : lowerLevelsSize ledger level = belowCount ledger level :=
    lowerLevelsSize_eq_belowCount (fun l hl' => ihl l hl' (by omega))
  have hcurr : sizeOfCurr ledger level = currCount ledger level := by
    rcases Nat.eq_zero_or_pos level with rfl | hpos
    · rw [sizeOfCurr_level_zero]
      simp [currCount, show ledger ≠ 0 by omega]
    have h0 : level ≠ 0 := by omega
    have hp := levelHalf_pos (level - 1)
    rw [sizeOfCurr_eq hv hl h0]
    split_ifs with hmain hdvd hpdvd
    · exact (currCount_of_snapshot h0 hmain.1 h1 hdvd).symm
    · -- the last spill below was a half below earlier
      have hhalf := hmain.2
      rw [levelHalf_eq_four_mul h0] at hhalf
      rw [(ihL (ledger - levelHalf (level - 1)) (by omega) (by omega) (by omega) level hl).1]
      exact currCount_of_spill_below h0 hmain.1 hmain.2 hdvd hpdvd
    · have hmod : 0 < ledger % levelHalf (level - 1) :=
        Nat.pos_of_ne_zero (fun h => hpdvd (Nat.dvd_of_mod_eq_zero h))
      have hhalf := hmain.2
      rw [levelHalf_eq_four_mul h0] at hhalf
      have hround : levelHalf (level - 1) ≤ ledger - ledger % levelHalf (level - 1) := by
        have := Nat.div_add_mod ledger (levelHalf (level - 1))
        have hq : 1 ≤ ledger / levelHalf (level - 1) :=
          (Nat.one_le_div_iff hp).2 (by omega)
        have := Nat.mul_le_mul_left (levelHalf (level - 1)) hq
        omega
      rw [(ihL (ledger - ledger % levelHalf (level - 1)) (by omega) (by omega) (by omega)
        level hl).1]
      exact currCount_sub_mod h0
    · rw [hlower]
      exact currCount_eq_sub_belowCount hl (by
        by_cases hlast : level = kNumLevels - 1
        · exact Or.inl hlast
        · exact Or.inr (by omega))
  refine ⟨hcurr, ?_⟩
  rw [sizeOfSnap_eq hv hl]
  split_ifs with hlast hsize
  · simp [snapCount, hlast]
  · -- the level has snapshotted twice
    have hq : 2 ≤ ledger / levelHalf level :=
      (Nat.le_div_iff_mul_le (levelHalf_pos level)).2 (by rw [levelSize_eq_two_mul] at hsize; omega)
    simp only [snapCount, snapOfHalves, if_neg hlast, show ledger / levelHalf level ≠ 0 by omega,
      show ledger / levelHalf level ≠ 1 by omega, if_false]
  · have htotal : belowCount ledger (level + 1) = ledger :=
      belowCount_of_lt_levelSize hl (by omega)
    rw [belowCount_succ] at htotal
    rw [hlower, hcurr]
    omega

end ClosedForms

end Dexfin.Stellar
