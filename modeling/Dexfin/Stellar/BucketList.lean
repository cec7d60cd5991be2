import Mathlib.Order.Interval.Finset.Nat
import Mathlib.Tactic.Ring
import Dexfin.Lib.LowBits

/-!
# The bucket list

`BucketList` of stellar-core keeps the ledger entries in `kNumLevels` levels of two buckets
each, `mCurr` and `mSnap`. Each ledger `addBatch` adds its batch to `mCurr` of level 0. Level
`i - 1` spills every `levelHalf (i - 1)` ledgers: its `mCurr` becomes its `mSnap`, level `i`
installs the merge its `FutureBucket` prepared at the previous spill (`commit`), and it
prepares the next one from its `mCurr` and the new snapshot (`prepare`), leaving `mCurr` out
when level `i` itself snapshots at the next spill. The closed forms `sizeOfCurr`,
`sizeOfSnap`, `oldestLedgerInCurr` and `oldestLedgerInSnap` say which ledgers each bucket
holds.

A bucket is modelled as the set of ledgers whose batches it holds. The batches carry
distinct entries, so `Bucket::merge` keeps every entry of both inputs and the shadows drop
nothing; the dead entries are not modelled. Ledger numbers are `uint32_t`: `mask` clears bits
of a 32-bit word, and the one sum that can pass `2^32`, `currLedger + levelHalf(mLevel - 1)`
in `prepare`, is taken modulo `2^32`.
-/

namespace Dexfin.Stellar

/-- `BucketList::kNumLevels`. -/
def kNumLevels : Nat := 11

/-- `BucketList::levelSize`, in ledgers. -/
def levelSize (level : Nat) : Nat := 1 <<< (2 * (level + 1))

/-- `BucketList::levelHalf`. -/
def levelHalf (level : Nat) : Nat := levelSize level >>> 1

/-- `BucketList::mask`: `v & ~(m - 1)` on 32 bits. -/
def mask (v m : Nat) : Nat := v &&& (2 ^ 32 - 1 - (m - 1))

theorem mask_le (v m : Nat) : mask v m ≤ v := Nat.and_le_left

theorem mask_zero (m : Nat) : mask 0 m = 0 := Nat.zero_and _

mutual

/-- `BucketList::sizeOfCurr`: how many ledgers `mCurr` of `level` holds at `ledger`. -/
def sizeOfCurr (ledger level : Nat) : Nat :=
  if level = 0 then
    if ledger = 1 then 1 else 1 + ledger % 2
  else
    let size := levelSize level
    let half := levelHalf level
    if _h : level ≠ kNumLevels - 1 ∧ mask ledger half ≠ 0 then
      let sizeDelta := 1 <<< (2 * level - 1)
      if mask ledger half = ledger ∨ mask ledger size = ledger then sizeDelta
      else
        let prevSize := levelSize (level - 1)
        let prevHalf := levelHalf (level - 1)
        let previousRelevantLedger :=
          max (max (mask (ledger - 1) prevHalf) (mask (ledger - 1) prevSize))
            (max (mask (ledger - 1) half) (mask (ledger - 1) size))
        if mask ledger prevHalf = ledger ∨ mask ledger prevSize = ledger then
          sizeOfCurr previousRelevantLedger level + sizeDelta
        else sizeOfCurr previousRelevantLedger level
    else ledger - lowerLevelsSize ledger level
termination_by (ledger, 3 * level + 1)
decreasing_by
  all_goals first
    | (apply Prod.Lex.right; omega)
    | (apply Prod.Lex.left
       have hne : ledger ≠ 0 := fun h0 => _h.2 (by rw [h0, mask_zero])
       have := mask_le (ledger - 1) (levelHalf (level - 1))
       have := mask_le (ledger - 1) (levelSize (level - 1))
       have := mask_le (ledger - 1) (levelHalf level)
       have := mask_le (ledger - 1) (levelSize level)
       omega)

/-- `BucketList::sizeOfSnap`: how many ledgers `mSnap` of `level` holds at `ledger`. -/
def sizeOfSnap (ledger level : Nat) : Nat :=
  if level = kNumLevels - 1 then 0
  else if mask ledger (levelSize level) ≠ 0 then levelHalf level
  else ledger - (lowerLevelsSize ledger level + sizeOfCurr ledger level)
termination_by (ledger, 3 * level + 2)
decreasing_by all_goals (apply Prod.Lex.right; omega)

/-- The loop of the closed forms over the levels below `level`:
`for (l = 0; l < level; l++) { size += sizeOfCurr(ledger, l); size += sizeOfSnap(ledger, l); }`. -/
def lowerLevelsSize (ledger : Nat) : Nat → Nat
  | 0 => 0
  | l + 1 => lowerLevelsSize ledger l + sizeOfCurr ledger l + sizeOfSnap ledger l
termination_by level => (ledger, 3 * level)
decreasing_by all_goals (apply Prod.Lex.right; omega)

end

/-- `BucketList::oldestLedgerInCurr`. -/
def oldestLedgerInCurr (ledger level : Nat) : Nat :=
  if sizeOfCurr ledger level = 0 then 2 ^ 32 - 1
  else ledger - lowerLevelsSize ledger level - sizeOfCurr ledger level + 1

/-- `BucketList::oldestLedgerInSnap`. -/
def oldestLedgerInSnap (ledger level : Nat) : Nat :=
  if sizeOfSnap ledger level = 0 then 2 ^ 32 - 1
  else ledger - lowerLevelsSize ledger (level + 1) + 1

/-- `BucketList::levelShouldSpill`: the deepest level never spills. -/
def levelShouldSpill (ledger level : Nat) : Bool :=
  if level = kNumLevels - 1 then false
  else ledger == mask ledger (levelHalf level) || ledger == mask ledger (levelSize level)

/-- A bucket, as the ledgers whose batches it holds. -/
abbrev Bucket := Finset Nat

/-- `BucketLevel`: `mNextCurr` is the `FutureBucket`, `some` of its merge when it is live. -/
structure BucketLevel where
  /-- `mLevel`. -/
  mLevel : Nat
  /-- `mCurr`. -/
  mCurr : Bucket
  /-- `mSnap`. -/
  mSnap : Bucket
  /-- `mNextCurr`. -/
  mNextCurr : Option Bucket

/-- `BucketLevel::commit`: install a live merge (`setCurr` clears `mNextCurr`). -/
def BucketLevel.commit (b : BucketLevel) : BucketLevel :=
  match b.mNextCurr with
  | some next => { b with mCurr := next, mNextCurr := none }
  | none => b

/-- `BucketLevel::prepare`: start the merge of `mCurr`, or of nothing when this level
snapshots at the next change, with `snap`. -/
def BucketLevel.prepare (b : BucketLevel) (currLedger : Nat) (snap : Bucket) : BucketLevel :=
  let curr :=
    if b.mLevel ≠ 0 then
      let nextChangeLedger := (currLedger + levelHalf (b.mLevel - 1)) % 2 ^ 32
      if levelShouldSpill nextChangeLedger b.mLevel then ∅ else b.mCurr
    else b.mCurr
  { b with mNextCurr := some (curr ∪ snap) }

/-- `BucketLevel::snap`: `mCurr` becomes `mSnap` and is returned. -/
def BucketLevel.snap (b : BucketLevel) : BucketLevel × Bucket :=
  ({ b with mSnap := b.mCurr, mCurr := ∅ }, b.mCurr)

/-- `BucketList`: `mLevels`, indexed by level; no level from `kNumLevels` up is read. -/
structure BucketList where
  /-- `mLevels`. -/
  mLevels : Nat → BucketLevel

/-- `BucketList()`: every level with empty buckets and no merge. -/
def BucketList.empty : BucketList := ⟨fun i => ⟨i, ∅, ∅, none⟩⟩

/-- One pass of the loop of `addBatch`, at level `i`: level `i - 1` snapshots and level `i`
commits and prepares. -/
def BucketList.spillInto (bl : BucketList) (currLedger i : Nat) : BucketList :=
  if levelShouldSpill currLedger (i - 1) then
    let (below, snap) := (bl.mLevels (i - 1)).snap
    let levels := Function.update bl.mLevels (i - 1) below
    ⟨Function.update levels i (((levels i).commit).prepare currLedger snap)⟩
  else bl

/-- The loop of `addBatch` over the levels `i`, ..., 1, from the top. -/
def BucketList.spillFrom (bl : BucketList) (currLedger : Nat) : Nat → BucketList
  | 0 => bl
  | i + 1 => (bl.spillInto currLedger (i + 1)).spillFrom currLedger i

/-- `BucketList::addBatch`: the spills from the deepest level up, then the batch of
`currLedger` (`Bucket::fresh`) merged into level 0 at once. -/
def BucketList.addBatch (bl : BucketList) (currLedger : Nat) : BucketList :=
  let bl := bl.spillFrom currLedger (kNumLevels - 1)
  ⟨Function.update bl.mLevels 0 (((bl.mLevels 0).prepare currLedger {currLedger}).commit)⟩

/-- The bucket list after `addBatch` for the ledgers `1`, ..., `ledger`. -/
def BucketList.afterLedgers : Nat → BucketList
  | 0 => empty
  | ledger + 1 => (afterLedgers ledger).addBatch (ledger + 1)

/-! ## The arithmetic of the closed forms -/

section Arithmetic

theorem levelSize_eq (level : Nat) : levelSize level = 2 ^ (2 * level + 2) := by
  rw [levelSize, Nat.shiftLeft_eq, Nat.one_mul]
  ring_nf

theorem levelHalf_eq (level : Nat) : levelHalf level = 2 ^ (2 * level + 1) := by
  rw [levelHalf, Nat.shiftRight_eq_div_pow, levelSize_eq, pow_succ]
  simp

theorem levelSize_eq_two_mul (level : Nat) : levelSize level = 2 * levelHalf level := by
  rw [levelSize_eq, levelHalf_eq, pow_succ]
  ring

theorem levelHalf_succ (level : Nat) : levelHalf (level + 1) = 4 * levelHalf level := by
  rw [levelHalf_eq, levelHalf_eq, show 2 * (level + 1) + 1 = 2 * level + 1 + 2 by ring, pow_add]
  ring

theorem levelHalf_pos (level : Nat) : 0 < levelHalf level := by
  rw [levelHalf_eq]
  exact Nat.two_pow_pos _

/-- The levels below hold no more than half of a level. -/
theorem levelHalf_mono {l l' : Nat} (h : l ≤ l') : levelHalf l ∣ levelHalf l' := by
  rw [levelHalf_eq, levelHalf_eq]
  exact Nat.pow_dvd_pow 2 (by omega)

/-- Every level's half divides `2^32`. -/
theorem levelHalf_dvd_two_pow_32 {level : Nat} (hl : level < kNumLevels) :
    levelHalf level ∣ 2 ^ 32 := by
  rw [levelHalf_eq]
  exact Nat.pow_dvd_pow 2 (by unfold kNumLevels at hl; omega)

/-- `mask` on a 32-bit ledger number rounds it down to a multiple of a power of two. -/
theorem mask_two_pow {v k : Nat} (hv : v < 2 ^ 32) (hk : k ≤ 32) :
    mask v (2 ^ k) = v - v % 2 ^ k := by
  have hpos : 1 ≤ 2 ^ k := Nat.one_le_two_pow
  have hle : 2 ^ k ≤ 2 ^ 32 := Nat.pow_le_pow_right (by decide) hk
  rw [mask, show 2 ^ 32 - 1 - (2 ^ k - 1) = 2 ^ 32 - 2 ^ k by omega]
  exact LowBits.land_two_pow_sub_two_pow hv hk

theorem mask_levelHalf {v level : Nat} (hv : v < 2 ^ 32) (hl : level < kNumLevels) :
    mask v (levelHalf level) = v - v % levelHalf level := by
  rw [levelHalf_eq]
  exact mask_two_pow hv (by unfold kNumLevels at hl; omega)

theorem mask_levelSize {v level : Nat} (hv : v < 2 ^ 32) (hl : level < kNumLevels) :
    mask v (levelSize level) = v - v % levelSize level := by
  rw [levelSize_eq]
  exact mask_two_pow hv (by unfold kNumLevels at hl; omega)

/-- Rounding down leaves a number exactly when the modulus divides it. -/
theorem sub_mod_eq_self_iff {v m : Nat} : v - v % m = v ↔ m ∣ v := by
  have hle := Nat.mod_le v m
  constructor
  · intro h
    exact Nat.dvd_of_mod_eq_zero (by omega)
  · intro h
    rw [Nat.mod_eq_zero_of_dvd h, Nat.sub_zero]

/-- Rounding down gives zero exactly below the modulus. -/
theorem sub_mod_eq_zero_iff {v m : Nat} (hm : 0 < m) : v - v % m = 0 ↔ v < m := by
  constructor
  · intro h
    by_contra hlt
    have := Nat.mod_lt v hm
    have hmod : v % m ≠ v := fun heq => absurd (heq ▸ Nat.mod_lt v hm) hlt
    omega
  · intro h
    rw [Nat.mod_eq_of_lt h, Nat.sub_self]

/-- `levelShouldSpill` on a 32-bit ledger number: every multiple of the level's half, except
on the deepest level. -/
theorem levelShouldSpill_iff {v level : Nat} (hv : v < 2 ^ 32) (hl : level < kNumLevels) :
    levelShouldSpill v level = true ↔ level ≠ kNumLevels - 1 ∧ levelHalf level ∣ v := by
  have hsize : levelHalf level ∣ levelSize level := ⟨2, by rw [levelSize_eq_two_mul]; ring⟩
  unfold levelShouldSpill
  split_ifs with hlast
  · simp [hlast]
  · simp only [Bool.or_eq_true, beq_iff_eq, mask_levelHalf hv hl, mask_levelSize hv hl]
    constructor
    · rintro (h | h)
      · exact ⟨hlast, sub_mod_eq_self_iff.1 h.symm⟩
      · exact ⟨hlast, hsize.trans (sub_mod_eq_self_iff.1 h.symm)⟩
    · rintro ⟨-, h⟩
      exact Or.inl (sub_mod_eq_self_iff.2 h).symm

/-- The next change of `prepare`, taken modulo `2^32`: `2^32` is a multiple of every level's
half, so the wrap changes nothing. -/
theorem levelShouldSpill_mod (x : Nat) {level : Nat} (hl : level < kNumLevels) :
    levelShouldSpill (x % 2 ^ 32) level = true ↔
      level ≠ kNumLevels - 1 ∧ levelHalf level ∣ x := by
  rw [levelShouldSpill_iff (Nat.mod_lt _ (by decide)) hl,
    Nat.dvd_mod_iff (levelHalf_dvd_two_pow_32 hl)]

end Arithmetic

/-! ## The closed forms, one equation each -/

section ClosedForms

variable {ledger level : Nat}

theorem sizeOfCurr_level_zero (ledger : Nat) :
    sizeOfCurr ledger 0 = if ledger = 1 then 1 else 1 + ledger % 2 := by
  rw [sizeOfCurr]
  rfl

/-- `sizeOfCurr` above level 0: a fixed size at a spill of the level, one more half of the
level below at each of its spills, and everything the levels below do not hold before the
level first fills or on the deepest level. -/
theorem sizeOfCurr_eq (hv : ledger < 2 ^ 32) (hl : level < kNumLevels) (h0 : level ≠ 0) :
    sizeOfCurr ledger level =
      if level ≠ kNumLevels - 1 ∧ levelHalf level ≤ ledger then
        if levelHalf level ∣ ledger then levelHalf (level - 1)
        else if levelHalf (level - 1) ∣ ledger then
          sizeOfCurr (ledger - levelHalf (level - 1)) level + levelHalf (level - 1)
        else sizeOfCurr (ledger - ledger % levelHalf (level - 1)) level
      else ledger - lowerLevelsSize ledger level := by
  have hprev : level - 1 < kNumLevels := by omega
  have hv1 : ledger - 1 < 2 ^ 32 := by omega
  have hhalf := levelHalf_pos level
  have hph := levelHalf_pos (level - 1)
  have hsucc : levelHalf level = 4 * levelHalf (level - 1) := by
    rw [← levelHalf_succ, Nat.sub_add_cancel (Nat.one_le_iff_ne_zero.2 h0)]
  have hdelta : 1 <<< (2 * level - 1) = levelHalf (level - 1) := by
    rw [Nat.shiftLeft_eq, Nat.one_mul, levelHalf_eq]
    congr 1
    omega
  -- the four roundings of `ledger - 1`: the finest is the largest
  have hprl : max (max (mask (ledger - 1) (levelHalf (level - 1)))
      (mask (ledger - 1) (levelSize (level - 1))))
      (max (mask (ledger - 1) (levelHalf level)) (mask (ledger - 1) (levelSize level))) =
      (ledger - 1) - (ledger - 1) % levelHalf (level - 1) := by
    rw [mask_levelHalf hv1 hprev, mask_levelSize hv1 hprev, mask_levelHalf hv1 hl,
      mask_levelSize hv1 hl]
    have h1 := LowBits.sub_mod_le_sub_mod (v := ledger - 1)
      (show levelHalf (level - 1) ∣ levelSize (level - 1) from
        ⟨2, by rw [levelSize_eq_two_mul]; ring⟩)
    have h2 := LowBits.sub_mod_le_sub_mod (v := ledger - 1) (levelHalf_mono (Nat.sub_le level 1))
    have h3 := LowBits.sub_mod_le_sub_mod (v := ledger - 1)
      (show levelHalf (level - 1) ∣ levelSize level from
        (levelHalf_mono (Nat.sub_le level 1)).trans ⟨2, by rw [levelSize_eq_two_mul]; ring⟩)
    omega
  have hsizeDvd : ∀ {l}, l < kNumLevels →
      (mask ledger (levelHalf l) = ledger ∨ mask ledger (levelSize l) = ledger ↔
        levelHalf l ∣ ledger) := by
    intro l hl'
    rw [mask_levelHalf hv hl', mask_levelSize hv hl', sub_mod_eq_self_iff, sub_mod_eq_self_iff,
      levelSize_eq_two_mul]
    exact ⟨fun h => h.elim id (fun h2 => (Dvd.intro_left 2 rfl).trans h2), Or.inl⟩
  rw [sizeOfCurr]
  simp only [h0, if_false]
  by_cases hmain : level ≠ kNumLevels - 1 ∧ levelHalf level ≤ ledger
  · have hmask : mask ledger (levelHalf level) ≠ 0 := by
      rw [mask_levelHalf hv hl, Ne, sub_mod_eq_zero_iff hhalf]
      omega
    rw [dif_pos ⟨hmain.1, hmask⟩, if_pos hmain]
    simp only [hdelta, hprl, hsizeDvd hl, hsizeDvd hprev]
    split_ifs with hdvd hpdvd
    · rfl
    · -- a spill of the level below: the last one was a half of it earlier
      obtain ⟨q, hq⟩ := hpdvd
      have hlq : (ledger - 1) % levelHalf (level - 1) = levelHalf (level - 1) - 1 := by
        subst hq
        rcases q with _ | q
        · omega
        · rw [show levelHalf (level - 1) * (q + 1) - 1 =
              levelHalf (level - 1) - 1 + levelHalf (level - 1) * q by
            rw [Nat.mul_succ]; omega, Nat.add_mul_mod_self_left, Nat.mod_eq_of_lt (by omega)]
      rw [hlq]
      congr 2
      omega
    · -- between spills of the level below: the same as at the last one
      have hmod : 0 < ledger % levelHalf (level - 1) := by
        rcases Nat.eq_zero_or_pos (ledger % levelHalf (level - 1)) with h | h
        · exact absurd (Nat.dvd_of_mod_eq_zero h) hpdvd
        · exact h
      have hlq : (ledger - 1) % levelHalf (level - 1) = ledger % levelHalf (level - 1) - 1 := by
        have hdecomp := Nat.div_add_mod ledger (levelHalf (level - 1))
        rw [show ledger - 1 = ledger % levelHalf (level - 1) - 1 +
            levelHalf (level - 1) * (ledger / levelHalf (level - 1)) by omega,
          Nat.add_mul_mod_self_left, Nat.mod_eq_of_lt (by have := Nat.mod_lt ledger hph; omega)]
      rw [hlq]
      congr 1
      omega
  · rw [dif_neg (fun h => hmain ⟨h.1, by
        have := h.2
        rw [mask_levelHalf hv hl, Ne, sub_mod_eq_zero_iff hhalf] at this
        omega⟩), if_neg hmain]

/-- `sizeOfSnap`: nothing on the deepest level, a full half once the level has spilled
twice, and before that what the levels below and `mCurr` do not hold. -/
theorem sizeOfSnap_eq (hv : ledger < 2 ^ 32) (hl : level < kNumLevels) :
    sizeOfSnap ledger level =
      if level = kNumLevels - 1 then 0
      else if levelSize level ≤ ledger then levelHalf level
      else ledger - (lowerLevelsSize ledger level + sizeOfCurr ledger level) := by
  have hsize : 0 < levelSize level := by
    rw [levelSize_eq_two_mul]
    exact Nat.mul_pos (by decide) (levelHalf_pos level)
  rw [sizeOfSnap, mask_levelSize hv hl]
  simp only [ne_eq, sub_mod_eq_zero_iff hsize, not_lt]

theorem lowerLevelsSize_succ (ledger l : Nat) :
    lowerLevelsSize ledger (l + 1) =
      lowerLevelsSize ledger l + sizeOfCurr ledger l + sizeOfSnap ledger l := by
  rw [lowerLevelsSize]

theorem lowerLevelsSize_zero (ledger : Nat) : lowerLevelsSize ledger 0 = 0 := by
  rw [lowerLevelsSize]

end ClosedForms

end Dexfin.Stellar
