import Dexfin.Bitcoin.ArithUint256

/-!
# Retargeting the proof of work

`CalculateNextWorkRequired` and `CheckProofOfWork` of `pow.cpp`. The time a period of blocks
took is clamped to a quarter and four times `nPowTargetTimespan`, the old target is multiplied
by it through the `uint32_t` overload of `*=`, divided by the timespan, capped at `powLimit`
and encoded again.

With the timespan below `2 ^ 32` and the product `powLimit * 4T` below `2 ^ 256`, nothing is
lost on the way: the new target is the exact quotient, capped (`calculateNextWorkRequired_eq`).
It decodes to a target at most four times the old one, and one that the range check of
`CheckProofOfWork` accepts once the old target is at least 7.

The times are the `int64_t` values of `GetBlockTime()`, differences of 32-bit block times,
read as integers; `powLimit` is read as an `arith_uint256`.
-/

namespace Dexfin.Bitcoin

open ArithUint256

/-- The fields of `Consensus::Params` that retargeting reads. -/
structure PowParams where
  fPowNoRetargeting : Bool
  /-- `int64_t nPowTargetTimespan`. -/
  nPowTargetTimespan : ℤ
  /-- `UintToArith256(params.powLimit)`. -/
  powLimit : ArithUint256

/-- `CalculateNextWorkRequired(pindexLast, nFirstBlockTime, params)`, with `pindexLast` read
through its `nBits` and `GetBlockTime()`. -/
def calculateNextWorkRequired (nBits : UInt32) (lastBlockTime nFirstBlockTime : ℤ)
    (params : PowParams) : Except String UInt32 :=
  if params.fPowNoRetargeting then .ok nBits
  else
    -- Limit adjustment step
    let nActualTimespan := lastBlockTime - nFirstBlockTime
    let nActualTimespan := if nActualTimespan < params.nPowTargetTimespan.tdiv 4 then
      params.nPowTargetTimespan.tdiv 4 else nActualTimespan
    let nActualTimespan := if nActualTimespan > params.nPowTargetTimespan * 4 then
      params.nPowTargetTimespan * 4 else nActualTimespan
    -- Retarget
    let bnPowLimit := params.powLimit
    let bnNew := (setCompact nBits).1
    -- `bnNew *= nActualTimespan` converts the `int64_t` to `uint32_t`
    let bnNew := mulUint32 bnNew (nActualTimespan % 2 ^ 32).toNat.toUInt32
    -- `bnNew /= params.nPowTargetTimespan` through `base_uint(uint64_t)`
    match divAssign bnNew (BitVec.ofNat 256 (params.nPowTargetTimespan % 2 ^ 64).toNat) with
    | .error .divisionByZero => .error "Division by zero"
    | .ok bnNew =>
      let bnNew := if bnNew > bnPowLimit then bnPowLimit else bnNew
      getCompact bnNew false

/-- `CheckProofOfWork(hash, nBits, params)`, with the hash read as an `arith_uint256`. -/
def checkProofOfWork (hash : ArithUint256) (nBits : UInt32) (params : PowParams) : Bool :=
  let (bnTarget, fNegative, fOverflow) := setCompact nBits
  -- Check range
  if fNegative || bnTarget = 0 || fOverflow || bnTarget > params.powLimit then false
  -- Check proof of work matches claimed amount
  else if hash > bnTarget then false
  else true

/-! ## The new target -/

section Retarget

variable {params : PowParams}

/-- The two clamps of the timespan, to `T / 4` from below and `4 * T` from above. -/
theorem clamp_eq {T : ℤ} (hT : 0 ≤ T) (D : ℤ) :
    (if (if D < T.tdiv 4 then T.tdiv 4 else D) > T * 4 then T * 4
      else if D < T.tdiv 4 then T.tdiv 4 else D) = max (T / 4) (min D (T * 4)) := by
  rw [Int.tdiv_eq_ediv_of_nonneg hT]
  split_ifs <;> omega

/-- The product through the `uint32_t` overload is exact when it stays below `2 ^ 256`. -/
theorem toNat_mulUint32_timespan {t : ArithUint256} {ts : ℤ} (hts : 0 ≤ ts) (hts32 : ts < 2 ^ 32)
    (hfits : t.toNat * ts.toNat < 2 ^ 256) :
    (mulUint32 t (ts % 2 ^ 32).toNat.toUInt32).toNat = t.toNat * ts.toNat := by
  have hmod : ts % 2 ^ 32 = ts := Int.emod_eq_of_lt hts hts32
  have hlt : ts.toNat < 2 ^ 32 := by omega
  rw [toNat_mulUint32, hmod, toNat_toUInt32_of_lt hlt, Nat.mod_eq_of_lt hfits]

/-- Dividing by the timespan through `base_uint(uint64_t)` is the exact quotient. -/
theorem divAssign_timespan (x : ArithUint256) {T : ℤ} (hT : 0 < T) (hT64 : T < 2 ^ 64) :
    divAssign x (BitVec.ofNat 256 (T % 2 ^ 64).toNat) =
      .ok (BitVec.ofNat 256 (x.toNat / T.toNat)) := by
  have hmod : T % 2 ^ 64 = T := Int.emod_eq_of_lt hT.le hT64
  have hT256 : T.toNat < 2 ^ 256 := by omega
  have hne : BitVec.ofNat 256 T.toNat ≠ 0 := by
    intro h
    have := congrArg BitVec.toNat h
    rw [BitVec.toNat_ofNat, Nat.mod_eq_of_lt hT256] at this
    simp at this
    omega
  rw [hmod, divAssign_eq, if_neg hne]
  congr 1
  apply BitVec.eq_of_toNat_eq
  rw [BitVec.toNat_udiv, BitVec.toNat_ofNat, BitVec.toNat_ofNat, Nat.mod_eq_of_lt hT256,
    Nat.mod_eq_of_lt (lt_of_le_of_lt (Nat.div_le_self _ _) x.isLt)]

theorem toNat_ofNat_div_of_lt (x : ArithUint256) (d : ℕ) :
    (BitVec.ofNat 256 (x.toNat / d)).toNat = x.toNat / d := by
  rw [BitVec.toNat_ofNat, Nat.mod_eq_of_lt (lt_of_le_of_lt (Nat.div_le_self _ _) x.isLt)]

theorem capped_eq (x p : ArithUint256) :
    (if x > p then p else x) = BitVec.ofNat 256 (min p.toNat x.toNat) := by
  apply BitVec.eq_of_toNat_eq
  rw [BitVec.toNat_ofNat, Nat.mod_eq_of_lt (lt_of_le_of_lt (min_le_left _ _) p.isLt)]
  split
  · next h =>
    rw [GT.gt, BitVec.lt_def] at h
    omega
  · next h =>
    rw [GT.gt, BitVec.lt_def] at h
    omega

/-- With the timespan and the product in range, the new target is the old one times the
clamped timespan over `nPowTargetTimespan`, in exact arithmetic, capped at `powLimit`. -/
theorem calculateNextWorkRequired_eq (hno : params.fPowNoRetargeting = false)
    (hT : 4 ≤ params.nPowTargetTimespan) (hT32 : 4 * params.nPowTargetTimespan < 2 ^ 32)
    (hlimit : params.powLimit.toNat * (4 * params.nPowTargetTimespan).toNat < 2 ^ 256)
    {nBits : UInt32} (htle : (setCompact nBits).1.toNat ≤ params.powLimit.toNat)
    (lastBlockTime nFirstBlockTime : ℤ) :
    calculateNextWorkRequired nBits lastBlockTime nFirstBlockTime params =
      getCompact (BitVec.ofNat 256 (min params.powLimit.toNat
        ((setCompact nBits).1.toNat * (max (params.nPowTargetTimespan / 4)
          (min (lastBlockTime - nFirstBlockTime) (params.nPowTargetTimespan * 4))).toNat /
            params.nPowTargetTimespan.toNat))) false := by
  set T := params.nPowTargetTimespan with hTdef
  set ts := max (T / 4) (min (lastBlockTime - nFirstBlockTime) (T * 4)) with htsdef
  have hts1 : 1 ≤ ts := by omega
  have hts4 : ts ≤ 4 * T := by omega
  -- the product stays below `powLimit * 4T`
  have hfits : (setCompact nBits).1.toNat * ts.toNat < 2 ^ 256 :=
    lt_of_le_of_lt (Nat.mul_le_mul htle (by omega)) hlimit
  unfold calculateNextWorkRequired
  rw [hno, if_neg Bool.false_ne_true]
  dsimp only
  rw [clamp_eq (by omega), ← htsdef, ← hTdef, divAssign_timespan _ (by omega) (by omega)]
  dsimp only
  rw [capped_eq, toNat_ofNat_div_of_lt, toNat_mulUint32_timespan (by omega) (by omega) hfits]

/-- The new target is at most four times the old one. -/
theorem retarget_le_four_mul {t Tn tsn : ℕ} (hts4 : tsn ≤ 4 * Tn) :
    t * tsn / Tn ≤ 4 * t :=
  Nat.div_le_of_le_mul (by
    calc t * tsn ≤ t * (4 * Tn) := Nat.mul_le_mul_left t hts4
      _ = Tn * (4 * t) := by ring)

/-- An old target of at least 7 gives a positive quotient: the timespan is at least `T / 4`,
and `T ≤ 7 * (T / 4)` once `T ≥ 4`. -/
theorem retarget_pos {t Tn tsn : ℕ} (ht : 7 ≤ t) (hT : 0 < Tn) (hcover : Tn ≤ 7 * tsn) :
    0 < t * tsn / Tn := by
  apply Nat.div_pos _ hT
  calc Tn ≤ 7 * tsn := hcover
    _ ≤ t * tsn := Nat.mul_le_mul_right tsn ht

/-- `CheckProofOfWork` of a target that passes the range check compares the hash only. -/
theorem checkProofOfWork_of_range {nBits : UInt32} {t : ArithUint256}
    (hbits : setCompact nBits = (t, false, false)) (ht : t ≠ 0) (hle : t.toNat ≤ params.powLimit.toNat)
    (hash : ArithUint256) : checkProofOfWork hash nBits params = decide (hash ≤ t) := by
  have hnot : ¬ t > params.powLimit := by
    rw [GT.gt, BitVec.lt_def]
    omega
  unfold checkProofOfWork
  rw [hbits]
  dsimp only
  have ht' : ¬ t = 0#256 := ht
  rw [if_neg (by simp [ht', hnot])]
  by_cases hh : hash > t
  · rw [if_pos hh]
    rw [GT.gt, BitVec.lt_def] at hh
    rw [eq_comm, decide_eq_false_iff_not, BitVec.le_def]
    omega
  · rw [if_neg hh]
    rw [GT.gt, BitVec.lt_def] at hh
    rw [eq_comm, decide_eq_true_iff, BitVec.le_def]
    omega

end Retarget

theorem calculateNextWorkRequired_spec (params : PowParams)
    (hno : params.fPowNoRetargeting = false)
    (hT : 4 ≤ params.nPowTargetTimespan) (hT32 : 4 * params.nPowTargetTimespan < 2 ^ 32)
    (hlimit : params.powLimit.toNat * (4 * params.nPowTargetTimespan).toNat < 2 ^ 256)
    (nBits : UInt32) (t : ArithUint256) (hbits : setCompact nBits = (t, false, false))
    (ht : 0 < t.toNat) (htle : t.toNat ≤ params.powLimit.toNat) (lastBlockTime nFirstBlockTime : ℤ) :
    calculateNextWorkRequired nBits lastBlockTime nFirstBlockTime params =
        getCompact (BitVec.ofNat 256 (min params.powLimit.toNat
          (t.toNat * (max (params.nPowTargetTimespan / 4)
            (min (lastBlockTime - nFirstBlockTime) (params.nPowTargetTimespan * 4))).toNat /
              params.nPowTargetTimespan.toNat))) false ∧
      ∃ c t', calculateNextWorkRequired nBits lastBlockTime nFirstBlockTime params = .ok c ∧
        setCompact c = (t', false, false) ∧ t'.toNat ≤ min params.powLimit.toNat (4 * t.toNat) ∧
        (7 ≤ t.toNat → 0 < t'.toNat ∧
          ∀ hash, checkProofOfWork hash c params = decide (hash ≤ t')) := by
  have heq := calculateNextWorkRequired_eq hno hT hT32 hlimit
    (by rw [hbits]; exact htle) lastBlockTime nFirstBlockTime
  rw [hbits] at heq
  refine ⟨heq, ?_⟩
  set T := params.nPowTargetTimespan
  set ts := max (T / 4) (min (lastBlockTime - nFirstBlockTime) (T * 4))
  set m := min params.powLimit.toNat (t.toNat * ts.toNat / T.toNat) with hmdef
  have hm : m < 2 ^ 256 := lt_of_le_of_lt (min_le_left _ _) params.powLimit.isLt
  have hmnat : (BitVec.ofNat 256 m).toNat = m := by rw [BitVec.toNat_ofNat, Nat.mod_eq_of_lt hm]
  have hcut : compactTruncate m (compactExponent m) ≤ m := compactTruncate_le _ _
  have hcut256 : compactTruncate m (compactExponent m) < 2 ^ 256 := lt_of_le_of_lt hcut hm
  have htnat : (BitVec.ofNat 256 (compactTruncate m (compactExponent m))).toNat =
      compactTruncate m (compactExponent m) := by
    rw [BitVec.toNat_ofNat, Nat.mod_eq_of_lt hcut256]
  have hdecode := setCompact_compactOf (BitVec.ofNat 256 m)
  rw [hmnat] at hdecode
  -- the capped quotient is at most `powLimit` and at most four times the old target
  have hmle : m ≤ min params.powLimit.toNat (4 * t.toNat) :=
    le_min (min_le_left _ _)
      ((min_le_right _ _).trans (retarget_le_four_mul (by omega)))
  refine ⟨compactOf m, BitVec.ofNat 256 (compactTruncate m (compactExponent m)), ?_, hdecode,
    by rw [htnat]; exact hcut.trans hmle, fun h7 => ?_⟩
  · rw [heq, getCompact_eq, hmnat]
  · have hpos : 0 < m := by
      rw [hmdef, lt_min_iff]
      exact ⟨by omega, retarget_pos h7 (by omega) (by omega)⟩
    have htpos : 0 < compactTruncate m (compactExponent m) := compactTruncate_pos hpos.ne'
    refine ⟨by rw [htnat]; exact htpos, checkProofOfWork_of_range hdecode ?_ ?_⟩
    · intro h0
      have := congrArg BitVec.toNat h0
      rw [htnat] at this
      simp at this
      omega
    · rw [htnat]
      exact hcut.trans (min_le_left _ _)

/-- A target of 7 (`nBits = 0x01070000`) under a timespan of 4 and a limit of 1000, with
blocks 10 seconds apart. -/
theorem calculateNextWorkRequired_spec_seven :
    setCompact 0x01070000 = (7, false, false) ∧
      calculateNextWorkRequired 0x01070000 10 0 ⟨false, 4, 1000⟩ =
        getCompact (BitVec.ofNat 256 (min (1000 : ArithUint256).toNat
          ((7 : ArithUint256).toNat * (max ((4 : ℤ) / 4) (min (10 - 0) (4 * 4))).toNat /
            (4 : ℤ).toNat))) false := by
  have hbits : setCompact 0x01070000 = (7, false, false) := by decide
  exact ⟨hbits, (calculateNextWorkRequired_spec ⟨false, 4, 1000⟩ rfl (by norm_num) (by norm_num)
    (by decide) 0x01070000 7 hbits (by decide) (by decide) 10 0).1⟩

end Dexfin.Bitcoin
