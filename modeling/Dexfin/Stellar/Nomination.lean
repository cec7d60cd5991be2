import Dexfin.Stellar.NodeInQuorum
import Dexfin.Stellar.Numeric
import Dexfin.Lib.ArgMax

/-!
# Round leaders of the nomination protocol (`scp/LocalNode.cpp`, `scp/NominationProtocol.cpp`)

Each round of nomination follows the nodes of the highest priority. A node's priority is a
hash of it when a second hash of it falls below its weight, and `0` otherwise. The weight of a
node in a quorum set is the chance that a slice picked at random holds it, scaled to
`UINT64_MAX`. At each level from the top down to the validators that hold the node, it is
multiplied by `threshold / size`.

`LocalNode::getNodeWeight` computes the weight with `bigDivide`, rounding up at each level,
and returns the result `bigDivide` writes even where it reports an overflow.
`nodeWeight` is the same weight over the rationals, without rounding. On a sane quorum set,
`getNodeWeight_spec` says that the weight is zero exactly for a node the set does not hold and
is never below the exact weight, so no quotient is cut to 64 bits.
`NominationProtocol::updateRoundLeaders` removes the local node from its quorum set with
`normalizeQSet`, then keeps the nodes of the highest priority (`updateRoundLeaders_spec`). The
weights it reads are right too, for normalizing a sane set keeps every threshold within its
number of members (`getNodeWeight_normalizeQSet`).
-/

namespace Dexfin.Stellar

namespace LocalNode

open SCPQuorumSet

variable {N : Type*} [DecidableEq N]

/-! ## `getNodeWeight` -/

/-- The `result` that `bigDivide(uint64_t& result, A, B, C, rounding)` writes: the 128-bit
quotient cut to 64 bits, written whether it fits or not. -/
def bigDivideUnsignedResult (A B C : BitVec 64) (rounding : Rounding) : BitVec 64 :=
  let a : Uint128 := A.setWidth 128
  let b : Uint128 := B.setWidth 128
  let c : Uint128 := C.setWidth 128
  let x := if rounding = .roundDown then a * b / c else (a * b + c - 1) / c
  x.setWidth 64

/-- Where `bigDivide` succeeds, the result it writes is the one it reports. -/
theorem bigDivideUnsignedResult_of_eq_some {A B C w : BitVec 64} {rounding : Rounding}
    (h : bigDivideUnsigned A B C rounding = some w) : bigDivideUnsignedResult A B C rounding = w := by
  simp only [bigDivideUnsigned, Option.ite_none_right_eq_some] at h
  exact Option.some.inj h.2

mutual
/-- `LocalNode::getNodeWeight`: for a validator `UINT64_MAX * threshold / size`, for a node of
an inner set the weight there times `threshold / size`, both rounded up by `bigDivide`, and
`0` for a node the set does not hold. The result of `bigDivide` is returned whether it reports
success or not. -/
def getNodeWeight (nodeID : N) : SCPQuorumSet N → BitVec 64
  | ⟨threshold, validators, innerSets⟩ =>
    let n : BitVec 64 := BitVec.ofNat 64 threshold.toNat
    let d : BitVec 64 := BitVec.ofNat 64 (innerSets.length + validators.length)
    if nodeID ∈ validators then
      bigDivideUnsignedResult (BitVec.ofNat 64 UINT64_MAX) n d .roundUp
    else innerWeight nodeID n d innerSets

/-- The loop over the inner sets of `getNodeWeight`: the first nonzero weight, times
`n / d`. -/
def innerWeight (nodeID : N) (n d : BitVec 64) : List (SCPQuorumSet N) → BitVec 64
  | [] => 0
  | q :: qs =>
    let leafW := getNodeWeight nodeID q
    if leafW ≠ 0 then bigDivideUnsignedResult leafW n d .roundUp else innerWeight nodeID n d qs
end

example : getNodeWeight 3 (⟨1, [1], [⟨1, [3, 4], []⟩]⟩ : SCPQuorumSet ℕ) =
    BitVec.ofNat 64 (2 ^ 62) := by
  decide

mutual
/-- The weight of a node without rounding: `threshold / size` for a validator, and for a node
of an inner set the weight in the first inner set that gives it one, times
`threshold / size`. -/
def nodeWeight (nodeID : N) : SCPQuorumSet N → ℚ
  | ⟨t, vs, is⟩ =>
    if nodeID ∈ vs then (t.toNat : ℚ) / (is.length + vs.length)
    else innerNodeWeight nodeID is * t.toNat / (is.length + vs.length)

/-- The weight of a node in the first inner set that gives it one. -/
def innerNodeWeight (nodeID : N) : List (SCPQuorumSet N) → ℚ
  | [] => 0
  | i :: is => if nodeWeight nodeID i ≠ 0 then nodeWeight nodeID i else innerNodeWeight nodeID is
end

/-- No threshold exceeds its number of members, of which there are fewer than `2 ^ 64`. -/
def WeightsInRange (q : SCPQuorumSet N) : Prop :=
  AllLevels (fun q => q.threshold.toNat ≤ q.size ∧ q.size < 2 ^ 64) q

/-! ## One level -/

/-- A quotient rounded up is at least the exact one. -/
theorem div_le_ceilDiv (x : ℕ) {d : ℕ} (hd : 0 < d) : (x : ℚ) / d ≤ (x ⌈/⌉ d : ℕ) := by
  have hle : x ≤ d * (x ⌈/⌉ d) := (ceilDiv_le_iff_le_mul hd).mp le_rfl
  rw [div_le_iff₀ (by exact_mod_cast hd)]
  exact_mod_cast hle.trans_eq (mul_comm _ _)

/-- The `bigDivide` of one level: for a threshold of at most the number of members, it
succeeds, with the quotient rounded up, which is at most the weight it scales. -/
theorem bigDivide_level (A : BitVec 64) {n d : ℕ} (hn : n ≤ d) (hd : 0 < d) (hd' : d < 2 ^ 64) :
    bigDivideUnsigned A (BitVec.ofNat 64 n) (BitVec.ofNat 64 d) .roundUp =
      some (BitVec.ofNat 64 (A.toNat * n ⌈/⌉ d)) ∧ A.toNat * n ⌈/⌉ d ≤ A.toNat := by
  have hn' : (BitVec.ofNat 64 n).toNat = n := by
    rw [BitVec.toNat_ofNat, Nat.mod_eq_of_lt (by omega)]
  have hd'' : (BitVec.ofNat 64 d).toNat = d := by
    rw [BitVec.toNat_ofNat, Nat.mod_eq_of_lt hd']
  have hle : A.toNat * n ⌈/⌉ d ≤ A.toNat :=
    (ceilDiv_le_iff_le_mul hd).mpr (by rw [mul_comm d]; exact Nat.mul_le_mul_left _ hn)
  have hne : BitVec.ofNat 64 d ≠ 0 := fun h => by
    have := congrArg BitVec.toNat h
    rw [hd''] at this
    simp at this
    omega
  refine ⟨?_, hle⟩
  rw [bigDivideUnsigned_eq _ _ _ hne, hn', hd'', if_pos]
  · rfl
  · exact hle.trans (by simpa [UINT64_MAX] using Nat.le_pred_of_lt A.isLt)

/-- The rounded quotient is zero exactly when the product is. -/
theorem ceilDiv_eq_zero_iff (x : ℕ) {d : ℕ} (hd : 0 < d) : x ⌈/⌉ d = 0 ↔ x = 0 := by
  rw [← Nat.le_zero, ceilDiv_le_iff_le_mul hd, Nat.mul_zero, Nat.le_zero]

/-- What `getNodeWeight` returns for a node: a weight that is zero exactly when the exact
weight is, and never below the exact weight scaled to `UINT64_MAX`. -/
structure WeightOf (nodeID : N) (q : SCPQuorumSet N) (w : BitVec 64) : Prop where
  eq_zero_iff : w = 0 ↔ nodeWeight nodeID q = 0
  le : (UINT64_MAX : ℚ) * nodeWeight nodeID q ≤ w.toNat

/-- One level scales a weight `A`, of exact weight `W`, by `n / d`, and keeps both properties
of `WeightOf`. -/
theorem scale_level {A : BitVec 64} {W : ℚ} (hA0 : A = 0 ↔ W = 0)
    (hA : (UINT64_MAX : ℚ) * W ≤ A.toNat) {n d : ℕ} (hn : n ≤ d) (hd : 0 < d) (hd' : d < 2 ^ 64) :
    (bigDivideUnsignedResult A (BitVec.ofNat 64 n) (BitVec.ofNat 64 d) .roundUp = 0 ↔
        W * n / d = 0) ∧
      (UINT64_MAX : ℚ) * (W * n / d) ≤
        (bigDivideUnsignedResult A (BitVec.ofNat 64 n) (BitVec.ofNat 64 d) .roundUp).toNat := by
  obtain ⟨hw, hle⟩ := bigDivide_level A hn hd hd'
  rw [bigDivideUnsignedResult_of_eq_some hw]
  have hw' : (BitVec.ofNat 64 (A.toNat * n ⌈/⌉ d)).toNat = A.toNat * n ⌈/⌉ d := by
    rw [BitVec.toNat_ofNat, Nat.mod_eq_of_lt (hle.trans_lt A.isLt)]
  refine ⟨?_, ?_⟩
  · -- the quotient vanishes exactly with the weight or the threshold
    have hz : A.toNat = 0 ↔ W = 0 := by
      rw [← hA0, ← BitVec.toNat_inj]
      rfl
    rw [← BitVec.toNat_inj, hw', show (0 : BitVec 64).toNat = 0 from rfl,
      ceilDiv_eq_zero_iff _ hd, Nat.mul_eq_zero, hz, div_eq_zero_iff, mul_eq_zero, Nat.cast_eq_zero]
    simp [hd.ne']
  · calc (UINT64_MAX : ℚ) * (W * n / d) = (UINT64_MAX * W) * n / d := by ring
      _ ≤ (A.toNat : ℚ) * n / d := by gcongr
      _ = ((A.toNat * n : ℕ) : ℚ) / d := by push_cast; ring
      _ ≤ (A.toNat * n ⌈/⌉ d : ℕ) := div_le_ceilDiv _ hd
      _ = _ := by rw [hw']

theorem innerNodeWeight_eq_zero_iff (nodeID : N) (l : List (SCPQuorumSet N)) :
    innerNodeWeight nodeID l = 0 ↔ ∀ i ∈ l, nodeWeight nodeID i = 0 := by
  induction l with
  | nil => simp [innerNodeWeight]
  | cons i l ih =>
    by_cases hi : nodeWeight nodeID i = 0
    · simp [innerNodeWeight, hi, ih]
    · simp [innerNodeWeight, hi]

/-- The loop over the inner sets, from what each inner set's weight satisfies. -/
theorem innerWeight_weightOf (nodeID : N) {l : List (SCPQuorumSet N)}
    (hl : ∀ i ∈ l, WeightOf nodeID i (getNodeWeight nodeID i)) {n d : ℕ}
    (hn : n ≤ d) (hd : l ≠ [] → 0 < d) (hd' : d < 2 ^ 64) :
    (innerWeight nodeID (BitVec.ofNat 64 n) (BitVec.ofNat 64 d) l = 0 ↔
        innerNodeWeight nodeID l * n / d = 0) ∧
      (UINT64_MAX : ℚ) * (innerNodeWeight nodeID l * n / d) ≤
        (innerWeight nodeID (BitVec.ofNat 64 n) (BitVec.ofNat 64 d) l).toNat := by
  induction l with
  | nil => exact ⟨by simp [innerWeight, innerNodeWeight], by simp [innerNodeWeight]⟩
  | cons i l ih =>
    have hi := hl i List.mem_cons_self
    have ih' := ih (fun j hj => hl j (List.mem_cons_of_mem i hj))
      (fun _ => hd (List.cons_ne_nil i l))
    by_cases h0 : getNodeWeight nodeID i = 0
    · -- a zero weight is skipped, as its exact weight is zero
      have hW : nodeWeight nodeID i = 0 := hi.eq_zero_iff.mp h0
      simpa [innerWeight, h0, innerNodeWeight, hW] using ih'
    · have hW : nodeWeight nodeID i ≠ 0 := fun h => h0 (hi.eq_zero_iff.mpr h)
      have hstep : innerWeight nodeID (BitVec.ofNat 64 n) (BitVec.ofNat 64 d) (i :: l) =
          bigDivideUnsignedResult (getNodeWeight nodeID i) (BitVec.ofNat 64 n)
            (BitVec.ofNat 64 d) .roundUp := by
        rw [innerWeight]
        exact if_pos h0
      rw [hstep, innerNodeWeight, if_pos hW]
      exact scale_level hi.eq_zero_iff hi.le hn (hd (List.cons_ne_nil i l)) hd'

/-- `getNodeWeight` on a set whose thresholds are in range satisfies `WeightOf`. -/
theorem getNodeWeight_weightOf (nodeID : N) {q : SCPQuorumSet N} (hq : WeightsInRange q) :
    WeightOf nodeID q (getNodeWeight nodeID q) := by
  induction q with
  | mk t vs is ih =>
    obtain ⟨⟨ht, hsize⟩, his⟩ := allLevels_mk.mp hq
    simp only [size] at ht hsize
    have hn : t.toNat ≤ is.length + vs.length := by omega
    have hd' : is.length + vs.length < 2 ^ 64 := by omega
    by_cases hv : nodeID ∈ vs
    · have hd : 0 < is.length + vs.length := by
        have := List.length_pos_of_mem hv
        omega
      obtain ⟨h0, hle⟩ := scale_level (A := BitVec.ofNat 64 UINT64_MAX) (W := 1)
        (by simp [UINT64_MAX]) (by simp [UINT64_MAX]) hn hd hd'
      constructor
      · simpa [getNodeWeight, nodeWeight, hv] using h0
      · simpa [getNodeWeight, nodeWeight, hv] using hle
    · obtain ⟨h0, hle⟩ := innerWeight_weightOf nodeID
        (fun i hi => ih i hi (his i hi)) hn
        (fun hne => by
          have := List.length_pos_iff.mpr hne
          omega) hd'
      constructor
      · simpa [getNodeWeight, nodeWeight, hv] using h0
      · simpa [getNodeWeight, nodeWeight, hv] using hle

/-- With every threshold at least one, the exact weight is zero exactly for a node the set
does not hold. -/
theorem nodeWeight_eq_zero_iff (nodeID : N) {q : SCPQuorumSet N} (hq : ThresholdsInRange q) :
    nodeWeight nodeID q = 0 ↔ nodeID ∉ allNodes q := by
  induction q with
  | mk t vs is ih =>
    obtain ⟨⟨h1, h2, -⟩, his⟩ := thresholdsInRange_mk.mp hq
    have ht : (t.toNat : ℚ) ≠ 0 := by exact_mod_cast (show t.toNat ≠ 0 by omega)
    have hd : ((is.length : ℚ) + vs.length) ≠ 0 := by
      have : (0 : ℚ) < is.length + vs.length := by exact_mod_cast (show 0 < is.length + vs.length by omega)
      exact this.ne'
    rw [allNodes_mk, List.mem_append, List.mem_flatten]
    by_cases hv : nodeID ∈ vs
    · simp [nodeWeight, hv, ht, hd]
    · -- the weight comes from the inner sets, each zero exactly off its nodes
      rw [nodeWeight, if_neg hv, div_eq_zero_iff, mul_eq_zero, innerNodeWeight_eq_zero_iff]
      simp only [ht, hd, or_false, hv, false_or, not_exists, not_and, List.mem_map]
      constructor
      · rintro hall l ⟨i, hi, rfl⟩
        exact (ih i hi (his i hi)).mp (hall i hi)
      · intro hall i hi
        exact (ih i hi (his i hi)).mpr (hall _ ⟨i, hi, rfl⟩)

/-- `LocalNode::getNodeWeight` on a sane quorum set: the weight is zero exactly for a node the
set does not hold, and never below the exact weight scaled to `UINT64_MAX`; no quotient on the
way is cut to 64 bits. -/
theorem getNodeWeight_spec (nodeID : N) (q : SCPQuorumSet N) (extraChecks : Bool)
    (h : isQuorumSetSane q extraChecks = true) :
    (getNodeWeight nodeID q = 0 ↔ nodeID ∉ allNodes q) ∧
      (UINT64_MAX : ℚ) * nodeWeight nodeID q ≤ (getNodeWeight nodeID q).toNat := by
  have hq := (isQuorumSetSane_thresholdsInRange h).1
  have hW := getNodeWeight_weightOf nodeID (hq.mono fun q ⟨_, h2, h3⟩ => ⟨h2, by omega⟩)
  exact ⟨hW.eq_zero_iff.trans (nodeWeight_eq_zero_iff nodeID hq), hW.le⟩

theorem getNodeWeight_spec_nested :
    isQuorumSetSane (⟨1, [1], [⟨1, [3, 4], []⟩]⟩ : SCPQuorumSet ℕ) false = true ∧
      (getNodeWeight 3 (⟨1, [1], [⟨1, [3, 4], []⟩]⟩ : SCPQuorumSet ℕ) = 0 ↔
          3 ∉ allNodes (⟨1, [1], [⟨1, [3, 4], []⟩]⟩ : SCPQuorumSet ℕ)) ∧
        (UINT64_MAX : ℚ) * nodeWeight 3 (⟨1, [1], [⟨1, [3, 4], []⟩]⟩ : SCPQuorumSet ℕ) ≤
          (getNodeWeight 3 (⟨1, [1], [⟨1, [3, 4], []⟩]⟩ : SCPQuorumSet ℕ)).toNat :=
  ⟨by decide, getNodeWeight_spec 3 _ false (by decide)⟩

end LocalNode

/-! ## `normalizeQSet` -/

section Normalize

open SCPQuorumSet

variable {N : Type*} [DecidableEq N]

/-- The `std::remove_if` of `normalizeQSet`: the validators other than `idToRemove`, and the
threshold lowered by the number removed, in a `uint32`. -/
def removeNode (idToRemove : Option N) (threshold : UInt32) (validators : List N) :
    UInt32 × List N :=
  match idToRemove with
  | none => (threshold, validators)
  | some id => (threshold - (validators.countP (· = id)).toUInt32, validators.filter (· ≠ id))

mutual
/-- `normalizeQSet(qSet, idToRemove)`: remove the node, merge each inner set of threshold one
with a single validator into the validators, and replace a set of threshold one with no
validator and a single inner set by that inner set. -/
def normalizeQSet (idToRemove : Option N) : SCPQuorumSet N → SCPQuorumSet N
  | ⟨threshold, validators, innerSets⟩ =>
    let r := removeNode idToRemove threshold validators
    let s := normalizeInner idToRemove r.2 innerSets
    if r.1 = 1 ∧ s.1 = [] then
      match s.2 with
      | [t] => t
      | _ => ⟨r.1, s.1, s.2⟩
    else ⟨r.1, s.1, s.2⟩

/-- The `while` loop of `normalizeQSet` over the inner sets: each is normalized, and one of
threshold one with a single validator and no inner set leaves its validator to `v`. -/
def normalizeInner (idToRemove : Option N) :
    List N → List (SCPQuorumSet N) → List N × List (SCPQuorumSet N)
  | v, [] => (v, [])
  | v, q :: qs =>
    let q := normalizeQSet idToRemove q
    if q.threshold = 1 ∧ q.validators.length = 1 ∧ q.innerSets.length = 0 then
      normalizeInner idToRemove (v ++ q.validators.take 1) qs
    else
      let r := normalizeInner idToRemove v qs
      (r.1, q :: r.2)
end

example : (normalizeQSet (some 1) (⟨2, [1, 2], [⟨1, [3], []⟩]⟩ : SCPQuorumSet ℕ)).validators =
    [2, 3] := by
  decide

/-- Removing a node that occurs at most once, from a positive threshold, takes as much from
the threshold as from the validators. -/
theorem removeNode_spec (idToRemove : Option N) {t : UInt32} {vs : List N} (ht : 1 ≤ t.toNat)
    (hnd : vs.Nodup) :
    (removeNode idToRemove t vs).1.toNat + vs.length =
      t.toNat + (removeNode idToRemove t vs).2.length := by
  cases idToRemove with
  | none => rfl
  | some id =>
    have hk : vs.countP (· = id) ≤ 1 := by
      have := List.nodup_iff_count_le_one.mp hnd id
      rwa [List.count_eq_countP,
        List.countP_congr (q := fun x => decide (x = id)) fun x _ => by simp] at this
    have hsplit := Threshold.countP_add_countP_not (fun x => decide (x = id)) vs
    have hfilter : (vs.filter (· ≠ id)).length = vs.countP fun x => !decide (x = id) := by
      rw [List.countP_eq_length_filter]
      congr 1
      exact List.filter_congr fun x _ => by simp
    have hk32 : (vs.countP (· = id)).toUInt32.toNat = vs.countP (· = id) := by
      simp only [Nat.toUInt32, UInt32.toNat_ofNat']
      omega
    simp only [removeNode, hfilter]
    rw [UInt32.toNat_sub_of_le _ _ (UInt32.le_iff_toNat_le.mpr (by omega)), hk32]
    omega

/-- The loop over the inner sets moves a member to the validators or keeps it, so the number
of members stays, and the members kept are normalized. -/
theorem normalizeInner_spec (idToRemove : Option N) (v : List N) {l : List (SCPQuorumSet N)}
    (hl : ∀ i ∈ l, LocalNode.WeightsInRange (normalizeQSet idToRemove i)) :
    (normalizeInner idToRemove v l).1.length + (normalizeInner idToRemove v l).2.length =
      v.length + l.length ∧
        ∀ j ∈ (normalizeInner idToRemove v l).2, LocalNode.WeightsInRange j := by
  induction l generalizing v with
  | nil => exact ⟨rfl, fun _ h => absurd h List.not_mem_nil⟩
  | cons q qs ih =>
    have hqs := fun v => ih v (fun i hi => hl i (List.mem_cons_of_mem q hi))
    by_cases hmove : (normalizeQSet idToRemove q).threshold = 1 ∧
        (normalizeQSet idToRemove q).validators.length = 1 ∧
          (normalizeQSet idToRemove q).innerSets.length = 0
    · obtain ⟨hlen, hall⟩ := hqs (v ++ (normalizeQSet idToRemove q).validators.take 1)
      rw [normalizeInner, if_pos hmove]
      refine ⟨?_, hall⟩
      rw [hlen, List.length_append, List.length_take, hmove.2.1, List.length_cons]
      omega
    · obtain ⟨hlen, hall⟩ := hqs v
      rw [normalizeInner, if_neg hmove]
      refine ⟨?_, fun j hj => ?_⟩
      · simp only [List.length_cons]
        omega
      · rcases List.mem_cons.mp hj with rfl | hj
        · exact hl q List.mem_cons_self
        · exact hall j hj

/-- Normalizing a sane quorum set leaves no threshold above its number of members: a removed
node takes one from both, and a merged inner set moves one member from the inner sets to the
validators. -/
theorem normalizeQSet_weightsInRange (idToRemove : Option N) {q : SCPQuorumSet N}
    (hq : ThresholdsInRange q) (hnd : (allNodes q).Nodup) :
    LocalNode.WeightsInRange (normalizeQSet idToRemove q) := by
  induction q with
  | mk t vs is ih =>
    obtain ⟨⟨h1, h2, h3⟩, his⟩ := thresholdsInRange_mk.mp hq
    have hvs : vs.Nodup := by
      rw [allNodes_mk] at hnd
      exact hnd.sublist (List.sublist_append_left _ _)
    have hrem := removeNode_spec idToRemove h1 hvs
    have hremle : (removeNode idToRemove t vs).2.length ≤ vs.length := by
      cases idToRemove with
      | none => exact le_rfl
      | some id => exact List.length_filter_le _ _
    obtain ⟨hlen, hall⟩ := normalizeInner_spec idToRemove (removeNode idToRemove t vs).2
      (l := is) fun i hi => ih i hi (his i hi) (hnd.sublist (allNodes_sublist hi))
    -- the level itself, before the last simplification
    have hlevel : LocalNode.WeightsInRange (⟨(removeNode idToRemove t vs).1,
        (normalizeInner idToRemove (removeNode idToRemove t vs).2 is).1,
        (normalizeInner idToRemove (removeNode idToRemove t vs).2 is).2⟩ : SCPQuorumSet N) := by
      refine allLevels_mk.mpr ⟨⟨?_, ?_⟩, hall⟩ <;> simp only [size] <;> omega
    rw [normalizeQSet]
    split_ifs with hone
    · split
      · next t0 h =>
        exact hall t0 (by rw [h]; exact List.mem_singleton_self t0)
      · exact hlevel
    · exact hlevel

end Normalize

/-! ## Round leaders -/

namespace NominationProtocol

open SCPQuorumSet

variable {N : Type*} [DecidableEq N]

/-- `NominationProtocol::getNodePriority`: the local node weighs `UINT64_MAX`, for it is in
every quorum set. A node whose first hash falls below its weight has its second hash as its
priority, and any other node `0`. `hashNode isPriority nodeID` stands for the driver's
`computeHashNode` for the slot, the previous value and the round. -/
def getNodePriority (localID : N) (hashNode : Bool → N → BitVec 64) (qset : SCPQuorumSet N)
    (nodeID : N) : BitVec 64 :=
  let w := if nodeID = localID then BitVec.ofNat 64 UINT64_MAX
    else LocalNode.getNodeWeight nodeID qset
  if hashNode false nodeID < w then hashNode true nodeID else 0

/-- One node of the `forAllNodes` loop of `updateRoundLeaders`: a higher priority clears the
leaders, and a node of the top priority joins them when that is positive. -/
def leaderStep (localID : N) (hashNode : Bool → N → BitVec 64) (qset : SCPQuorumSet N)
    (acc : BitVec 64 × List N) (cur : N) : BitVec 64 × List N :=
  let w := getNodePriority localID hashNode qset cur
  let s := if w > acc.1 then (w, []) else acc
  if w = s.1 ∧ w > 0 then (s.1, s.2.insert cur) else s

/-- `NominationProtocol::updateRoundLeaders`: the local node, then every node of the local
quorum set with the local node removed, kept by `leaderStep`. -/
def updateRoundLeaders (localID : N) (hashNode : Bool → N → BitVec 64)
    (myQSet : SCPQuorumSet N) : List N :=
  let myQSet := normalizeQSet (some localID) myQSet
  (LocalNode.forAllNodes myQSet (leaderStep localID hashNode myQSet)
    (getNodePriority localID hashNode myQSet localID, [localID])).2

example : updateRoundLeaders 0 (fun b n => BitVec.ofNat 64 (if b then n + 1 else 0))
    (⟨2, [0, 1, 2], []⟩ : SCPQuorumSet ℕ) = [2] := by
  decide

variable {localID : N} {hashNode : Bool → N → BitVec 64} {qset : SCPQuorumSet N}

/-- The step lemma: `leaderStep` is `ArgMax.keepTop` on the numbers of the priorities. -/
theorem leaderStep_keepTop (s : BitVec 64 × List N) (cur : N) :
    ((leaderStep localID hashNode qset s cur).1.toNat, (leaderStep localID hashNode qset s cur).2) =
      ArgMax.keepTop (fun y => (getNodePriority localID hashNode qset y).toNat)
        (s.1.toNat, s.2) cur := by
  obtain ⟨top, L⟩ := s
  unfold leaderStep
  simp only [ArgMax.keepTop, gt_iff_lt]
  generalize getNodePriority localID hashNode qset cur = w
  -- the comparisons of the words are those of their numbers
  have hlt : top < w ↔ top.toNat < w.toNat := BitVec.lt_def
  have hpos : (0 : BitVec 64) < w ↔ 0 < w.toNat := BitVec.lt_def
  by_cases hgt : top < w
  · rw [if_pos hgt, if_pos (hlt.mp hgt)]
    by_cases h0 : (0 : BitVec 64) < w
    · rw [if_pos ⟨rfl, h0⟩, if_pos ⟨rfl, hpos.mp h0⟩]
    · rw [if_neg fun h => h0 h.2, if_neg fun h => h0 (hpos.mpr h.2)]
  · rw [if_neg hgt, if_neg fun h => hgt (hlt.mpr h)]
    by_cases heq : w = top ∧ (0 : BitVec 64) < w
    · rw [if_pos heq, if_pos ⟨by rw [heq.1], hpos.mp heq.2⟩]
    · rw [if_neg heq, if_neg fun h => heq ⟨BitVec.eq_of_toNat_eq h.1, hpos.mpr h.2⟩]

/-- The run lemma: the loop of `updateRoundLeaders` is the loop of `ArgMax.keepTop` on the
numbers of the priorities. -/
theorem foldl_leaderStep (localID : N) (hashNode : Bool → N → BitVec 64) (qset : SCPQuorumSet N)
    (l : List N) (s : BitVec 64 × List N) :
    ((l.foldl (leaderStep localID hashNode qset) s).1.toNat,
        (l.foldl (leaderStep localID hashNode qset) s).2) =
      l.foldl (ArgMax.keepTop fun y => (getNodePriority localID hashNode qset y).toNat)
        (s.1.toNat, s.2) := by
  induction l generalizing s with
  | nil => rfl
  | cons y l ih => rw [List.foldl_cons, ih, leaderStep_keepTop, List.foldl_cons]

/-- `NominationProtocol::updateRoundLeaders` keeps the round's leaders: the local node when no
node of its normalized quorum set has a higher priority, and the nodes of that set of the
highest priority, when it is positive. -/
theorem updateRoundLeaders_spec (localID : N) (hashNode : Bool → N → BitVec 64)
    (myQSet : SCPQuorumSet N) (x : N) :
    x ∈ updateRoundLeaders localID hashNode myQSet ↔
      ArgMax.IsTop (fun y => (getNodePriority localID hashNode
          (normalizeQSet (some localID) myQSet) y).toNat) localID
        (allNodes (normalizeQSet (some localID) myQSet)) x := by
  have hsnd := congrArg Prod.snd (foldl_leaderStep localID hashNode
    (normalizeQSet (some localID) myQSet)
    (LocalNode.firstsFrom [] (allNodes (normalizeQSet (some localID) myQSet)))
    (getNodePriority localID hashNode (normalizeQSet (some localID) myQSet) localID, [localID]))
  dsimp only at hsnd
  rw [updateRoundLeaders, LocalNode.forAllNodes_eq, hsnd, ArgMax.mem_foldl_keepTop_start]
  simp only [ArgMax.IsTop, LocalNode.mem_firstsFrom, List.not_mem_nil, not_false_eq_true, and_true]

/-- On a sane local quorum set, the weights `updateRoundLeaders` reads from the normalized set
are right: zero exactly where the exact weight is, and never below it. -/
theorem getNodeWeight_normalizeQSet (localID : N) (myQSet : SCPQuorumSet N) (extraChecks : Bool)
    (h : isQuorumSetSane myQSet extraChecks = true) (nodeID : N) :
    LocalNode.WeightOf nodeID (normalizeQSet (some localID) myQSet)
      (LocalNode.getNodeWeight nodeID (normalizeQSet (some localID) myQSet)) := by
  obtain ⟨hq, hnd⟩ := isQuorumSetSane_thresholdsInRange h
  exact LocalNode.getNodeWeight_weightOf nodeID (normalizeQSet_weightsInRange (some localID) hq hnd)

theorem getNodeWeight_normalizeQSet_two :
    isQuorumSetSane (⟨2, [0, 1, 2], []⟩ : SCPQuorumSet ℕ) false = true ∧
      LocalNode.WeightOf 1 (normalizeQSet (some 0) (⟨2, [0, 1, 2], []⟩ : SCPQuorumSet ℕ))
        (LocalNode.getNodeWeight 1 (normalizeQSet (some 0) (⟨2, [0, 1, 2], []⟩ : SCPQuorumSet ℕ))) :=
  ⟨by decide, getNodeWeight_normalizeQSet 0 _ false (by decide) 1⟩

end NominationProtocol

end Dexfin.Stellar
