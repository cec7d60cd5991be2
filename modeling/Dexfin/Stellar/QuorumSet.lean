import Dexfin.Lib.Threshold

/-!
# Quorum sets of SCP (`scp/LocalNode.cpp`, `scp/QuorumSetUtils.cpp`)

A quorum set has a threshold over its members: validators, and inner quorum sets of the same
form. A set of nodes satisfies it when at least `threshold` of its members are satisfied. A
validator is satisfied by being in the set, and an inner set by being satisfied in turn
(`satisfies`). Such a set is a slice. A set is v-blocking when it meets every slice
(`VBlocking`), that is, when what lies outside it is no slice (`vBlocking_iff`).

`LocalNode` decides both by counting down in a machine word. `isQuorumSliceInternal` starts
from `threshold` in a `uint32`, and `isVBlockingInternal` from `1 + members - threshold` in an
`int`. When every threshold is positive, the first computes `satisfies`; at a zero threshold
it answers `false`, although every set satisfies such a quorum set
(`isQuorumSlice_eq_satisfies`). When every threshold lies between one and the number of
members, the second computes v-blocking, and the two answers are complementary
(`isVBlocking_iff_vBlocking`).

`isQuorumSetSane` checks the shape the protocol relies on. The checker walks the set with a
table of the nodes seen so far and stops at the first fault. `isQuorumSetSane_iff` states
what it accepts as a property of the whole set: at most three levels, thresholds in range, no
node named twice, and between 1 and 1000 validators in all.
-/

namespace Dexfin.Stellar

/-- `SCPQuorumSet` of `Stellar-SCP.x`. -/
structure SCPQuorumSet (N : Type*) where
  threshold : UInt32
  validators : List N
  innerSets : List (SCPQuorumSet N)

namespace SCPQuorumSet

variable {N : Type*}

/-- Induction over a quorum set, with a hypothesis for each of its inner sets. -/
@[elab_as_elim, induction_eliminator]
theorem induction {motive : SCPQuorumSet N → Prop}
    (mk : ∀ threshold validators innerSets, (∀ i ∈ innerSets, motive i) →
      motive ⟨threshold, validators, innerSets⟩) :
    ∀ q, motive q
  | ⟨threshold, validators, innerSets⟩ =>
    mk threshold validators innerSets fun i _ => induction mk i

/-- The number of members, `validators.size() + innerSets.size()`. -/
def size (q : SCPQuorumSet N) : ℕ := q.validators.length + q.innerSets.length

mutual
/-- The nodes `forAllNodesInternal` visits, in its order: the validators, then the nodes of
each inner set. -/
def allNodes : SCPQuorumSet N → List N
  | ⟨_, validators, innerSets⟩ => validators ++ innerNodes innerSets

/-- The nodes of a list of inner sets, one set after the other. -/
def innerNodes : List (SCPQuorumSet N) → List N
  | [] => []
  | i :: is => allNodes i ++ innerNodes is
end

theorem innerNodes_eq (is : List (SCPQuorumSet N)) :
    innerNodes is = (is.map allNodes).flatten := by
  induction is with
  | nil => rfl
  | cons i is ih => rw [innerNodes, ih, List.map_cons, List.flatten_cons]

theorem allNodes_mk (t : UInt32) (vs : List N) (is : List (SCPQuorumSet N)) :
    allNodes ⟨t, vs, is⟩ = vs ++ (is.map allNodes).flatten := by
  rw [allNodes, innerNodes_eq]

/-- The nodes of an inner set are nodes of the set. -/
theorem allNodes_sublist {t : UInt32} {vs : List N} {is : List (SCPQuorumSet N)}
    {i : SCPQuorumSet N} (hi : i ∈ is) : (allNodes i).Sublist (allNodes ⟨t, vs, is⟩) := by
  rw [allNodes_mk]
  exact (List.sublist_flatten_of_mem (List.mem_map_of_mem hi)).trans
    (List.sublist_append_right vs _)

theorem mem_allNodes_of_mem {t : UInt32} {vs : List N} {is : List (SCPQuorumSet N)}
    {i : SCPQuorumSet N} (hi : i ∈ is) {n : N} (hn : n ∈ allNodes i) :
    n ∈ allNodes ⟨t, vs, is⟩ :=
  (allNodes_sublist hi).subset hn

/-- `P` holds of the set and of every set nested in it. -/
def AllLevels (P : SCPQuorumSet N → Prop) : SCPQuorumSet N → Prop
  | ⟨t, vs, is⟩ => P ⟨t, vs, is⟩ ∧ ∀ i ∈ is, AllLevels P i

theorem allLevels_mk {P : SCPQuorumSet N → Prop} {t : UInt32} {vs : List N}
    {is : List (SCPQuorumSet N)} :
    AllLevels P ⟨t, vs, is⟩ ↔ P ⟨t, vs, is⟩ ∧ ∀ i ∈ is, AllLevels P i := by
  rw [AllLevels]

theorem AllLevels.mono {P Q : SCPQuorumSet N → Prop} (h : ∀ q, P q → Q q) {q : SCPQuorumSet N}
    (hq : AllLevels P q) : AllLevels Q q := by
  induction q with
  | mk t vs is ih =>
    obtain ⟨hP, his⟩ := allLevels_mk.mp hq
    exact allLevels_mk.mpr ⟨h _ hP, fun i hi => ih i hi (his i hi)⟩

/-! ## Slices and v-blocking sets -/

/-- The nodes for which `p` holds satisfy `q`: at least `threshold` of its members do, a
validator by `p` and an inner set by being satisfied itself. -/
def satisfies (p : N → Bool) : SCPQuorumSet N → Bool
  | ⟨t, vs, is⟩ => t.toNat ≤ vs.countP p + is.attach.countP fun i => satisfies p i.1
decreasing_by
  have := List.sizeOf_lt_of_mem i.2
  simp only [SCPQuorumSet.mk.sizeOf_spec]
  omega

theorem satisfies_mk (p : N → Bool) (t : UInt32) (vs : List N) (is : List (SCPQuorumSet N)) :
    satisfies p ⟨t, vs, is⟩ = decide (t.toNat ≤ vs.countP p + is.countP (satisfies p)) := by
  rw [satisfies, List.countP_attach (p := satisfies p)]

/-- The nodes for which `p` holds are v-blocking for `q`: they meet every slice of `q`. -/
def VBlocking (q : SCPQuorumSet N) (p : N → Bool) : Prop :=
  ∀ T : N → Bool, satisfies T q = true → ∃ n, T n = true ∧ p n = true

/-- More nodes satisfy what fewer do. -/
theorem satisfies_mono {p p' : N → Bool} (h : ∀ n, p n = true → p' n = true) (q : SCPQuorumSet N)
    (hq : satisfies p q = true) : satisfies p' q = true := by
  induction q with
  | mk t vs is ih =>
    rw [satisfies_mk, decide_eq_true_iff] at hq ⊢
    have hvs : vs.countP p ≤ vs.countP p' := List.countP_mono_left fun n _ => h n
    have his : is.countP (satisfies p) ≤ is.countP (satisfies p') :=
      List.countP_mono_left fun i hi => ih i hi
    omega

/-- Whether a set satisfies `q` depends only on its nodes that occur in `q`. -/
theorem satisfies_congr {p p' : N → Bool} (q : SCPQuorumSet N)
    (h : ∀ n ∈ allNodes q, p n = p' n) : satisfies p q = satisfies p' q := by
  induction q with
  | mk t vs is ih =>
    rw [satisfies_mk, satisfies_mk]
    have hvs : vs.countP p = vs.countP p' :=
      List.countP_congr fun n hn => by rw [h n (by rw [allNodes_mk]; exact List.mem_append_left _ hn)]
    have his : is.countP (satisfies p) = is.countP (satisfies p') :=
      List.countP_congr fun i hi => by
        rw [ih i hi fun n hn => h n (mem_allNodes_of_mem hi hn)]
    rw [hvs, his]

/-- A set is v-blocking exactly when the nodes outside it do not satisfy the quorum set. -/
theorem vBlocking_iff (q : SCPQuorumSet N) (p : N → Bool) :
    VBlocking q p ↔ satisfies (fun n => !p n) q = false := by
  constructor
  · intro hv
    by_contra hsat
    obtain ⟨n, hout, hin⟩ := hv _ (Bool.not_eq_false _ ▸ hsat)
    simp [hin] at hout
  · intro hsat T hT
    by_contra hmeet
    push Not at hmeet
    have hout : satisfies (fun n => !p n) q = true :=
      satisfies_mono (fun n hn => by simpa using hmeet n hn) q hT
    rw [hsat] at hout
    exact Bool.false_ne_true hout

instance (q : SCPQuorumSet N) (p : N → Bool) : Decidable (VBlocking q p) :=
  decidable_of_iff _ (vBlocking_iff q p).symm

/-- Adding nodes to a v-blocking set keeps it v-blocking. -/
theorem VBlocking.mono {q : SCPQuorumSet N} {p p' : N → Bool} (hq : VBlocking q p)
    (h : ∀ n, p n = true → p' n = true) : VBlocking q p' := fun T hT => by
  obtain ⟨n, hT, hp⟩ := hq T hT
  exact ⟨n, hT, h n hp⟩

/-- Whether a set is v-blocking depends only on its nodes that occur in `q`. -/
theorem vBlocking_congr {q : SCPQuorumSet N} {p p' : N → Bool}
    (h : ∀ n ∈ allNodes q, p n = p' n) : VBlocking q p ↔ VBlocking q p' := by
  rw [vBlocking_iff, vBlocking_iff, satisfies_congr q fun n hn => by rw [h n hn]]

/-- A set is v-blocking when it holds or blocks more than `members - threshold` members. -/
theorem vBlocking_mk_iff (p : N → Bool) (t : UInt32) (vs : List N)
    (is : List (SCPQuorumSet N)) :
    VBlocking ⟨t, vs, is⟩ p ↔
      vs.length + is.length + 1 - t.toNat ≤ vs.countP p + is.countP fun i => decide (VBlocking i p) := by
  rw [vBlocking_iff, satisfies_mk, decide_eq_false_iff_not]
  have hvs := Threshold.countP_add_countP_not p vs
  have his := Threshold.countP_add_countP_not (satisfies fun n => !p n) is
  have hblk : (is.countP fun i => decide (VBlocking i p)) =
      is.countP fun i => !satisfies (fun n => !p n) i :=
    List.countP_congr fun i _ => by simp [vBlocking_iff]
  rw [hblk]
  omega

/-! ## `isQuorumSliceInternal` and `isVBlockingInternal` -/

section Code

variable [DecidableEq N]

mutual
/-- `LocalNode::isQuorumSliceInternal`: count down from `threshold` in a `uint32`, once for
each validator in `nodeSet` and then once for each inner set that `nodeSet` is a slice of, and
answer `true` as soon as nothing is left. -/
def isQuorumSliceInternal : SCPQuorumSet N → List N → Bool
  | ⟨threshold, validators, innerSets⟩, nodeSet =>
    match Threshold.countDown threshold (validators.map fun v => decide (v ∈ nodeSet)) with
    | none => true
    | some thresholdLeft =>
      (Threshold.countDown thresholdLeft (innerSlices innerSets nodeSet)).isNone

/-- The answers of `isQuorumSliceInternal` for inner sets, in order. -/
def innerSlices : List (SCPQuorumSet N) → List N → List Bool
  | [], _ => []
  | i :: is, nodeSet => isQuorumSliceInternal i nodeSet :: innerSlices is nodeSet
end

/-- `LocalNode::isQuorumSlice`. -/
def isQuorumSlice (qSet : SCPQuorumSet N) (nodeSet : List N) : Bool :=
  isQuorumSliceInternal qSet nodeSet

mutual
/-- `LocalNode::isVBlockingInternal`: no set is v-blocking at a zero threshold; otherwise
count down from `1 + members - threshold`, computed in a `size_t` and cast to `int`, once for
each validator in `nodeSet` and once for each inner set it is v-blocking for. -/
def isVBlockingInternal : SCPQuorumSet N → List N → Bool
  | ⟨threshold, validators, innerSets⟩, nodeSet =>
    if threshold = 0 then false
    else
      let leftTillBlock : Int32 :=
        Int32.ofNat ((1 + validators.length.toUInt64 + innerSets.length.toUInt64) -
          threshold.toUInt64).toNat
      match Threshold.countDown leftTillBlock (validators.map fun v => decide (v ∈ nodeSet)) with
      | none => true
      | some leftTillBlock =>
        (Threshold.countDown leftTillBlock (innerVBlocking innerSets nodeSet)).isNone

/-- The answers of `isVBlockingInternal` for inner sets, in order. -/
def innerVBlocking : List (SCPQuorumSet N) → List N → List Bool
  | [], _ => []
  | i :: is, nodeSet => isVBlockingInternal i nodeSet :: innerVBlocking is nodeSet
end

/-- `LocalNode::isVBlocking`. -/
def isVBlocking (qSet : SCPQuorumSet N) (nodeSet : List N) : Bool :=
  isVBlockingInternal qSet nodeSet

example : isQuorumSlice (⟨2, [1, 2, 3], [⟨1, [4, 5], []⟩]⟩ : SCPQuorumSet ℕ) [3, 5] = true := by
  decide

example : isVBlocking (⟨2, [1, 2, 3], [⟨1, [4, 5], []⟩]⟩ : SCPQuorumSet ℕ) [1, 2, 4] = false := by
  decide

theorem innerSlices_eq (is : List (SCPQuorumSet N)) (nodeSet : List N) :
    innerSlices is nodeSet = is.map (isQuorumSliceInternal · nodeSet) := by
  induction is with
  | nil => rfl
  | cons i is ih => rw [innerSlices, ih, List.map_cons]

theorem innerVBlocking_eq (is : List (SCPQuorumSet N)) (nodeSet : List N) :
    innerVBlocking is nodeSet = is.map (isVBlockingInternal · nodeSet) := by
  induction is with
  | nil => rfl
  | cons i is ih => rw [innerVBlocking, ih, List.map_cons]

/-- The two loops of `isQuorumSliceInternal` are one count down over all members. -/
theorem isQuorumSliceInternal_mk (t : UInt32) (vs : List N) (is : List (SCPQuorumSet N))
    (nodeSet : List N) :
    isQuorumSliceInternal ⟨t, vs, is⟩ nodeSet =
      (Threshold.countDown t (vs.map (fun v => decide (v ∈ nodeSet)) ++
        is.map (isQuorumSliceInternal · nodeSet))).isNone := by
  rw [isQuorumSliceInternal, Threshold.countDown_append, ← innerSlices_eq]
  cases Threshold.countDown t (vs.map fun v => decide (v ∈ nodeSet)) <;> rfl

omit [DecidableEq N] in
/-- `1 + members - threshold` in a `size_t`, when it does not wrap. -/
theorem toNat_membersLeft {t : UInt32} {nv ni : ℕ} (ht : t.toNat ≤ nv + ni + 1)
    (hsize : nv + ni < 2 ^ 63) :
    ((1 + nv.toUInt64 + ni.toUInt64) - t.toUInt64).toNat = 1 + nv + ni - t.toNat := by
  have hsum : (1 + nv.toUInt64 + ni.toUInt64).toNat = 1 + nv + ni := by
    rw [UInt64.toNat_add, UInt64.toNat_add, UInt64.toNat_ofNat', UInt64.toNat_ofNat',
      UInt64.toNat_one]
    omega
  have hle : t.toUInt64 ≤ 1 + nv.toUInt64 + ni.toUInt64 := by
    rw [UInt64.le_iff_toNat_le, hsum, UInt32.toNat_toUInt64]
    omega
  rw [UInt64.toNat_sub_of_le _ _ hle, hsum, UInt32.toNat_toUInt64]

omit [DecidableEq N] in
/-- The value `isVBlockingInternal` counts down from, when it is small. -/
theorem toInt_leftTillBlock {t : UInt32} {nv ni : ℕ} (ht1 : 1 ≤ t.toNat)
    (ht : t.toNat ≤ nv + ni) (hsize : nv + ni < 2 ^ 31) :
    (Int32.ofNat ((1 + nv.toUInt64 + ni.toUInt64) - t.toUInt64).toNat).toInt =
      1 + nv + ni - t.toNat := by
  have hsub : (1 + nv + ni - t.toNat : ℕ) < 2 ^ 31 := by omega
  rw [toNat_membersLeft (by omega) (by omega), Int32.toInt_ofNat', Int.bmod_eq_of_le]
  · omega
  · simp only [Int32.size]
    omega
  · simp only [Int32.size]
    omega

/-- The two loops of `isVBlockingInternal` are one count down over all members. -/
theorem isVBlockingInternal_mk {t : UInt32} (ht : t ≠ 0) (vs : List N)
    (is : List (SCPQuorumSet N)) (nodeSet : List N) :
    isVBlockingInternal ⟨t, vs, is⟩ nodeSet =
      (Threshold.countDown
        (Int32.ofNat ((1 + vs.length.toUInt64 + is.length.toUInt64) - t.toUInt64).toNat)
        (vs.map (fun v => decide (v ∈ nodeSet)) ++ is.map (isVBlockingInternal · nodeSet))).isNone := by
  rw [isVBlockingInternal, if_neg ht, Threshold.countDown_append, ← innerVBlocking_eq]
  dsimp only
  cases Threshold.countDown
    (Int32.ofNat ((1 + vs.length.toUInt64 + is.length.toUInt64) - t.toUInt64).toNat)
    (vs.map fun v => decide (v ∈ nodeSet)) <;> rfl

omit [DecidableEq N] in
/-- The number of members a predicate holds of, validators by `p` and inner sets by `f`. -/
theorem count_true_members (p : N → Bool) (f : SCPQuorumSet N → Bool) (vs : List N)
    (is : List (SCPQuorumSet N)) :
    (vs.map p ++ is.map f).count true = vs.countP p + is.countP f := by
  rw [List.count_append, Threshold.count_true_map, Threshold.count_true_map]

/-- At every positive threshold `isQuorumSlice` computes `satisfies`. -/
theorem isQuorumSliceInternal_eq (q : SCPQuorumSet N)
    (hq : AllLevels (fun q => q.threshold ≠ 0) q) (nodeSet : List N) :
    isQuorumSliceInternal q nodeSet = satisfies (fun n => decide (n ∈ nodeSet)) q := by
  induction q with
  | mk t vs is ih =>
    obtain ⟨ht, his⟩ := allLevels_mk.mp hq
    have hpos : (0 : ℤ) < (t.toNat : ℤ) := by
      have : t.toNat ≠ 0 := fun h => ht (UInt32.toNat_inj.mp h)
      omega
    have hmap : is.map (isQuorumSliceInternal · nodeSet) =
        is.map (satisfies fun n => decide (n ∈ nodeSet)) :=
      List.map_congr_left fun i hi => ih i hi (his i hi)
    rw [isQuorumSliceInternal_mk, hmap, satisfies_mk]
    have hcount := Threshold.countDown_eq_none_iff Threshold.counts_uint32 hpos
      (vs.map (fun v => decide (v ∈ nodeSet)) ++ is.map (satisfies fun n => decide (n ∈ nodeSet)))
    rw [count_true_members] at hcount
    rw [Bool.eq_iff_iff, Option.isNone_iff_eq_none, hcount, decide_eq_true_iff]
    omega

/-- Counting down from zero in a `uint32` wraps at the first hit, and then never reaches zero
over fewer than `2 ^ 32` answers. -/
theorem countDown_zero_isSome (bs : List Bool) (hbs : bs.length < 2 ^ 32) :
    (Threshold.countDown (0 : UInt32) bs).isSome := by
  induction bs with
  | nil => rfl
  | cons b bs ih =>
    cases b with
    | false => exact ih (by simp at hbs; omega)
    | true =>
      have hwrap : (0 : UInt32) - 1 = 4294967295 := by decide
      have hnot : ¬ (4294967295 : UInt32) ≤ 0 := by decide
      rw [Threshold.countDown, if_pos rfl, hwrap, if_neg hnot, Option.isSome_iff_ne_none]
      rw [Ne, Threshold.countDown_eq_none_iff Threshold.counts_uint32 (by decide)]
      have hcount : bs.count true ≤ bs.length := List.count_le_length
      simp only [List.length_cons] at hbs
      simp only [UInt32.reduceToNat]
      omega

/-- **`isQuorumSlice` decides slices, except at a zero threshold.** When every threshold is
positive, `isQuorumSlice q nodeSet` is `satisfies` of `nodeSet`, and so it is monotone in
`nodeSet` and depends only on the nodes of `q`. When the threshold is zero, every set
satisfies `q`, but the `uint32` count down wraps at the first member found. It then answers
`false` for every `nodeSet`, as long as `q` has fewer than `2 ^ 32` members. -/
theorem isQuorumSlice_eq_satisfies (q : SCPQuorumSet N) (nodeSet : List N) :
    (AllLevels (fun q => q.threshold ≠ 0) q →
      isQuorumSlice q nodeSet = satisfies (fun n => decide (n ∈ nodeSet)) q) ∧
    (q.threshold = 0 → q.size < 2 ^ 32 →
      isQuorumSlice q nodeSet = false ∧ satisfies (fun n => decide (n ∈ nodeSet)) q = true) := by
  refine ⟨fun hq => isQuorumSliceInternal_eq q hq nodeSet, fun ht hsize => ?_⟩
  obtain ⟨t, vs, is⟩ := q
  dsimp only at ht
  subst ht
  refine ⟨?_, by simp [satisfies_mk]⟩
  have hsome := countDown_zero_isSome (vs.map (fun v => decide (v ∈ nodeSet)) ++
    is.map (isQuorumSliceInternal · nodeSet)) (by simpa [size] using hsize)
  rw [isQuorumSlice, isQuorumSliceInternal_mk]
  cases h : Threshold.countDown (0 : UInt32) (vs.map (fun v => decide (v ∈ nodeSet)) ++
      is.map (isQuorumSliceInternal · nodeSet)) with
  | none => simp [h] at hsome
  | some _ => rfl

theorem isQuorumSlice_eq_satisfies_nested :
    isQuorumSlice (⟨2, [1, 2, 3], [⟨1, [4, 5], []⟩]⟩ : SCPQuorumSet ℕ) [3, 5] =
        satisfies (fun n => decide (n ∈ [3, 5])) ⟨2, [1, 2, 3], [⟨1, [4, 5], []⟩]⟩ ∧
      isQuorumSlice (⟨0, [1], []⟩ : SCPQuorumSet ℕ) [] = false :=
  ⟨(isQuorumSlice_eq_satisfies _ _).1 (by simp [allLevels_mk]),
    ((isQuorumSlice_eq_satisfies _ _).2 rfl (by decide)).1⟩

/-- Every threshold is between one and the number of members, of which there are fewer than
`2 ^ 31`, so that `1 + members - threshold` fits an `int`. -/
def ThresholdsInRange (q : SCPQuorumSet N) : Prop :=
  AllLevels (fun q => 1 ≤ q.threshold.toNat ∧ q.threshold.toNat ≤ q.size ∧ q.size < 2 ^ 31) q

omit [DecidableEq N] in
theorem thresholdsInRange_mk {t : UInt32} {vs : List N} {is : List (SCPQuorumSet N)} :
    ThresholdsInRange ⟨t, vs, is⟩ ↔
      (1 ≤ t.toNat ∧ t.toNat ≤ vs.length + is.length ∧ vs.length + is.length < 2 ^ 31) ∧
        ∀ i ∈ is, ThresholdsInRange i := by
  unfold ThresholdsInRange
  rw [allLevels_mk]
  rfl

omit [DecidableEq N] in
/-- A quorum set whose thresholds are in range has a node. -/
theorem ThresholdsInRange.length_pos {q : SCPQuorumSet N} (hq : ThresholdsInRange q) :
    0 < (allNodes q).length := by
  induction q with
  | mk t vs is ih =>
    obtain ⟨⟨h1, h2, -⟩, his⟩ := thresholdsInRange_mk.mp hq
    rw [allNodes_mk, List.length_append]
    cases vs with
    | cons v vs =>
      simp only [List.length_cons]
      omega
    | nil =>
      obtain ⟨i, hi⟩ := List.exists_mem_of_length_pos (by simp at h2; omega : 0 < is.length)
      have hpos := ih i hi (his i hi)
      have hle := (List.sublist_flatten_of_mem
        (List.mem_map_of_mem hi : allNodes i ∈ is.map allNodes)).length_le
      omega

/-- Where every threshold is in range, `isVBlocking` answers that the nodes outside `nodeSet`
are no slice. -/
theorem isVBlockingInternal_eq (q : SCPQuorumSet N) (hq : ThresholdsInRange q)
    (nodeSet : List N) :
    isVBlockingInternal q nodeSet = !satisfies (fun n => !decide (n ∈ nodeSet)) q := by
  induction q with
  | mk t vs is ih =>
    obtain ⟨⟨ht1, ht, hsize⟩, his⟩ := allLevels_mk.mp hq
    simp only [size] at ht hsize
    have ht0 : t ≠ 0 := fun h => by simp [h] at ht1
    have hmap : is.map (isVBlockingInternal · nodeSet) =
        is.map (fun i => !satisfies (fun n => !decide (n ∈ nodeSet)) i) :=
      List.map_congr_left fun i hi => ih i hi (his i hi)
    set L : Int32 :=
      Int32.ofNat ((1 + vs.length.toUInt64 + is.length.toUInt64) - t.toUInt64).toNat with hL
    have hleft : L.toInt = 1 + vs.length + is.length - t.toNat := toInt_leftTillBlock ht1 ht hsize
    have hpos : 0 < L.toInt := by
      rw [hleft]
      omega
    rw [isVBlockingInternal_mk ht0, hmap, satisfies_mk]
    have hcount := Threshold.countDown_eq_none_iff Threshold.counts_int32 hpos
      (vs.map (fun v => decide (v ∈ nodeSet)) ++
        is.map (fun i => !satisfies (fun n => !decide (n ∈ nodeSet)) i))
    rw [count_true_members, hleft] at hcount
    -- each member is counted either as blocked or as satisfied by the nodes outside
    have hvs := Threshold.countP_add_countP_not (fun v => decide (v ∈ nodeSet)) vs
    have his' := Threshold.countP_add_countP_not (satisfies fun n => !decide (n ∈ nodeSet)) is
    rw [Bool.eq_iff_iff, Option.isNone_iff_eq_none, hcount, Bool.not_eq_true',
      decide_eq_false_iff_not]
    omega

/-- **`isVBlocking` decides v-blocking sets.** When every threshold lies between one and the
number of members (fewer than `2 ^ 31`), `isVBlocking q nodeSet` holds exactly when `nodeSet`
meets every slice of `q`. It is then the negation of `isQuorumSlice` of any list holding, of
the nodes of `q`, exactly those outside `nodeSet`. -/
theorem isVBlocking_iff_vBlocking (q : SCPQuorumSet N) (hq : ThresholdsInRange q)
    (nodeSet : List N) :
    (isVBlocking q nodeSet = true ↔ VBlocking q fun n => decide (n ∈ nodeSet)) ∧
    ∀ T : List N, (∀ n ∈ allNodes q, n ∈ T ↔ n ∉ nodeSet) →
      isVBlocking q nodeSet = !isQuorumSlice q T := by
  have hpos : AllLevels (fun q => q.threshold ≠ 0) q :=
    hq.mono fun q hq0 h => by simp [h] at hq0
  refine ⟨?_, fun T hT => ?_⟩
  · rw [isVBlocking, isVBlockingInternal_eq q hq, vBlocking_iff, Bool.not_eq_true']
  · rw [isVBlocking, isVBlockingInternal_eq q hq, isQuorumSlice, isQuorumSliceInternal_eq q hpos]
    congr 1
    exact satisfies_congr q fun n hn => by simp [hT n hn]

theorem isVBlocking_iff_vBlocking_nested :
    ThresholdsInRange (⟨2, [1, 2, 3], [⟨1, [4, 5], []⟩]⟩ : SCPQuorumSet ℕ) ∧
      (isVBlocking (⟨2, [1, 2, 3], [⟨1, [4, 5], []⟩]⟩ : SCPQuorumSet ℕ) [1, 2, 4] = true ↔
        VBlocking (⟨2, [1, 2, 3], [⟨1, [4, 5], []⟩]⟩ : SCPQuorumSet ℕ)
          fun n => decide (n ∈ [1, 2, 4])) := by
  have hq : ThresholdsInRange (⟨2, [1, 2, 3], [⟨1, [4, 5], []⟩]⟩ : SCPQuorumSet ℕ) := by
    simp [ThresholdsInRange, allLevels_mk, size]
  exact ⟨hq, (isVBlocking_iff_vBlocking _ hq _).1⟩

/-! ## `isQuorumSetSane` -/

/-- `mKnownNodes.insert` for each validator in turn: `none` as soon as one was known
already. -/
def insertKnown : List N → List N → Option (List N)
  | known, [] => some known
  | known, n :: ns => if n ∈ known then none else insertKnown (n :: known) ns

mutual
/-- `QuorumSetSanityChecker::checkSanity` at `depth`, from the nodes known so far and
`mCount`: the nodes known and the count after the check, or `none` where it returns
`false`. -/
def checkSanity (extraChecks : Bool) :
    SCPQuorumSet N → ℕ → List N → ℕ → Option (List N × ℕ)
  | ⟨threshold, validators, innerSets⟩, depth, known, count =>
    if depth > 2 then none
    else if threshold < 1 then none
    else
      let totEntries := validators.length + innerSets.length
      let vBlockingSize := totEntries - threshold.toNat + 1
      let count := count + validators.length
      if threshold.toNat > totEntries then none
      else if extraChecks && threshold.toNat < vBlockingSize then none
      else
        match insertKnown known validators with
        | none => none
        | some known => checkInner extraChecks innerSets depth known count

/-- The loop of `checkSanity` over the inner sets, one level down. -/
def checkInner (extraChecks : Bool) :
    List (SCPQuorumSet N) → ℕ → List N → ℕ → Option (List N × ℕ)
  | [], _, known, count => some (known, count)
  | i :: is, depth, known, count =>
    match checkSanity extraChecks i (depth + 1) known count with
    | none => none
    | some (known, count) => checkInner extraChecks is depth known count
end

/-- `isQuorumSetSane`: the checker accepts from depth 0, and counts between 1 and 1000
validators. -/
def isQuorumSetSane (qSet : SCPQuorumSet N) (extraChecks : Bool) : Bool :=
  match checkSanity extraChecks qSet 0 [] 0 with
  | none => false
  | some (_, count) => 1 ≤ count && count ≤ 1000

example : isQuorumSetSane (⟨2, [1, 2, 3], [⟨1, [4, 5], []⟩]⟩ : SCPQuorumSet ℕ) false = true := by
  decide

example : isQuorumSetSane (⟨2, [1, 2, 3], [⟨1, [4, 1], []⟩]⟩ : SCPQuorumSet ℕ) false = false := by
  decide

/-- The levels `checkSanity` accepts, from `depth` down: at most depth 2, a threshold between
one and the number of members, and with `extraChecks` a threshold of at least the size of the
smallest v-blocking set. -/
def LevelsSane (extraChecks : Bool) (depth : ℕ) : SCPQuorumSet N → Prop
  | ⟨t, vs, is⟩ => depth ≤ 2 ∧ 1 ≤ t.toNat ∧ t.toNat ≤ vs.length + is.length ∧
      (extraChecks = true → vs.length + is.length - t.toNat + 1 ≤ t.toNat) ∧
      ∀ i ∈ is, LevelsSane extraChecks (depth + 1) i

omit [DecidableEq N] in
theorem levelsSane_mk {e : Bool} {depth : ℕ} {t : UInt32} {vs : List N}
    {is : List (SCPQuorumSet N)} :
    LevelsSane e depth ⟨t, vs, is⟩ ↔ depth ≤ 2 ∧ 1 ≤ t.toNat ∧ t.toNat ≤ vs.length + is.length ∧
      (e = true → vs.length + is.length - t.toNat + 1 ≤ t.toNat) ∧
      ∀ i ∈ is, LevelsSane e (depth + 1) i := by
  rw [LevelsSane]

/-- The table of known nodes grows by the validators, and refuses one it holds already. -/
theorem insertKnown_eq_some_iff {known : List N} (hk : known.Nodup) (vs K : List N) :
    insertKnown known vs = some K ↔ (vs.reverse ++ known).Nodup ∧ K = vs.reverse ++ known := by
  induction vs generalizing known with
  | nil =>
    simp only [insertKnown, Option.some.injEq, List.reverse_nil, List.nil_append]
    constructor
    · rintro rfl
      exact ⟨hk, rfl⟩
    · rintro ⟨-, rfl⟩
      rfl
  | cons n ns ih =>
    have hrev : (n :: ns).reverse ++ known = ns.reverse ++ n :: known := by simp
    rw [hrev]
    by_cases hn : n ∈ known
    · simp only [insertKnown, if_pos hn, reduceCtorEq, false_iff, not_and]
      intro hnd
      exact absurd hn (List.nodup_cons.mp (hnd.sublist (List.sublist_append_right _ _))).1
    · simp only [insertKnown, if_neg hn]
      exact ih (List.nodup_cons.mpr ⟨hn, hk⟩)

/-- What `checkSanity` answers from a table of known nodes: it accepts exactly the sane levels
whose nodes are new and distinct, adds those nodes to the table, and counts them. -/
def SanityAnswer (e : Bool) (q : SCPQuorumSet N) (depth : ℕ) (known : List N) (count : ℕ)
    (K : List N) (c : ℕ) : Prop :=
  LevelsSane e depth q ∧ ((allNodes q).reverse ++ known).Nodup ∧
    K = (allNodes q).reverse ++ known ∧ c = count + (allNodes q).length

/-- The loop over the inner sets, given what `checkSanity` answers for each of them. -/
theorem checkInner_eq_some_iff (e : Bool) {is : List (SCPQuorumSet N)}
    (ih : ∀ i ∈ is, ∀ depth known count K c, known.Nodup →
      (checkSanity e i depth known count = some (K, c) ↔ SanityAnswer e i depth known count K c))
    (depth : ℕ) (known : List N) (hk : known.Nodup) (count : ℕ) (K : List N) (c : ℕ) :
    checkInner e is depth known count = some (K, c) ↔
      (∀ i ∈ is, LevelsSane e (depth + 1) i) ∧ ((innerNodes is).reverse ++ known).Nodup ∧
        K = (innerNodes is).reverse ++ known ∧ c = count + (innerNodes is).length := by
  induction is generalizing known count with
  | nil =>
    simp only [checkInner, Option.some.injEq, Prod.mk.injEq, List.not_mem_nil,
      IsEmpty.forall_iff, implies_true, innerNodes, List.reverse_nil, List.nil_append,
      List.length_nil, Nat.add_zero, true_and]
    constructor
    · rintro ⟨rfl, rfl⟩
      exact ⟨hk, rfl, rfl⟩
    · rintro ⟨-, rfl, rfl⟩
      exact ⟨rfl, rfl⟩
  | cons i is ihl =>
    have hi := ih i List.mem_cons_self
    have his := ihl fun j hj => ih j (List.mem_cons_of_mem i hj)
    have hrev : (innerNodes (i :: is)).reverse ++ known =
        (innerNodes is).reverse ++ ((allNodes i).reverse ++ known) := by
      simp [innerNodes]
    rw [hrev]
    by_cases hok : LevelsSane e (depth + 1) i ∧ ((allNodes i).reverse ++ known).Nodup
    · have hsome := (hi (depth + 1) known count _ _ hk).mpr ⟨hok.1, hok.2, rfl, rfl⟩
      rw [checkInner, hsome]
      dsimp only
      rw [his _ hok.2]
      simp only [List.forall_mem_cons, innerNodes, List.length_append, hok.1, true_and]
      constructor
      · rintro ⟨h1, h2, h3, h4⟩
        exact ⟨h1, h2, h3, by rw [h4]; omega⟩
      · rintro ⟨h1, h2, h3, h4⟩
        exact ⟨h1, h2, h3, by rw [h4]; omega⟩
    · have hnone : checkSanity e i (depth + 1) known count = none := by
        cases h : checkSanity e i (depth + 1) known count with
        | none => rfl
        | some r =>
          obtain ⟨K', c'⟩ := r
          obtain ⟨h1, h2, -, -⟩ := (hi (depth + 1) known count K' c' hk).mp h
          exact absurd ⟨h1, h2⟩ hok
      rw [checkInner, hnone]
      simp only [reduceCtorEq, false_iff, not_and, List.forall_mem_cons]
      intro hl hnd
      exact absurd ⟨hl.1, hnd.sublist (List.sublist_append_right _ _)⟩ hok

/-- **`checkSanity` checks a property of the whole set.** From a table of distinct known
nodes, it accepts exactly the quorum sets whose levels are sane and whose nodes are distinct
and not known yet. It then adds them to the table and counts them. -/
theorem checkSanity_eq_some_iff (e : Bool) (q : SCPQuorumSet N) :
    ∀ depth known count K c, known.Nodup →
      (checkSanity e q depth known count = some (K, c) ↔ SanityAnswer e q depth known count K c) := by
  induction q with
  | mk t vs is ih =>
    intro depth known count K c hk
    have hall : (allNodes ⟨t, vs, is⟩).reverse ++ known =
        (innerNodes is).reverse ++ (vs.reverse ++ known) := by
      simp [allNodes]
    have hinner := checkInner_eq_some_iff e ih depth
    unfold SanityAnswer
    rw [hall, levelsSane_mk, checkSanity]
    simp only [gt_iff_lt, UInt32.lt_iff_toNat_lt, UInt32.toNat_one, Bool.and_eq_true,
      decide_eq_true_eq]
    by_cases hd : 2 < depth
    · rw [if_pos hd]
      simp only [reduceCtorEq, false_iff]
      rintro ⟨⟨hd', -⟩, -⟩
      omega
    rw [if_neg hd]
    by_cases ht1 : t.toNat < 1
    · rw [if_pos ht1]
      simp only [reduceCtorEq, false_iff]
      rintro ⟨⟨-, ht1', -⟩, -⟩
      omega
    rw [if_neg ht1]
    by_cases ht : vs.length + is.length < t.toNat
    · rw [if_pos ht]
      simp only [reduceCtorEq, false_iff]
      rintro ⟨⟨-, -, ht', -⟩, -⟩
      omega
    rw [if_neg ht]
    by_cases hx : e = true ∧ t.toNat < vs.length + is.length - t.toNat + 1
    · rw [if_pos hx]
      simp only [reduceCtorEq, false_iff]
      rintro ⟨⟨-, -, -, hx', -⟩, -⟩
      have := hx' hx.1
      omega
    rw [if_neg hx]
    by_cases hv : (vs.reverse ++ known).Nodup
    · have hins := (insertKnown_eq_some_iff hk vs _).mpr ⟨hv, rfl⟩
      rw [hins]
      dsimp only
      rw [hinner _ hv, allNodes, List.length_append]
      have hx' : e = true → vs.length + is.length - t.toNat + 1 ≤ t.toNat := fun he => by
        by_contra h
        exact hx ⟨he, by omega⟩
      constructor
      · rintro ⟨hl, hn, hK, hc⟩
        exact ⟨⟨by omega, by omega, by omega, hx', hl⟩, hn, hK, by omega⟩
      · rintro ⟨⟨-, -, -, -, hl⟩, hn, hK, hc⟩
        exact ⟨hl, hn, hK, by omega⟩
    · have hnone : insertKnown known vs = none := by
        cases h : insertKnown known vs with
        | none => rfl
        | some K' => exact absurd ((insertKnown_eq_some_iff hk vs K').mp h).1 hv
      rw [hnone]
      simp only [reduceCtorEq, false_iff]
      rintro ⟨-, hn, -⟩
      exact hv (hn.sublist (List.sublist_append_right _ _))

/-- **What `isQuorumSetSane` accepts.** The checker, walking the set with its table of known
nodes and stopping at the first fault, accepts exactly the quorum sets with at most three
levels, every threshold between one and the number of members (and, with `extraChecks`, at
least the size of the smallest v-blocking set), no node named twice, and between 1 and 1000
nodes in all. -/
theorem isQuorumSetSane_iff (qSet : SCPQuorumSet N) (extraChecks : Bool) :
    isQuorumSetSane qSet extraChecks = true ↔
      LevelsSane extraChecks 0 qSet ∧ (allNodes qSet).Nodup ∧
        1 ≤ (allNodes qSet).length ∧ (allNodes qSet).length ≤ 1000 := by
  have hspec := checkSanity_eq_some_iff extraChecks qSet 0 [] 0
  unfold isQuorumSetSane
  cases h : checkSanity extraChecks qSet 0 [] 0 with
  | none =>
    simp only [Bool.false_eq_true, false_iff, not_and]
    intro hl hn
    have hsome := (hspec _ _ List.nodup_nil).mpr ⟨hl, by simpa using hn, rfl, rfl⟩
    rw [h] at hsome
    cases hsome
  | some r =>
    obtain ⟨K, c⟩ := r
    obtain ⟨hl, hn, -, hc⟩ := (hspec K c List.nodup_nil).mp h
    simp only [List.append_nil, List.nodup_reverse] at hn
    simp only [hc, Nat.zero_add, Bool.and_eq_true, decide_eq_true_eq, hl, hn, true_and]

omit [DecidableEq N] in
/-- A quorum set with sane levels has a node: its threshold needs a member, and an inner set
has a node in turn. -/
theorem LevelsSane.length_pos {e : Bool} {depth : ℕ} {q : SCPQuorumSet N}
    (h : LevelsSane e depth q) : 0 < (allNodes q).length := by
  induction q generalizing depth with
  | mk t vs is ih =>
    obtain ⟨-, h1, h2, -, his⟩ := levelsSane_mk.mp h
    rw [allNodes_mk, List.length_append]
    cases vs with
    | cons v vs =>
      simp only [List.length_cons]
      omega
    | nil =>
      obtain ⟨i, hi⟩ := List.exists_mem_of_length_pos (by simp at h2; omega : 0 < is.length)
      have hpos := ih i hi (his i hi)
      have hle := (List.sublist_flatten_of_mem
        (List.mem_map_of_mem hi : allNodes i ∈ is.map allNodes)).length_le
      omega

omit [DecidableEq N] in
/-- So a sane level has no more members than nodes. -/
theorem LevelsSane.size_le {e : Bool} {depth : ℕ} {q : SCPQuorumSet N}
    (h : LevelsSane e depth q) : q.size ≤ (allNodes q).length := by
  obtain ⟨t, vs, is⟩ := q
  obtain ⟨-, -, -, -, his⟩ := levelsSane_mk.mp h
  have hinner : ∀ js : List (SCPQuorumSet N), (∀ i ∈ js, LevelsSane e (depth + 1) i) →
      js.length ≤ ((js.map allNodes).flatten).length := by
    intro js hjs
    induction js with
    | nil => simp
    | cons j js ih =>
      have hj := (hjs j List.mem_cons_self).length_pos
      have hrest := ih fun i hi => hjs i (List.mem_cons_of_mem j hi)
      simp only [List.length_cons, List.map_cons, List.flatten_cons, List.length_append]
      omega
  have := hinner is his
  rw [allNodes_mk, List.length_append]
  simp only [size]
  omega

omit [DecidableEq N] in
/-- Sane levels with fewer than `2 ^ 31` nodes have their thresholds in range. -/
theorem LevelsSane.thresholdsInRange {e : Bool} {depth : ℕ} {q : SCPQuorumSet N}
    (h : LevelsSane e depth q) (hlen : (allNodes q).length < 2 ^ 31) : ThresholdsInRange q := by
  induction q generalizing depth with
  | mk t vs is ih =>
    obtain ⟨-, h1, h2, -, his⟩ := levelsSane_mk.mp h
    have hsize := h.size_le
    unfold ThresholdsInRange at ih ⊢
    refine allLevels_mk.mpr ⟨⟨h1, h2, by omega⟩, fun i hi => ih i hi (his i hi) ?_⟩
    exact lt_of_le_of_lt (allNodes_sublist hi).length_le hlen

/-- A sane quorum set has its thresholds in range and names every node once. -/
theorem isQuorumSetSane_thresholdsInRange {qSet : SCPQuorumSet N} {extraChecks : Bool}
    (h : isQuorumSetSane qSet extraChecks = true) :
    ThresholdsInRange qSet ∧ (allNodes qSet).Nodup := by
  obtain ⟨hl, hn, -, hlen⟩ := (isQuorumSetSane_iff qSet extraChecks).mp h
  exact ⟨hl.thresholdsInRange (by omega), hn⟩

end Code

end SCPQuorumSet

end Dexfin.Stellar
