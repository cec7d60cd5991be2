import Dexfin.Stellar.QuorumSet

/-!
# `LocalNode::findClosestVBlocking` (`scp/LocalNode.cpp`)

`getJsonQuorumInfo` asks how many of the nodes that agree with a ballot would have to fail
before the nodes that do not agree block the quorum set. `findClosestVBlocking` answers with
such a set of nodes. It treats the nodes outside `nodes` as failed already, counts the members
they block, and then takes what is missing from the cheapest members first. A validator of
`nodes` costs one node; an inner set costs its own answer, and the answers are taken in
increasing size from a `std::multiset`.

For a sane quorum set and no excluded node, the answer is exactly right
(`findClosestVBlocking_spec`). It consists of distinct nodes of `nodes` that occur in the
quorum set. With the nodes outside `nodes` it forms a v-blocking set, and no list of nodes
that does so is shorter. It is empty exactly when the nodes outside `nodes` are v-blocking
already. Minimality rests on the distinct nodes of a sane set: the cost of blocking one member
is paid in nodes no other member has, and the first elements of a sorted list of costs cost
no more than any as many of them (`Threshold.sum_take_le_of_subperm`).
-/

namespace Dexfin.Stellar.SCPQuorumSet

variable {N : Type*} [DecidableEq N]

/-! ## The code -/

/-- The loop over the validators: what is left till the set is blocked, and the validators of
`nodes` saved for later, or `none` where the set is blocked already. The excluded validator is
skipped altogether. -/
def closestValidators (nodes : List N) (excluded : Option N) :
    UInt64 → List N → List N → Option (UInt64 × List N)
  | leftTillBlock, res, [] => some (leftTillBlock, res)
  | leftTillBlock, res, validator :: vs =>
    if excluded = some validator then closestValidators nodes excluded leftTillBlock res vs
    else if validator ∉ nodes then
      if leftTillBlock - 1 = 0 then none
      else closestValidators nodes excluded (leftTillBlock - 1) res vs
    else closestValidators nodes excluded leftTillBlock (res ++ [validator]) vs

/-- `resInternals.emplace(v)`: a `std::multiset` ordered by size puts `v` after every answer
of its size or smaller. -/
def emplaceBySize (v : List N) (resInternals : List (List N)) : List (List N) :=
  resInternals.orderedInsert (fun a b => a.length < b.length) v

/-- The loop over the answers for the inner sets: an empty answer is an inner set blocked
already, and the others are kept for later. -/
def closestInner : UInt64 → List (List N) → List (List N) → Option (UInt64 × List (List N))
  | leftTillBlock, resInternals, [] => some (leftTillBlock, resInternals)
  | leftTillBlock, resInternals, v :: vs =>
    if v.length = 0 then
      if leftTillBlock - 1 = 0 then none else closestInner (leftTillBlock - 1) resInternals vs
    else closestInner leftTillBlock (emplaceBySize v resInternals) vs

/-- The last loop: the answers for inner sets, smallest first, until enough are blocked. -/
def takeInternals : UInt64 → List (List N) → List N
  | _, [] => []
  | leftTillBlock, v :: vs =>
    if leftTillBlock ≠ 0 then v ++ takeInternals (leftTillBlock - 1) vs else []

mutual
/-- `LocalNode::findClosestVBlocking(qset, nodes, excluded)`. -/
def findClosestVBlocking : SCPQuorumSet N → List N → Option N → List N
  | ⟨threshold, validators, innerSets⟩, nodes, excluded =>
    let leftTillBlock : UInt64 :=
      (1 + validators.length.toUInt64 + innerSets.length.toUInt64) - threshold.toUInt64
    match closestValidators nodes excluded leftTillBlock [] validators with
    | none => []
    | some (leftTillBlock, res) =>
      match closestInner leftTillBlock [] (closestAnswers innerSets nodes excluded) with
      | none => []
      | some (leftTillBlock, resInternals) =>
        -- use the top level validators to get closer, then the smallest inner answers
        let res := if res.length.toUInt64 > leftTillBlock then res.take leftTillBlock.toNat else res
        res ++ takeInternals (leftTillBlock - res.length.toUInt64) resInternals

/-- The answers of `findClosestVBlocking` for inner sets, in order. -/
def closestAnswers : List (SCPQuorumSet N) → List N → Option N → List (List N)
  | [], _, _ => []
  | i :: is, nodes, excluded => findClosestVBlocking i nodes excluded :: closestAnswers is nodes excluded
end

example : (findClosestVBlocking (⟨2, [0, 1, 2], [⟨1, [3, 4, 5], []⟩]⟩ : SCPQuorumSet ℕ)
    [0, 1, 2, 3] none).length = 3 := by
  decide

/-! ## The loops, read off -/

theorem closestAnswers_eq (is : List (SCPQuorumSet N)) (nodes : List N) (excluded : Option N) :
    closestAnswers is nodes excluded = is.map (findClosestVBlocking · nodes excluded) := by
  induction is with
  | nil => rfl
  | cons i is ih => rw [closestAnswers, ih, List.map_cons]

/-- With no node excluded, the validator loop counts down once for each validator outside
`nodes` and saves the others in order. -/
theorem closestValidators_none (nodes : List N) (left : UInt64) (res vs : List N) :
    closestValidators nodes none left res vs =
      (Threshold.countDown left (vs.map fun v => decide (v ∉ nodes))).map
        fun l => (l, res ++ vs.filter fun v => decide (v ∈ nodes)) := by
  induction vs generalizing left res with
  | nil => simp [closestValidators, Threshold.countDown]
  | cons v vs ih =>
    by_cases hv : v ∈ nodes
    · simp [closestValidators, Threshold.countDown, hv, ih]
    · by_cases hl : left - 1 = 0
      · simp [closestValidators, Threshold.countDown, hv, hl]
      · simp [closestValidators, Threshold.countDown, hv, hl, ih]

omit [DecidableEq N] in
/-- The inner loop counts down once for each empty answer and sorts the others by size. -/
theorem closestInner_eq (left : UInt64) (ms answers : List (List N)) :
    closestInner left ms answers =
      (Threshold.countDown left (answers.map fun v => decide (v.length = 0))).map
        fun l => (l, (answers.filter fun v => !decide (v.length = 0)).foldl
          (fun ms v => emplaceBySize v ms) ms) := by
  induction answers generalizing left ms with
  | nil => simp [closestInner, Threshold.countDown]
  | cons v vs ih =>
    rcases v with _ | ⟨x, v⟩
    · by_cases hl : left - 1 = 0
      · simp [closestInner, Threshold.countDown, hl]
      · simp [closestInner, Threshold.countDown, hl, ih]
    · simp [closestInner, Threshold.countDown, ih]

omit [DecidableEq N] in
/-- The last loop takes the first `leftTillBlock` answers. -/
theorem takeInternals_eq (left : UInt64) (ms : List (List N)) :
    takeInternals left ms = (ms.take left.toNat).flatten := by
  induction ms generalizing left with
  | nil => simp [takeInternals]
  | cons v vs ih =>
    by_cases hl : left = 0
    · simp [takeInternals, hl]
    · have hpos : 0 < left.toNat := by
        have : left.toNat ≠ 0 := fun h => hl (UInt64.toNat_inj.mp h)
        omega
      have hsub : (left - 1).toNat = left.toNat - 1 := by
        rw [UInt64.toNat_sub_of_le _ _ (by rw [UInt64.le_iff_toNat_le]; simp; omega)]
        simp
      obtain ⟨k, hk⟩ : ∃ k, left.toNat = k + 1 := ⟨left.toNat - 1, by omega⟩
      rw [takeInternals, if_pos hl, ih, hsub, hk, List.take_succ_cons, List.flatten_cons]
      simp

/-- The inner sets in the order of their answers' sizes, as the `multiset` holds those
answers. -/
def sortedBySize {β : Type*} (f : β → List N) (xs : List β) : List β :=
  xs.foldl (fun js x => js.orderedInsert (fun a b => (f a).length < (f b).length) x) []

omit [DecidableEq N] in
/-- The `multiset` of answers is the answers of the inner sets sorted by size. -/
theorem foldl_emplaceBySize {β : Type*} (f : β → List N) (xs : List β) :
    (xs.map f).foldl (fun ms v => emplaceBySize v ms) [] = (sortedBySize f xs).map f := by
  suffices h : ∀ acc : List β, (xs.map f).foldl (fun ms v => emplaceBySize v ms) (acc.map f) =
      (xs.foldl (fun js x => js.orderedInsert (fun a b => (f a).length < (f b).length) x) acc).map f
    from h []
  induction xs with
  | nil => intro acc; rfl
  | cons x xs ih =>
    intro acc
    rw [List.map_cons, List.foldl_cons, List.foldl_cons, ← ih]
    congr 1
    exact (Threshold.map_orderedInsert_lt (fun b => (f b).length) f List.length (fun _ => rfl)
      x acc).symm

omit [DecidableEq N] in
theorem sortedBySize_perm {β : Type*} (f : β → List N) (xs : List β) :
    (sortedBySize f xs).Perm xs := by
  simpa [sortedBySize] using
    (Threshold.foldl_orderedInsert_lt (fun b => (f b).length) xs [] List.Pairwise.nil).1

omit [DecidableEq N] in
theorem sortedBySize_pairwise {β : Type*} (f : β → List N) (xs : List β) :
    (sortedBySize f xs).Pairwise fun a b => (f a).length ≤ (f b).length :=
  (Threshold.foldl_orderedInsert_lt (fun b => (f b).length) xs [] List.Pairwise.nil).2

omit [DecidableEq N] in
/-- The tail of `findClosestVBlocking`: as many saved validators as are left to block, then
the inner answers for what remains. -/
theorem closestTail_eq (res : List N) (resInternals : List (List N)) (left : UInt64)
    (hres : res.length < 2 ^ 64) :
    (if res.length.toUInt64 > left then res.take left.toNat else res) ++
        takeInternals (left - (if res.length.toUInt64 > left then res.take left.toNat else res).length.toUInt64)
          resInternals =
      res.take left.toNat ++ (resInternals.take (left.toNat - res.length)).flatten := by
  have hlen : res.length.toUInt64.toNat = res.length := by
    rw [UInt64.toNat_ofNat']
    omega
  by_cases hgt : res.length.toUInt64 > left
  · have hgt' : left.toNat < res.length := by
      rw [gt_iff_lt, UInt64.lt_iff_toNat_lt, hlen] at hgt
      exact hgt
    have htake : (res.take left.toNat).length.toUInt64 = left := by
      rw [List.length_take_of_le hgt'.le]
      exact UInt64.toNat_inj.mp (by rw [UInt64.toNat_ofNat']; omega)
    rw [if_pos hgt, htake, UInt64.sub_self, takeInternals_eq]
    simp only [UInt64.toNat_zero, List.take_zero, List.flatten_nil]
    rw [Nat.sub_eq_zero_of_le hgt'.le, List.take_zero, List.flatten_nil]
  · have hle : res.length ≤ left.toNat := by
      rw [gt_iff_lt, UInt64.lt_iff_toNat_lt, hlen] at hgt
      omega
    have hsub : (left - res.length.toUInt64).toNat = left.toNat - res.length := by
      rw [UInt64.toNat_sub_of_le _ _ (by rw [UInt64.le_iff_toNat_le, hlen]; exact hle), hlen]
    rw [if_neg hgt, takeInternals_eq, hsub, List.take_of_length_le hle]

/-- With no node excluded, `findClosestVBlocking` counts down once for each member blocked
already. If that leaves something, it takes that many validators of `nodes`, then the inner
answers, smallest first. -/
theorem findClosestVBlocking_none (t : UInt32) (vs : List N) (is : List (SCPQuorumSet N))
    (nodes : List N) (hsize : vs.length < 2 ^ 64) :
    findClosestVBlocking ⟨t, vs, is⟩ nodes none =
      match Threshold.countDown ((1 + vs.length.toUInt64 + is.length.toUInt64) - t.toUInt64)
          (vs.map (fun v => decide (v ∉ nodes)) ++
            is.map fun i => decide ((findClosestVBlocking i nodes none).length = 0)) with
      | none => []
      | some left =>
        (vs.filter fun v => decide (v ∈ nodes)).take left.toNat ++
          (((sortedBySize (findClosestVBlocking · nodes none)
            (is.filter fun i => !decide ((findClosestVBlocking i nodes none).length = 0))).take
              (left.toNat - (vs.filter fun v => decide (v ∈ nodes)).length)).map
            (findClosestVBlocking · nodes none)).flatten := by
  rw [findClosestVBlocking, closestAnswers_eq]
  dsimp only
  rw [closestValidators_none, Threshold.countDown_append]
  cases h1 : Threshold.countDown ((1 + vs.length.toUInt64 + is.length.toUInt64) - t.toUInt64)
      (vs.map fun v => decide (v ∉ nodes)) with
  | none => rfl
  | some l1 =>
    simp only [Option.map_some, Option.bind_some, List.nil_append]
    rw [closestInner_eq, List.map_map, List.filter_map, foldl_emplaceBySize]
    simp only [Function.comp_def]
    cases h2 : Threshold.countDown l1
        (is.map fun i => decide ((findClosestVBlocking i nodes none).length = 0)) with
    | none => rfl
    | some l2 =>
      simp only [Option.map_some]
      rw [closestTail_eq _ _ _ (lt_of_le_of_lt (List.length_filter_le _ _) hsize), List.map_take]

/-! ## A closest v-blocking set -/

/-- `res` is a closest v-blocking set for `q` from `nodes`. It holds nodes of `nodes` that
occur in `q`, each once. With the nodes outside `nodes` it blocks `q`, and it is no longer
than any list of nodes that does so. It is empty when the nodes outside `nodes` block `q`
already. -/
structure Closest (q : SCPQuorumSet N) (nodes res : List N) : Prop where
  mem_nodes : ∀ n ∈ res, n ∈ nodes
  subperm : res.Subperm (allNodes q)
  blocking : VBlocking q fun n => decide (n ∉ nodes) || decide (n ∈ res)
  minimal : ∀ R : List N, (VBlocking q fun n => decide (n ∉ nodes) || decide (n ∈ R)) →
    res.length ≤ R.length
  eq_nil_iff : res = [] ↔ VBlocking q fun n => decide (n ∉ nodes)

omit [DecidableEq N] in
/-- The length of what the tail takes: the first `left` costs, a validator costing one node
and an inner set the size of its answer. -/
theorem length_closestTail {β : Type*} (vA : List N) (js : List β) (f : β → List N) (left : ℕ) :
    (vA.take left ++ ((js.take (left - vA.length)).map f).flatten).length =
      ((List.replicate vA.length 1 ++ js.map fun j => (f j).length).take left).sum := by
  rw [List.take_append, List.length_replicate, List.take_replicate, List.sum_append,
    List.length_append, List.length_take, List.length_flatten, List.map_map, ← List.map_take]
  simp [Function.comp_def]

omit [DecidableEq N] in
/-- Validators first, then inner answers by size: the costs are in increasing order. -/
theorem pairwise_costs {β : Type*} (n : ℕ) {js : List β} (g : β → ℕ)
    (hjs : js.Pairwise fun a b => g a ≤ g b) (hpos : ∀ j ∈ js, 1 ≤ g j) :
    (List.replicate n 1 ++ js.map g).Pairwise (· ≤ ·) := by
  rw [List.pairwise_append, List.pairwise_map]
  refine ⟨List.pairwise_replicate.mpr (Or.inr le_rfl), hjs, fun a ha b hb => ?_⟩
  obtain ⟨j, hj, rfl⟩ := List.mem_map.mp hb
  rw [(List.mem_replicate.mp ha).2]
  exact hpos j hj

/-- In a quorum set naming every node once, a node lies in at most one member. -/
theorem members_count_le_one {t : UInt32} {vs : List N} {is newly : List (SCPQuorumSet N)}
    (hnd : (allNodes ⟨t, vs, is⟩).Nodup) (hsub : newly.Sublist is) (x : N) :
    (if x ∈ vs then 1 else 0) + newly.countP (fun i => decide (x ∈ allNodes i)) ≤ 1 := by
  have hle : (vs ++ (newly.map allNodes).flatten).count x ≤ 1 := by
    have hsl : (vs ++ (newly.map allNodes).flatten).Sublist (allNodes ⟨t, vs, is⟩) := by
      rw [allNodes_mk]
      exact (hsub.map allNodes).flatten.append_left vs
    exact (hsl.count_le x).trans (List.nodup_iff_count_le_one.mp hnd x)
  have hmem := Threshold.countP_mem_le_count (newly.map allNodes) x
  rw [List.countP_map] at hmem
  rw [List.count_append] at hle
  have hvs : (if x ∈ vs then 1 else 0) ≤ vs.count x := by
    split_ifs with hx
    · exact List.count_pos_iff.mpr hx
    · exact Nat.zero_le _
  exact le_trans (by simpa [Function.comp_def] using Nat.add_le_add hvs hmem) hle

/-- The tail of one level of `findClosestVBlocking` is a closest v-blocking set when the
members blocked already leave `left > 0` to block, given closest answers for the inner
sets. -/
theorem closest_tail {t : UInt32} {vs : List N} {is : List (SCPQuorumSet N)} {nodes : List N}
    (hq : ThresholdsInRange ⟨t, vs, is⟩) (hnd : (allNodes ⟨t, vs, is⟩).Nodup)
    (ih : ∀ i ∈ is, Closest i nodes (findClosestVBlocking i nodes none)) {left : ℕ}
    (hleft : left + vs.countP (fun v => decide (v ∉ nodes)) +
      is.countP (fun i => decide (VBlocking i fun n => decide (n ∉ nodes))) =
        vs.length + is.length + 1 - t.toNat)
    (hpos : 0 < left) :
    Closest ⟨t, vs, is⟩ nodes ((vs.filter fun v => decide (v ∈ nodes)).take left ++
      (((sortedBySize (findClosestVBlocking · nodes none)
        (is.filter fun i => !decide ((findClosestVBlocking i nodes none).length = 0))).take
          (left - (vs.filter fun v => decide (v ∈ nodes)).length)).map
        (findClosestVBlocking · nodes none)).flatten) := by
  obtain ⟨⟨h1, h2, h3⟩, -⟩ := thresholdsInRange_mk.mp hq
  have hvs_nd : vs.Nodup := by
    rw [allNodes_mk] at hnd
    exact hnd.sublist (List.sublist_append_left _ _)
  -- the inner sets not blocked yet, in the order of their answers' sizes
  have hperm := sortedBySize_perm (findClosestVBlocking · nodes none)
    (is.filter fun i => !decide ((findClosestVBlocking i nodes none).length = 0))
  have hsorted := sortedBySize_pairwise (findClosestVBlocking · nodes none)
    (is.filter fun i => !decide ((findClosestVBlocking i nodes none).length = 0))
  have hopen : is.countP (fun i => !decide ((findClosestVBlocking i nodes none).length = 0)) +
      is.countP (fun i => decide (VBlocking i fun n => decide (n ∉ nodes))) = is.length := by
    rw [← Threshold.countP_add_countP_not (fun i => decide (VBlocking i fun n => decide (n ∉ nodes))) is,
      Nat.add_comm]
    congr 1
    exact List.countP_congr fun i hi => by
      simp only [Bool.not_eq_true', decide_eq_false_iff_not, List.length_eq_zero_iff,
        (ih i hi).eq_nil_iff]
  have hvA : (vs.filter fun v => decide (v ∈ nodes)).length +
      vs.countP (fun v => decide (v ∉ nodes)) = vs.length := by
    rw [← List.countP_eq_length_filter, ← Threshold.countP_add_countP_not (fun v => decide (v ∈ nodes)) vs]
    congr 1
    exact List.countP_congr fun v _ => by simp
  generalize hjs : sortedBySize (findClosestVBlocking · nodes none)
    (is.filter fun i => !decide ((findClosestVBlocking i nodes none).length = 0)) = js at hperm hsorted
  have hjs_mem : ∀ j ∈ js, j ∈ is ∧ ¬ VBlocking j (fun n => decide (n ∉ nodes)) ∧
      1 ≤ (findClosestVBlocking j nodes none).length := by
    intro j hj
    obtain ⟨hj, hne⟩ := List.mem_filter.mp (hperm.mem_iff.mp hj)
    have hne' : (findClosestVBlocking j nodes none).length ≠ 0 := by simpa using hne
    refine ⟨hj, fun hb => hne' ?_, by omega⟩
    rw [List.length_eq_zero_iff]
    exact (ih j hj).eq_nil_iff.mpr hb
  have hjs_len : js.length + is.countP (fun i => decide (VBlocking i fun n => decide (n ∉ nodes))) =
      is.length := by
    rw [hperm.length_eq, ← List.countP_eq_length_filter]
    exact hopen
  have hjs_sub : js.Subperm is := hperm.subperm.trans List.filter_sublist.subperm
  generalize hvA' : vs.filter (fun v => decide (v ∈ nodes)) = vA at hvA
  have hvA_sub : vA.Sublist vs := hvA' ▸ List.filter_sublist
  have hvA_mem : ∀ v ∈ vA, v ∈ nodes := fun v hv => by
    rw [← hvA'] at hv
    simpa using (List.mem_filter.mp hv).2
  have hnb : ¬ VBlocking ⟨t, vs, is⟩ fun n => decide (n ∉ nodes) := by
    rw [vBlocking_mk_iff]
    omega
  have hjs_take : (js.take (left - vA.length)).Subperm is :=
    (List.take_sublist _ _).subperm.trans hjs_sub
  set res := vA.take left ++ ((js.take (left - vA.length)).map
    (findClosestVBlocking · nodes none)).flatten with hres
  have hres_inner : ∀ j ∈ js.take (left - vA.length), ∀ n ∈ findClosestVBlocking j nodes none,
      n ∈ res := fun j hj n hn =>
    List.mem_append_right _ (List.mem_flatten.mpr ⟨_, List.mem_map_of_mem hj, hn⟩)
  -- the validators taken and the inner sets whose answers are taken are blocked now
  have hblocking : VBlocking ⟨t, vs, is⟩ fun n => decide (n ∉ nodes) || decide (n ∈ res) := by
    classical
    rw [vBlocking_mk_iff]
    have hv : vs.countP (fun v => decide (v ∉ nodes)) +
        vs.countP (fun v => decide (v ∈ vA.take left)) ≤
          vs.countP (fun n => decide (n ∉ nodes) || decide (n ∈ res)) :=
      Threshold.countP_add_le_of_disjoint
        (fun v _ hp => by
          simp only [decide_eq_true_eq] at hp
          simpa using fun h => hp (hvA_mem v (List.mem_of_mem_take h)))
        (fun v _ h => by
          simp only [Bool.or_eq_true, decide_eq_true_eq] at h ⊢
          exact h.imp id fun h => List.mem_append_left _ h)
    have hv' : (vA.take left).length ≤ vs.countP (fun v => decide (v ∈ vA.take left)) := by
      have hall := List.countP_eq_length.mpr fun v (hv : v ∈ vA.take left) => decide_eq_true hv
      rw [← hall]
      exact ((List.take_sublist _ _).trans hvA_sub).countP_le
    have hi : is.countP (fun i => decide (VBlocking i fun n => decide (n ∉ nodes))) +
        is.countP (fun i => decide (i ∈ js.take (left - vA.length))) ≤
          is.countP (fun i => decide (VBlocking i fun n => decide (n ∉ nodes) || decide (n ∈ res))) :=
      Threshold.countP_add_le_of_disjoint
        (fun i _ hp => by
          simp only [decide_eq_true_eq] at hp
          simpa using fun h => (hjs_mem i (List.mem_of_mem_take h)).2.1 hp)
        (fun i hi h => decide_eq_true <| by
          simp only [decide_eq_true_eq] at h
          rcases h with h | h
          · exact h.mono fun n hn => by simp [hn]
          · refine (ih i (hjs_mem i (List.mem_of_mem_take h)).1).blocking.mono fun n hn => ?_
            simp only [Bool.or_eq_true, decide_eq_true_eq] at hn ⊢
            exact hn.imp id (hres_inner i h n))
    have hi' : (js.take (left - vA.length)).length ≤
        is.countP (fun i => decide (i ∈ js.take (left - vA.length))) := by
      have hall := List.countP_eq_length.mpr
        fun i (hi : i ∈ js.take (left - vA.length)) => decide_eq_true hi
      rw [← hall]
      exact hjs_take.countP_le _
    simp only [List.length_take] at hv' hi'
    omega
  -- any list that blocks pays for each member it blocks in nodes of that member alone
  have hminimal : ∀ R : List N,
      (VBlocking ⟨t, vs, is⟩ fun n => decide (n ∉ nodes) || decide (n ∈ R)) →
        res.length ≤ R.length := by
    intro R hR
    rw [vBlocking_mk_iff] at hR
    have hv : vs.countP (fun n => decide (n ∉ nodes) || decide (n ∈ R)) ≤
        vs.countP (fun v => decide (v ∉ nodes)) +
          vs.countP (fun v => decide (v ∈ nodes) && decide (v ∈ R)) :=
      Threshold.countP_le_add fun v _ h => by
        by_cases hv : v ∈ nodes <;> simp_all
    have hi : is.countP (fun i => decide (VBlocking i fun n => decide (n ∉ nodes) || decide (n ∈ R))) ≤
        is.countP (fun i => decide (VBlocking i fun n => decide (n ∉ nodes))) +
          (is.filter fun i => !decide (VBlocking i fun n => decide (n ∉ nodes)) &&
            decide (VBlocking i fun n => decide (n ∉ nodes) || decide (n ∈ R))).length := by
      rw [← List.countP_eq_length_filter]
      exact Threshold.countP_le_add fun i _ h => by
        by_cases hb : VBlocking i fun n => decide (n ∉ nodes) <;> simp_all
    generalize hnew : (is.filter fun i => !decide (VBlocking i fun n => decide (n ∉ nodes)) &&
      decide (VBlocking i fun n => decide (n ∉ nodes) || decide (n ∈ R))) = newly at hi
    have hnew_sub : newly.Sublist is := hnew ▸ List.filter_sublist
    have hnew_mem : ∀ i ∈ newly, i ∈ is ∧ ¬ VBlocking i (fun n => decide (n ∉ nodes)) ∧
        VBlocking i fun n => decide (n ∉ nodes) || decide (n ∈ R) := fun i hi => by
      rw [← hnew] at hi
      simpa using List.mem_filter.mp hi
    -- an inner set blocked by `R` costs at least its answer, in its own nodes of `R`
    have hcost : ∀ i ∈ newly, (findClosestVBlocking i nodes none).length ≤
        R.countP fun x => decide (x ∈ allNodes i) := by
      intro i hi
      obtain ⟨hi, -, hblk⟩ := hnew_mem i hi
      rw [List.countP_eq_length_filter]
      refine (ih i hi).minimal _ ((vBlocking_congr fun n hn => ?_).mp hblk)
      simp [hn]
    have hvR : vs.countP (fun v => decide (v ∈ nodes) && decide (v ∈ R)) ≤
        R.countP fun x => decide (x ∈ vs) && decide (x ∈ nodes) := by
      rw [List.countP_eq_length_filter, List.countP_eq_length_filter]
      refine (List.Nodup.subperm (hvs_nd.sublist List.filter_sublist) fun x hx => ?_).length_le
      simp only [List.mem_filter, Bool.and_eq_true, decide_eq_true_eq] at hx ⊢
      exact ⟨hx.2.2, hx.1, hx.2.1⟩
    have hnodes : (R.countP fun x => decide (x ∈ vs) && decide (x ∈ nodes)) +
        (newly.map fun i => R.countP fun x => decide (x ∈ allNodes i)).sum ≤ R.length := by
      -- each node of `R` is a validator or a node of at most one newly blocked member
      have h : ((none :: newly.map some).map fun o => R.countP fun x =>
          o.elim (decide (x ∈ vs) && decide (x ∈ nodes)) fun i => decide (x ∈ allNodes i)).sum ≤
            R.length :=
        Threshold.sum_countP_le_length _ _ fun x _ => by
          have hx := members_count_le_one hnd hnew_sub x
          have hvs : (if (decide (x ∈ vs) && decide (x ∈ nodes)) = true then 1 else 0) ≤
              if x ∈ vs then 1 else 0 := by
            by_cases hv : x ∈ vs <;> by_cases hn : x ∈ nodes <;> simp [hv, hn]
          simp only [List.countP_cons, List.countP_map, Option.elim, Function.comp_def]
          omega
      simpa [List.map_map, Function.comp_def] using h
    have hsub : (List.replicate (vs.countP fun v => decide (v ∈ nodes) && decide (v ∈ R)) 1 ++
        newly.map fun i => (findClosestVBlocking i nodes none).length).Subperm
          (List.replicate vA.length 1 ++ js.map fun j => (findClosestVBlocking j nodes none).length) := by
      have ha : (vs.countP fun v => decide (v ∈ nodes) && decide (v ∈ R)) ≤ vA.length := by
        rw [← hvA', ← List.countP_eq_length_filter]
        exact List.countP_mono_left fun v _ h => by simp_all
      have hnew_js : newly.Subperm js := by
        have hfilter : newly.Sublist
            (is.filter fun i => !decide ((findClosestVBlocking i nodes none).length = 0)) := by
          -- a member not blocked without `R` has a nonempty answer
          have hcongr : (is.filter fun i => !decide (VBlocking i fun n => decide (n ∉ nodes)) &&
              decide (VBlocking i fun n => decide (n ∉ nodes) || decide (n ∈ R))) =
                is.filter fun i => (!decide (VBlocking i fun n => decide (n ∉ nodes)) &&
                  decide (VBlocking i fun n => decide (n ∉ nodes) || decide (n ∈ R))) &&
                    !decide ((findClosestVBlocking i nodes none).length = 0) :=
            List.filter_congr fun i hi => by
              by_cases hb : VBlocking i fun n => decide (n ∉ nodes)
              · simp only [hb, decide_true, Bool.not_true, Bool.false_and]
              · have hne : findClosestVBlocking i nodes none ≠ [] :=
                  fun h => hb ((ih i hi).eq_nil_iff.mp h)
                simp only [hb, hne, decide_false, Bool.not_false, Bool.true_and,
                  List.length_eq_zero_iff, Bool.and_true]
          rw [← hnew, hcongr]
          exact List.monotone_filter_right is fun i h => (Bool.and_eq_true _ _).mp h |>.2
        exact hfilter.subperm.trans hperm.symm.subperm
      exact ((List.replicate_sublist_replicate 1).mpr ha).subperm.append
        (Threshold.subperm_map _ hnew_js)
    have hsortC := pairwise_costs vA.length (fun j => (findClosestVBlocking j nodes none).length)
      hsorted fun j hj => (hjs_mem j hj).2.2
    have hk : left ≤ (List.replicate (vs.countP fun v => decide (v ∈ nodes) && decide (v ∈ R)) 1 ++
        newly.map fun i => (findClosestVBlocking i nodes none).length).length := by
      simp only [List.length_append, List.length_replicate, List.length_map]
      omega
    have hle := Threshold.sum_take_le_of_subperm hsortC hsub hk
    have hsum := List.sum_le_sum hcost
    rw [hres, length_closestTail]
    have hrep : (List.replicate (vs.countP fun v => decide (v ∈ nodes) && decide (v ∈ R)) 1).sum =
        vs.countP fun v => decide (v ∈ nodes) && decide (v ∈ R) := by simp
    rw [List.sum_append, hrep] at hle
    omega
  refine ⟨fun n hn => ?_, ?_, hblocking, hminimal, ⟨fun h => ?_, fun h => absurd h hnb⟩⟩
  · rcases List.mem_append.mp hn with hn | hn
    · exact hvA_mem n (List.mem_of_mem_take hn)
    · obtain ⟨l, hl, hn⟩ := List.mem_flatten.mp hn
      obtain ⟨j, hj, rfl⟩ := List.mem_map.mp hl
      exact (ih j (hjs_mem j (List.mem_of_mem_take hj)).1).mem_nodes n hn
  · rw [allNodes_mk]
    refine ((List.take_sublist _ _).trans hvA_sub).subperm.append ?_
    exact (Threshold.subperm_flatten_map _ fun j hj =>
      (ih j (hjs_mem j (List.mem_of_mem_take hj)).1).subperm).trans
        (Threshold.subperm_flatten (Threshold.subperm_map allNodes hjs_take))
  · exact absurd (hblocking.mono fun n hn => by simpa [h] using hn) hnb

/-- One level of the search: from closest answers for the inner sets, the answer at the top is
closest. The count-down of the code stops on the validators outside `nodes` and on the inner sets
answering the empty list, which by induction are those blocked already. -/
theorem closest_mk {t : UInt32} {vs : List N} {is : List (SCPQuorumSet N)} {nodes : List N}
    (hq : ThresholdsInRange ⟨t, vs, is⟩) (hnd : (allNodes ⟨t, vs, is⟩).Nodup)
    (ih : ∀ i ∈ is, Closest i nodes (findClosestVBlocking i nodes none)) :
    Closest ⟨t, vs, is⟩ nodes (findClosestVBlocking ⟨t, vs, is⟩ nodes none) := by
  obtain ⟨⟨h1, h2, h3⟩, -⟩ := thresholdsInRange_mk.mp hq
  rw [findClosestVBlocking_none t vs is nodes (by omega)]
  have hcount : (vs.map (fun v => decide (v ∉ nodes)) ++
      is.map fun i => decide ((findClosestVBlocking i nodes none).length = 0)).count true =
        vs.countP (fun v => decide (v ∉ nodes)) +
          is.countP (fun i => decide (VBlocking i fun n => decide (n ∉ nodes))) := by
    rw [List.count_append, Threshold.count_true_map, Threshold.count_true_map]
    congr 1
    exact List.countP_congr fun i hi => by
      simp only [decide_eq_true_eq, List.length_eq_zero_iff, (ih i hi).eq_nil_iff]
  have hL := toNat_membersLeft (by omega : t.toNat ≤ vs.length + is.length + 1)
    (by omega : vs.length + is.length < 2 ^ 63)
  have hpos0 : 0 < (((1 + vs.length.toUInt64 + is.length.toUInt64) - t.toUInt64).toNat : ℤ) := by
    rw [hL]
    omega
  cases hcd : Threshold.countDown ((1 + vs.length.toUInt64 + is.length.toUInt64) - t.toUInt64)
      (vs.map (fun v => decide (v ∉ nodes)) ++
        is.map fun i => decide ((findClosestVBlocking i nodes none).length = 0)) with
  | none =>
    -- the nodes outside `nodes` block already, and the empty answer is closest
    have hle := (Threshold.countDown_eq_none_iff Threshold.counts_uint64 hpos0 _).mp hcd
    rw [hcount, hL] at hle
    have hb : VBlocking ⟨t, vs, is⟩ fun n => decide (n ∉ nodes) := by
      rw [vBlocking_mk_iff]
      omega
    exact ⟨fun _ h => absurd h List.not_mem_nil, List.nil_subperm,
      hb.mono fun n hn => by simp [hn], fun _ _ => Nat.zero_le _, ⟨fun _ => hb, fun _ => rfl⟩⟩
  | some left =>
    have hnone : ¬ (((1 + vs.length.toUInt64 + is.length.toUInt64) - t.toUInt64).toNat : ℤ) ≤
        ((vs.map (fun v => decide (v ∉ nodes)) ++
          is.map fun i => decide ((findClosestVBlocking i nodes none).length = 0)).count true : ℤ) :=
      fun h => by
        rw [(Threshold.countDown_eq_none_iff Threshold.counts_uint64 hpos0 _).mpr h] at hcd
        cases hcd
    have hval := Threshold.countDown_eq_some Threshold.counts_uint64 hpos0 hcd
    rw [hcount, hL] at hval hnone
    exact closest_tail hq hnd ih (by omega) (by omega)

/-- `findClosestVBlocking` with no excluded node, on a sane quorum set: the answer is a smallest
list of nodes of `nodes` that, added to the nodes outside `nodes`, is v-blocking, and it is empty
exactly when the nodes outside `nodes` are v-blocking already. -/
theorem findClosestVBlocking_spec (q : SCPQuorumSet N) (extraChecks : Bool)
    (h : isQuorumSetSane q extraChecks = true) (nodes : List N) :
    Closest q nodes (findClosestVBlocking q nodes none) := by
  obtain ⟨hq, hnd⟩ := isQuorumSetSane_thresholdsInRange h
  clear h
  -- induction on the nesting; sanity passes to each inner set
  induction q with
  | mk t vs is ih =>
    exact closest_mk hq hnd fun i hi =>
      ih i hi ((thresholdsInRange_mk.mp hq).2 i hi) (hnd.sublist (allNodes_sublist hi))

theorem findClosestVBlocking_spec_nested :
    isQuorumSetSane (⟨2, [0, 1, 2], [⟨1, [3, 4, 5], []⟩]⟩ : SCPQuorumSet ℕ) false = true ∧
      Closest (⟨2, [0, 1, 2], [⟨1, [3, 4, 5], []⟩]⟩ : SCPQuorumSet ℕ) [0, 1, 2, 3]
        (findClosestVBlocking ⟨2, [0, 1, 2], [⟨1, [3, 4, 5], []⟩]⟩ [0, 1, 2, 3] none) :=
  ⟨by decide, findClosestVBlocking_spec _ false (by decide) _⟩

end Dexfin.Stellar.SCPQuorumSet
