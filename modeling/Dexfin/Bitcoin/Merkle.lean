import Mathlib

/-!
# The merkle root of a block

`ComputeMerkleRoot` of `consensus/merkle.cpp`: while a level has two or more nodes, note
whether two nodes at positions `2k` and `2k + 1` are equal, duplicate the last node of an odd
level, and hash the pairs with `SHA256D64`. An equal pair marks the root as mutated, the
defence against CVE-2012-2459 that `CheckBlock` rejects as "bad-txns-duplicate".

The loop computes the root level by level and reports an equal pair on some level below the
root (`computeMerkleRoot_eq`). `SHA256D64` is a parameter, over any type of hashes. When it is
injective and gives no leaf as a hash, two different nonempty lists with one root are told
apart: one of them is mutated (`mutated_of_merkleRoot_eq`), so `CheckBlock`
accepts at most one list of transactions for the merkle root of a header
(`checkMerkleRoot_unique`). The empty list has the root `uint256()`, that of the list of
that one hash.
-/

namespace Dexfin.Bitcoin

section Merkle

variable {α : Type} (sha256d64 : α → α → α)

/-! ## The loop of `ComputeMerkleRoot` -/

/-- The mutation check of one round: `hashes[pos] == hashes[pos + 1]` for `pos = 0, 2, …`
while `pos + 1 < hashes.size()`. -/
def mutationCheck [DecidableEq α] : List α → Bool
  | a :: b :: rest => a == b || mutationCheck rest
  | _ => false

/-- `hashes.push_back(hashes.back())` on a level of odd size. -/
def padLevel [Zero α] (hashes : List α) : List α :=
  if hashes.length % 2 = 1 then hashes ++ [hashes.getLastD 0] else hashes

/-- `SHA256D64` over `hashes.size() / 2` blocks in place, then
`hashes.resize(hashes.size() / 2)`: node `i` becomes the hash of nodes `2i` and `2i + 1`. -/
def hashPairs : List α → List α
  | a :: b :: rest => sha256d64 a b :: hashPairs rest
  | _ => []

theorem length_hashPairs : ∀ hashes : List α,
    (hashPairs sha256d64 hashes).length = hashes.length / 2
  | a :: b :: rest => by
    simp only [hashPairs, List.length_cons, length_hashPairs rest]
    omega
  | [] => by simp [hashPairs]
  | [_] => by simp [hashPairs]

theorem length_padLevel [Zero α] (hashes : List α) :
    (padLevel hashes).length = hashes.length + hashes.length % 2 := by
  unfold padLevel
  split
  · simp only [List.length_append, List.length_singleton]
    omega
  · omega

/-- The `while (hashes.size() > 1)` loop, with the mutations noted so far. -/
def computeMerkleRootLoop [DecidableEq α] [Zero α] (mutation : Bool) (hashes : List α) :
    α × Bool :=
  if 1 < hashes.length then
    computeMerkleRootLoop (mutation || mutationCheck hashes)
      (hashPairs sha256d64 (padLevel hashes))
  else
    (match hashes with
      | [] => 0
      | hash :: _ => hash, mutation)
termination_by hashes.length
decreasing_by
  rw [length_hashPairs, length_padLevel]
  omega

/-- `ComputeMerkleRoot`: the root, and what it writes to `*mutated`. With a null `mutated`
the check is skipped; the root is the same. -/
def computeMerkleRoot [DecidableEq α] [Zero α] (hashes : List α) : α × Bool :=
  computeMerkleRootLoop sha256d64 false hashes

/-- `BlockMerkleRoot`, on the hashes `GetHash` of the block's transactions. -/
def blockMerkleRoot [DecidableEq α] [Zero α] (txHashes : List α) : α × Bool :=
  computeMerkleRoot sha256d64 txHashes

/-- The merkle checks of `CheckBlock`, with their reject reasons. -/
def checkMerkleRoot [DecidableEq α] [Zero α] (hashMerkleRoot : α) (txHashes : List α) :
    Except String Unit :=
  let (hashMerkleRoot2, mutated) := blockMerkleRoot sha256d64 txHashes
  if hashMerkleRoot ≠ hashMerkleRoot2 then .error "bad-txnmrklroot"
  else if mutated then .error "bad-txns-duplicate"
  else .ok ()

/-! ## The tree by levels -/

/-- The next level up: adjacent nodes hashed in pairs, the last node of an odd level with
itself. -/
def nextLevel : List α → List α
  | a :: b :: rest => sha256d64 a b :: nextLevel rest
  | [a] => [sha256d64 a a]
  | [] => []

theorem length_nextLevel : ∀ l : List α, (nextLevel sha256d64 l).length = (l.length + 1) / 2
  | a :: b :: rest => by
    simp only [nextLevel, List.length_cons, length_nextLevel rest]
    omega
  | [_] => by simp [nextLevel]
  | [] => by simp [nextLevel]

/-- The root, level by level. -/
def merkleRoot [Zero α] (l : List α) : α :=
  if 1 < l.length then merkleRoot (nextLevel sha256d64 l) else l.headD 0
termination_by l.length
decreasing_by
  rw [length_nextLevel]
  omega

/-- The levels below the root, from the leaves up. -/
def levels (l : List α) : List (List α) :=
  if 1 < l.length then l :: levels (nextLevel sha256d64 l) else []
termination_by l.length
decreasing_by
  rw [length_nextLevel]
  omega

/-- The levels above `l`, up to that of the root. -/
def ups (l : List α) : List (List α) := (levels sha256d64 l).map (nextLevel sha256d64)

/-- Two nodes at positions `2k` and `2k + 1` are equal. -/
def HasEqualPair (l : List α) : Prop := ∃ k, ∃ h : 2 * k + 1 < l.length, l[2 * k] = l[2 * k + 1]

/-- Some level below the root has an equal pair. -/
def Mutated (l : List α) : Prop := ∃ level ∈ levels sha256d64 l, HasEqualPair level

end Merkle

/-! ## The loop computes the tree -/

section Spec

variable {α : Type} (sha256d64 : α → α → α)

theorem levels_of_lt {l : List α} (h : 1 < l.length) :
    levels sha256d64 l = l :: levels sha256d64 (nextLevel sha256d64 l) := by
  rw [levels, if_pos h]

theorem levels_of_le {l : List α} (h : l.length ≤ 1) : levels sha256d64 l = [] := by
  rw [levels, if_neg (by omega)]

theorem merkleRoot_of_lt [Zero α] {l : List α} (h : 1 < l.length) :
    merkleRoot sha256d64 l = merkleRoot sha256d64 (nextLevel sha256d64 l) := by
  rw [merkleRoot, if_pos h]

theorem merkleRoot_of_le [Zero α] {l : List α} (h : l.length ≤ 1) :
    merkleRoot sha256d64 l = l.headD 0 := by
  rw [merkleRoot, if_neg (by omega)]

theorem ups_of_lt {l : List α} (h : 1 < l.length) :
    ups sha256d64 l = nextLevel sha256d64 l :: ups sha256d64 (nextLevel sha256d64 l) := by
  rw [ups, levels_of_lt sha256d64 h, List.map_cons]
  rfl

theorem mutated_of_lt {l : List α} (h : 1 < l.length) :
    Mutated sha256d64 l ↔ HasEqualPair l ∨ Mutated sha256d64 (nextLevel sha256d64 l) := by
  unfold Mutated
  rw [levels_of_lt sha256d64 h]
  simp only [List.mem_cons, exists_eq_or_imp]

theorem padLevel_cons_cons [Zero α] (a b : α) (rest : List α) :
    padLevel (a :: b :: rest) = a :: b :: padLevel rest := by
  unfold padLevel
  simp only [List.length_cons]
  by_cases hodd : rest.length % 2 = 1
  · -- the last node is the last of `rest`
    rw [if_pos (by omega), if_pos hodd]
    cases rest with
    | nil => simp at hodd
    | cons c rest => simp
  · rw [if_neg (by omega), if_neg hodd]

/-- Padding a level and hashing its pairs gives the next level. -/
theorem hashPairs_padLevel [Zero α] : ∀ l : List α,
    hashPairs sha256d64 (padLevel l) = nextLevel sha256d64 l
  | a :: b :: rest => by
    rw [padLevel_cons_cons, hashPairs, nextLevel, hashPairs_padLevel rest]
  | [_] => by simp [padLevel, hashPairs, nextLevel]
  | [] => by simp [padLevel, hashPairs, nextLevel]

theorem hasEqualPair_cons_cons (a b : α) (rest : List α) :
    HasEqualPair (a :: b :: rest) ↔ a = b ∨ HasEqualPair rest := by
  constructor
  · rintro ⟨k, hk, heq⟩
    cases k with
    | zero =>
      left
      simpa using heq
    | succ k =>
      right
      refine ⟨k, by simp only [List.length_cons] at hk; omega, ?_⟩
      simpa [Nat.mul_succ] using heq
  · rintro (rfl | ⟨k, hk, heq⟩)
    · exact ⟨0, by simp, rfl⟩
    · refine ⟨k + 1, by simp only [List.length_cons]; omega, ?_⟩
      simpa [Nat.mul_succ] using heq

/-- The check of a round finds exactly the equal pairs of the level. -/
theorem mutationCheck_iff [DecidableEq α] : ∀ l : List α,
    mutationCheck l = true ↔ HasEqualPair l
  | a :: b :: rest => by
    rw [mutationCheck, Bool.or_eq_true, beq_iff_eq, mutationCheck_iff rest, hasEqualPair_cons_cons]
  | [_] => by
    simp only [mutationCheck, Bool.false_eq_true, false_iff]
    rintro ⟨k, hk, -⟩
    simp only [List.length_singleton] at hk
    omega
  | [] => by
    simp only [mutationCheck, Bool.false_eq_true, false_iff]
    rintro ⟨k, hk, -⟩
    simp only [List.length_nil] at hk
    omega

/-- The loop, from any level and with any mutations so far, gives the root of the level and
notes a mutation on a level from it up. -/
theorem computeMerkleRootLoop_eq [DecidableEq α] [Zero α] (n : ℕ) :
    ∀ (mutation : Bool) (l : List α), l.length = n →
      (computeMerkleRootLoop sha256d64 mutation l).1 = merkleRoot sha256d64 l ∧
        ((computeMerkleRootLoop sha256d64 mutation l).2 = true ↔
          mutation = true ∨ Mutated sha256d64 l) := by
  induction n using Nat.strong_induction_on with
  | _ n ih =>
    intro mutation l hl
    by_cases h : 1 < l.length
    · -- one round: the check of this level, then the level above
      have hlt : (nextLevel sha256d64 l).length < n := by
        rw [length_nextLevel]
        omega
      obtain ⟨hroot, hmut⟩ := ih _ hlt (mutation || mutationCheck l) _ rfl
      rw [computeMerkleRootLoop.eq_def, if_pos h, hashPairs_padLevel, merkleRoot_of_lt sha256d64 h]
      refine ⟨hroot, ?_⟩
      rw [hmut, Bool.or_eq_true, mutationCheck_iff, mutated_of_lt sha256d64 h, or_assoc]
    · -- the root: no level below it
      rw [computeMerkleRootLoop.eq_def, if_neg h, merkleRoot_of_le sha256d64 (by omega)]
      refine ⟨by cases l <;> rfl, ?_⟩
      simp [Mutated, levels_of_le sha256d64 (by omega : l.length ≤ 1)]

/-! ## Telling two lists apart -/

theorem nextLevel_eq_nil_iff {l : List α} : nextLevel sha256d64 l = [] ↔ l = [] := by
  constructor
  · intro h
    have := length_nextLevel sha256d64 l
    rw [h, List.length_nil] at this
    exact List.eq_nil_of_length_eq_zero (by omega)
  · rintro rfl
    rfl

theorem mem_nextLevel : ∀ {l : List α} {x : α}, x ∈ nextLevel sha256d64 l →
    ∃ a b, x = sha256d64 a b
  | a :: b :: rest, x, hx => by
    rcases List.mem_cons.mp hx with rfl | hx
    · exact ⟨a, b, rfl⟩
    · exact mem_nextLevel hx
  | [a], x, hx => by
    rw [nextLevel, List.mem_singleton] at hx
    exact ⟨a, a, hx⟩
  | [], _, hx => by cases hx

/-- With `SHA256D64` injective, two levels below equal levels are equal, or one of them ends
in the duplicate of its last node. -/
theorem nextLevel_eq_nextLevel (hH : Function.Injective2 sha256d64) :
    ∀ {l l' : List α}, nextLevel sha256d64 l = nextLevel sha256d64 l' →
      l = l' ∨ HasEqualPair l ∨ HasEqualPair l'
  | [], l', h => .inl ((nextLevel_eq_nil_iff sha256d64).mp h.symm).symm
  | l, [], h => .inl ((nextLevel_eq_nil_iff sha256d64).mp h)
  | [a], [a'], h => by
    simp only [nextLevel, List.cons.injEq, and_true] at h
    obtain ⟨rfl, -⟩ := hH h
    exact .inl rfl
  | [a], a' :: b' :: rest', h => by
    simp only [nextLevel, List.cons.injEq] at h
    obtain ⟨rfl, rfl⟩ := hH h.1
    obtain rfl := (nextLevel_eq_nil_iff sha256d64).mp h.2.symm
    exact .inr (.inr ⟨0, by simp, rfl⟩)
  | a :: b :: rest, [a'], h => by
    simp only [nextLevel, List.cons.injEq] at h
    obtain ⟨rfl, rfl⟩ := hH h.1
    obtain rfl := (nextLevel_eq_nil_iff sha256d64).mp h.2
    exact .inr (.inl ⟨0, by simp, rfl⟩)
  | a :: b :: rest, a' :: b' :: rest', h => by
    simp only [nextLevel, List.cons.injEq] at h
    obtain ⟨rfl, rfl⟩ := hH h.1
    rcases nextLevel_eq_nextLevel hH h.2 with rfl | hpair | hpair
    · exact .inl rfl
    · exact .inr (.inl ((hasEqualPair_cons_cons a b rest).mpr (.inr hpair)))
    · exact .inr (.inr ((hasEqualPair_cons_cons a b rest').mpr (.inr hpair)))

/-- A level at or above `W` is `W` or among the levels above it. -/
theorem mem_levels (n : ℕ) : ∀ {V W : List α}, W.length = n → V ∈ levels sha256d64 W →
    V = W ∨ V ∈ ups sha256d64 W := by
  induction n using Nat.strong_induction_on with
  | _ n ih =>
    intro V W hW hV
    by_cases h : 1 < W.length
    · rw [levels_of_lt sha256d64 h] at hV
      rw [ups_of_lt sha256d64 h]
      rcases List.mem_cons.mp hV with rfl | hV
      · exact .inl rfl
      · have hlt : (nextLevel sha256d64 W).length < n := by
          rw [length_nextLevel]
          omega
        rcases ih _ hlt rfl hV with rfl | hV
        · exact .inr List.mem_cons_self
        · exact .inr (List.mem_cons_of_mem _ hV)
    · rw [levels_of_le sha256d64 (by omega)] at hV
      cases hV

/-- The level of the root is above every level with two or more nodes. -/
theorem root_mem_ups [Zero α] (n : ℕ) : ∀ {W : List α}, W.length = n → 1 < W.length →
    [merkleRoot sha256d64 W] ∈ ups sha256d64 W := by
  induction n using Nat.strong_induction_on with
  | _ n ih =>
    intro W hW h
    rw [ups_of_lt sha256d64 h, merkleRoot_of_lt sha256d64 h]
    have hlen := length_nextLevel sha256d64 W
    by_cases h' : 1 < (nextLevel sha256d64 W).length
    · exact List.mem_cons_of_mem _ (ih _ (by omega) rfl h')
    · -- the next level is that of the root
      obtain ⟨x, hx⟩ :=
        List.length_eq_one_iff.mp (show (nextLevel sha256d64 W).length = 1 by omega)
      rw [hx, merkleRoot_of_le sha256d64 (by simp : [x].length ≤ 1)]
      exact List.mem_cons_self

/-- Two nonempty lists with one root under an injective `SHA256D64` are equal, or one of them
is mutated, or one of them is a level above the other. -/
theorem merkleRoot_eq_cases [Zero α] (hH : Function.Injective2 sha256d64) (n : ℕ) :
    ∀ (L L' : List α), L.length + L'.length = n → L ≠ [] → L' ≠ [] →
      merkleRoot sha256d64 L = merkleRoot sha256d64 L' →
        L = L' ∨ Mutated sha256d64 L ∨ Mutated sha256d64 L' ∨
          L ∈ ups sha256d64 L' ∨ L' ∈ ups sha256d64 L := by
  induction n using Nat.strong_induction_on with
  | _ n ih =>
    intro L L' hn hL hL' hroot
    have hpos : 0 < L.length := List.length_pos_iff.mpr hL
    have hpos' : 0 < L'.length := List.length_pos_iff.mpr hL'
    by_cases h : 1 < L.length <;> by_cases h' : 1 < L'.length
    · -- both have a level above: compare those
      rw [merkleRoot_of_lt sha256d64 h, merkleRoot_of_lt sha256d64 h'] at hroot
      have hlen := length_nextLevel sha256d64 L
      have hlen' := length_nextLevel sha256d64 L'
      have hN : nextLevel sha256d64 L ≠ [] := mt (nextLevel_eq_nil_iff sha256d64).mp hL
      have hN' : nextLevel sha256d64 L' ≠ [] := mt (nextLevel_eq_nil_iff sha256d64).mp hL'
      have hup : L ∈ levels sha256d64 L := by
        rw [levels_of_lt sha256d64 h]
        exact List.mem_cons_self
      have hup' : L' ∈ levels sha256d64 L' := by
        rw [levels_of_lt sha256d64 h']
        exact List.mem_cons_self
      rcases ih _ (by omega) _ _ rfl hN hN' hroot with heq | hmut | hmut | hmem | hmem
      · rcases nextLevel_eq_nextLevel sha256d64 hH heq with heq | hpair | hpair
        · exact .inl heq
        · exact .inr (.inl ⟨L, hup, hpair⟩)
        · exact .inr (.inr (.inl ⟨L', hup', hpair⟩))
      · exact .inr (.inl ((mutated_of_lt sha256d64 h).mpr (.inr hmut)))
      · exact .inr (.inr (.inl ((mutated_of_lt sha256d64 h').mpr (.inr hmut))))
      · -- the level above `L` is a level above `L'`: then so is `L`, or a level has an equal pair
        obtain ⟨V, hV, hVeq⟩ := List.mem_map.mp hmem
        have hVL' : V ∈ levels sha256d64 L' := by
          rw [levels_of_lt sha256d64 h']
          exact List.mem_cons_of_mem _ hV
        rcases nextLevel_eq_nextLevel sha256d64 hH hVeq with rfl | hpair | hpair
        · refine .inr (.inr (.inr (.inl ?_)))
          rw [ups_of_lt sha256d64 h']
          rcases mem_levels sha256d64 _ rfl hV with rfl | hV
          · exact List.mem_cons_self
          · exact List.mem_cons_of_mem _ hV
        · exact .inr (.inr (.inl ⟨V, hVL', hpair⟩))
        · exact .inr (.inl ⟨L, hup, hpair⟩)
      · obtain ⟨V, hV, hVeq⟩ := List.mem_map.mp hmem
        have hVL : V ∈ levels sha256d64 L := by
          rw [levels_of_lt sha256d64 h]
          exact List.mem_cons_of_mem _ hV
        rcases nextLevel_eq_nextLevel sha256d64 hH hVeq with rfl | hpair | hpair
        · refine .inr (.inr (.inr (.inr ?_)))
          rw [ups_of_lt sha256d64 h]
          rcases mem_levels sha256d64 _ rfl hV with rfl | hV
          · exact List.mem_cons_self
          · exact List.mem_cons_of_mem _ hV
        · exact .inr (.inl ⟨V, hVL, hpair⟩)
        · exact .inr (.inr (.inl ⟨L', hup', hpair⟩))
    · -- `L'` is a single node, the root of `L`
      obtain ⟨x, rfl⟩ := List.length_eq_one_iff.mp (show L'.length = 1 by omega)
      rw [merkleRoot_of_le sha256d64 (by simp : [x].length ≤ 1), List.headD_cons] at hroot
      refine .inr (.inr (.inr (.inr ?_)))
      rw [← hroot]
      exact root_mem_ups sha256d64 _ rfl h
    · obtain ⟨x, rfl⟩ := List.length_eq_one_iff.mp (show L.length = 1 by omega)
      rw [merkleRoot_of_le sha256d64 (by simp : [x].length ≤ 1), List.headD_cons] at hroot
      refine .inr (.inr (.inr (.inl ?_)))
      rw [hroot]
      exact root_mem_ups sha256d64 _ rfl h'
    · obtain ⟨x, rfl⟩ := List.length_eq_one_iff.mp (show L.length = 1 by omega)
      obtain ⟨x', rfl⟩ := List.length_eq_one_iff.mp (show L'.length = 1 by omega)
      rw [merkleRoot_of_le sha256d64 (by simp : [x].length ≤ 1),
        merkleRoot_of_le sha256d64 (by simp : [x'].length ≤ 1)] at hroot
      exact .inl (by simpa using hroot)

/-- A level above another holds hashes only, so no leaf list is one. -/
theorem not_mem_ups {L W : List α} (hL : L ≠ []) (hleaf : ∀ a b, sha256d64 a b ∉ L) :
    L ∉ ups sha256d64 W := by
  intro hmem
  obtain ⟨U, -, rfl⟩ := List.mem_map.mp hmem
  obtain ⟨x, hx⟩ := List.exists_mem_of_ne_nil _ hL
  obtain ⟨a, b, rfl⟩ := mem_nextLevel sha256d64 hx
  exact hleaf a b hx

/-- Under an injective `SHA256D64` none of whose outputs is a leaf, two different leaf lists
with one root are told apart by the mutation check of one of them. -/
theorem mutated_of_merkleRoot_eq [Zero α] (hH : Function.Injective2 sha256d64) {L L' : List α}
    (hleaf : ∀ a b, sha256d64 a b ∉ L ∧ sha256d64 a b ∉ L') (hL : L ≠ []) (hL' : L' ≠ [])
    (hne : L ≠ L') (hroot : merkleRoot sha256d64 L = merkleRoot sha256d64 L') :
    Mutated sha256d64 L ∨ Mutated sha256d64 L' := by
  rcases merkleRoot_eq_cases sha256d64 hH _ L L' rfl hL hL' hroot with heq | hmut | hmut | hup | hup
  · exact absurd heq hne
  · exact .inl hmut
  · exact .inr hmut
  · exact absurd hup (not_mem_ups sha256d64 hL fun a b => (hleaf a b).1)
  · exact absurd hup (not_mem_ups sha256d64 hL' fun a b => (hleaf a b).2)

theorem computeMerkleRoot_eq [DecidableEq α] [Zero α] (l : List α) :
    (computeMerkleRoot sha256d64 l).1 = merkleRoot sha256d64 l ∧
      ((computeMerkleRoot sha256d64 l).2 = true ↔ Mutated sha256d64 l) := by
  obtain ⟨hroot, hmut⟩ := computeMerkleRootLoop_eq sha256d64 _ false l rfl
  exact ⟨hroot, by simpa [computeMerkleRoot] using hmut⟩

/-- `CheckBlock` passes the merkle checks exactly for the root of the transactions when no
level below it has an equal pair. -/
theorem checkMerkleRoot_eq_ok_iff [DecidableEq α] [Zero α] (hashMerkleRoot : α)
    (txHashes : List α) :
    checkMerkleRoot sha256d64 hashMerkleRoot txHashes = .ok () ↔
      hashMerkleRoot = merkleRoot sha256d64 txHashes ∧ ¬ Mutated sha256d64 txHashes := by
  obtain ⟨hroot, hmut⟩ := computeMerkleRoot_eq sha256d64 txHashes
  unfold checkMerkleRoot blockMerkleRoot
  rcases hc : computeMerkleRoot sha256d64 txHashes with ⟨root, mutated⟩
  rw [hc] at hroot hmut
  subst hroot
  cases mutated
  · simp [← hmut]
  · simp only [← hmut, not_true_eq_false, and_false, iff_false]
    split <;> simp

/-- Under an injective `SHA256D64` none of whose outputs is a transaction hash, the merkle
root of a header passes `CheckBlock` for one nonempty list of transactions at most. -/
theorem checkMerkleRoot_unique [DecidableEq α] [Zero α] (hH : Function.Injective2 sha256d64)
    {hashMerkleRoot : α} {L L' : List α} (hleaf : ∀ a b, sha256d64 a b ∉ L ∧ sha256d64 a b ∉ L')
    (hL : L ≠ []) (hL' : L' ≠ [])
    (h : checkMerkleRoot sha256d64 hashMerkleRoot L = .ok ())
    (h' : checkMerkleRoot sha256d64 hashMerkleRoot L' = .ok ()) : L = L' := by
  rw [checkMerkleRoot_eq_ok_iff] at h h'
  by_contra hne
  rcases mutated_of_merkleRoot_eq sha256d64 hH hleaf hL hL' hne (h.1.symm.trans h'.1) with
    hmut | hmut
  · exact h.2 hmut
  · exact h'.2 hmut

end Spec

section Claims

variable {α : Type}

theorem computeMerkleRoot_spec [DecidableEq α] [Zero α] (sha256d64 : α → α → α) :
    (∀ l : List α, (computeMerkleRoot sha256d64 l).1 = merkleRoot sha256d64 l ∧
      ((computeMerkleRoot sha256d64 l).2 = true ↔ Mutated sha256d64 l)) ∧
    (Function.Injective2 sha256d64 → ∀ L L' : List α,
      (∀ a b, sha256d64 a b ∉ L ∧ sha256d64 a b ∉ L') → L ≠ [] → L' ≠ [] → L ≠ L' →
      (computeMerkleRoot sha256d64 L).1 = (computeMerkleRoot sha256d64 L').1 →
      (computeMerkleRoot sha256d64 L).2 = true ∨ (computeMerkleRoot sha256d64 L').2 = true) := by
  refine ⟨computeMerkleRoot_eq sha256d64, fun hH L L' hleaf hL hL' hne hroot => ?_⟩
  rw [(computeMerkleRoot_eq sha256d64 L).1, (computeMerkleRoot_eq sha256d64 L').1] at hroot
  rw [(computeMerkleRoot_eq sha256d64 L).2, (computeMerkleRoot_eq sha256d64 L').2]
  exact mutated_of_merkleRoot_eq sha256d64 hH hleaf hL hL' hne hroot

/-- The leaves `[1, 2, 3]` and `[1, 2, 3, 3]` share their root; the second is flagged. -/
theorem computeMerkleRoot_spec_duplicated_leaf :
    (computeMerkleRoot (fun a b => Nat.pair a b + 4) [1, 2, 3]).1 =
        (computeMerkleRoot (fun a b => Nat.pair a b + 4) [1, 2, 3, 3]).1 ∧
      ((computeMerkleRoot (fun a b => Nat.pair a b + 4) [1, 2, 3]).2 = true ∨
        (computeMerkleRoot (fun a b => Nat.pair a b + 4) [1, 2, 3, 3]).2 = true) := by
  have hinj : Function.Injective2 (fun a b : ℕ => Nat.pair a b + 4) := by
    intro a₁ a₂ b₁ b₂ h
    exact Nat.pair_eq_pair.mp (by simpa using h)
  have hleaf : ∀ a b, Nat.pair a b + 4 ∉ [1, 2, 3] ∧ Nat.pair a b + 4 ∉ [1, 2, 3, 3] :=
    fun a b => ⟨by simp, by simp⟩
  have hroot : (computeMerkleRoot (fun a b => Nat.pair a b + 4) [1, 2, 3]).1 =
      (computeMerkleRoot (fun a b => Nat.pair a b + 4) [1, 2, 3, 3]).1 := by
    rw [((computeMerkleRoot_spec _).1 _).1, ((computeMerkleRoot_spec _).1 _).1,
      merkleRoot_of_lt _ (by simp), merkleRoot_of_lt _ (by simp : 1 < [1, 2, 3, 3].length)]
    rfl
  exact ⟨hroot, (computeMerkleRoot_spec _).2 hinj _ _ hleaf (by simp) (by simp) (by simp) hroot⟩

end Claims

end Dexfin.Bitcoin
