import Dexfin.Bitcoin.ArithUint256

/-!
# The limb loops of `base_uint`

`operator<<=`, `operator>>=`, `operator*=(const base_uint&)` and `CompareTo` of
`arith_uint256.cpp` as they run over the eight limbs. A shift by `shift` bits moves limb `i` by
`shift / 32` limbs and `shift % 32` bits and ORs its two parts into the two limbs it straddles;
the product adds, row by row, limb `j` of one factor times the low `WIDTH - j` limbs of the
other at limb `j`; the comparison reads the limbs from the top.

Each computes the operation on the value (`toNat_shiftLeftAssign`, `toNat_shiftRightAssign`,
`toNat_mulAssign`, `compareTo_eq`). The loops are stated limb by limb first: after the first
`n` rounds, limb `j` holds the parts of the old limbs below `n` that land on it.
-/

namespace Dexfin.Bitcoin

namespace ArithUint256

/-- A `base_uint` from its limbs, the lowest first. -/
def ofLimbs (pn : List ℕ) : ArithUint256 := BitVec.ofNat 256 (Nat.ofDigits (2 ^ 32) pn)

/-- One round of `operator<<=`: limb `i` of `a`, moved up by `k` limbs and `shift` bits, is
OR-ed into the two limbs it straddles. -/
def shiftLeftStep (a : ArithUint256) (k shift : ℕ) (pn : List ℕ) (i : ℕ) : List ℕ :=
  let pn := if i + k + 1 < WIDTH ∧ shift ≠ 0 then
    pn.modify (i + k + 1) (· ||| a.pn i >>> (32 - shift)) else pn
  if i + k < WIDTH then pn.modify (i + k) (· ||| (a.pn i <<< shift) % 2 ^ 32) else pn

/-- `operator<<=(unsigned int shift)`. -/
def shiftLeftAssign (x : ArithUint256) (shift : ℕ) : ArithUint256 :=
  ofLimbs ((List.range WIDTH).foldl (shiftLeftStep x (shift / 32) (shift % 32))
    (List.replicate WIDTH 0))

/-- One round of `operator>>=`: limb `i` of `a`, moved down by `k` limbs and `shift` bits, is
OR-ed into the two limbs it straddles. -/
def shiftRightStep (a : ArithUint256) (k shift : ℕ) (pn : List ℕ) (i : ℕ) : List ℕ :=
  let pn := if k + 1 ≤ i ∧ shift ≠ 0 then
    pn.modify (i - k - 1) (· ||| (a.pn i <<< (32 - shift)) % 2 ^ 32) else pn
  if k ≤ i then pn.modify (i - k) (· ||| a.pn i >>> shift) else pn

/-- `operator>>=(unsigned int shift)`. -/
def shiftRightAssign (x : ArithUint256) (shift : ℕ) : ArithUint256 :=
  ofLimbs ((List.range WIDTH).foldl (shiftRightStep x (shift / 32) (shift % 32))
    (List.replicate WIDTH 0))

/-- One row of `operator*=(const base_uint& b)`: `n = carry + a.pn[i + j] + pn[j] * b.pn[i]`
for `i + j < WIDTH`, limb `j` of `x` times the low limbs of `b` added in at limb `j`. -/
def mulRow (x b : ArithUint256) (a : List ℕ) (j : ℕ) : List ℕ :=
  a.take j ++ (Limbs.mulAddWord 32 (x.pn j) 0 ((List.range (WIDTH - j)).map b.pn) (a.drop j)).1

/-- `operator*=(const base_uint& b)`. -/
def mulAssign (x b : ArithUint256) : ArithUint256 :=
  ofLimbs ((List.range WIDTH).foldl (mulRow x b) (List.replicate WIDTH 0))

/-- `CompareTo`: the limbs from `i - 1` down, the first that differ deciding. -/
def compareFrom (x b : ArithUint256) : ℕ → ℤ
  | 0 => 0
  | i + 1 => if x.pn i < b.pn i then -1 else if x.pn i > b.pn i then 1 else compareFrom x b i

/-- `CompareTo(b)`. -/
def compareTo (x b : ArithUint256) : ℤ := compareFrom x b WIDTH

/-! ## Reading a result off its limbs -/

theorem toNat_ofLimbs {pn : List ℕ} (hlen : pn.length = WIDTH) (hlt : ∀ d ∈ pn, d < 2 ^ 32) :
    (ofLimbs pn).toNat = Nat.ofDigits (2 ^ 32) pn := by
  have hfits := Nat.ofDigits_lt_base_pow_length (by norm_num : 1 < 2 ^ 32) hlt
  rw [hlen, ← Nat.pow_mul, show 32 * WIDTH = 256 from rfl] at hfits
  rw [ofLimbs, BitVec.toNat_ofNat, Nat.mod_eq_of_lt hfits]

theorem testBit_ofLimbs {pn : List ℕ} (hlen : pn.length = WIDTH) (hlt : ∀ d ∈ pn, d < 2 ^ 32)
    (i : ℕ) : (ofLimbs pn).toNat.testBit i = (pn.getD (i / 32) 0).testBit (i % 32) := by
  rw [toNat_ofLimbs hlen hlt, Limbs.testBit_ofDigits (by norm_num) pn hlt]

/-- The limbs of a list that reads limb by limb as `f`. -/
theorem getD_of_getElem? {pn : List ℕ} {f : ℕ → ℕ} (hlen : pn.length = WIDTH)
    (h : ∀ j, j < WIDTH → pn[j]? = some (f j)) (j : ℕ) :
    pn.getD j 0 = if j < WIDTH then f j else 0 := by
  rw [List.getD_eq_getElem?_getD]
  split
  · next hj => rw [h j hj, Option.getD_some]
  · next hj => rw [List.getElem?_eq_none (by omega), Option.getD_none]

/-! ## Shifting left -/

/-- Limb `j` after `n` rounds of `operator<<=`: the low part of limb `j - k` and the high part
of limb `j - k - 1`, as far as those rounds have run. -/
def shiftLeftLimb (a : ArithUint256) (k shift n j : ℕ) : ℕ :=
  (if k ≤ j ∧ j - k < n then (a.pn (j - k) <<< shift) % 2 ^ 32 else 0) |||
    (if k + 1 ≤ j ∧ j - k - 1 < n ∧ shift ≠ 0 then a.pn (j - k - 1) >>> (32 - shift) else 0)

/-- What round `i` of `operator<<=` ORs into limb `j`. -/
def shiftLeftPart (a : ArithUint256) (k shift i j : ℕ) : ℕ :=
  (if j = i + k then (a.pn i <<< shift) % 2 ^ 32 else 0) |||
    (if j = i + k + 1 ∧ shift ≠ 0 then a.pn i >>> (32 - shift) else 0)

/-- A round's conditional OR into limb `m` ORs, at limb `j`, what lands there. -/
theorem getElem?_ite_modify_or (c : Prop) [Decidable c] (pn : List ℕ) (m x j : ℕ) :
    (if c then pn.modify m (· ||| x) else pn)[j]? =
      (· ||| if c ∧ j = m then x else 0) <$> pn[j]? := by
  by_cases hc : c
  · rw [if_pos hc, List.getElem?_modify]
    by_cases hm : m = j
    · subst hm
      simp [hc]
    · have hlands : ¬(c ∧ j = m) := fun h => hm h.2.symm
      simp [hm, hlands]
  · simp [hc]

theorem getElem?_shiftLeftStep (a : ArithUint256) (k shift : ℕ) (pn : List ℕ) (i j : ℕ)
    (hj : j < WIDTH) :
    (shiftLeftStep a k shift pn i)[j]? = (· ||| shiftLeftPart a k shift i j) <$> pn[j]? := by
  unfold shiftLeftStep shiftLeftPart
  rw [getElem?_ite_modify_or, getElem?_ite_modify_or]
  -- below `WIDTH` the guards of the two ORs are the limbs the parts land on
  have hlow : (i + k < WIDTH ∧ j = i + k) ↔ j = i + k := by omega
  have hhigh : ((i + k + 1 < WIDTH ∧ shift ≠ 0) ∧ j = i + k + 1) ↔
      (j = i + k + 1 ∧ shift ≠ 0) := by omega
  simp only [hlow, hhigh]
  cases pn[j]? with
  | none => rfl
  | some v =>
    simp only [Option.map_eq_map, Option.map_some, Option.some.injEq]
    ac_rfl

/-- Round `n` adds its part to the limbs of the first `n` rounds. -/
theorem shiftLeftLimb_succ (a : ArithUint256) (k shift n j : ℕ) :
    shiftLeftLimb a k shift (n + 1) j =
      shiftLeftLimb a k shift n j ||| shiftLeftPart a k shift n j := by
  unfold shiftLeftLimb shiftLeftPart
  by_cases hlow : j = n + k
  · -- the low part of limb `n` lands here
    subst hlow
    simp only [Nat.add_sub_cancel]
    split_ifs <;> first | omega | simp [Nat.or_comm]
  · by_cases hhigh : j = n + k + 1
    · -- the high part of limb `n` lands here
      subst hhigh
      rw [show n + k + 1 - k - 1 = n by omega]
      split_ifs <;> first | omega | simp
    · -- nothing of round `n` lands here
      split_ifs <;> first | omega | simp

theorem getElem?_foldl_shiftLeftStep (a : ArithUint256) (k shift : ℕ) :
    ∀ n j, j < WIDTH →
      ((List.range n).foldl (shiftLeftStep a k shift) (List.replicate WIDTH 0))[j]? =
        some (shiftLeftLimb a k shift n j)
  | 0, j, hj => by simp [shiftLeftLimb, hj]
  | n + 1, j, hj => by
    rw [List.range_succ, List.foldl_append, List.foldl_cons, List.foldl_nil,
      getElem?_shiftLeftStep a k shift _ n j hj, getElem?_foldl_shiftLeftStep a k shift n j hj,
      shiftLeftLimb_succ]
    rfl

theorem length_shiftLeftStep (a : ArithUint256) (k shift : ℕ) (pn : List ℕ) (i : ℕ) :
    (shiftLeftStep a k shift pn i).length = pn.length := by
  unfold shiftLeftStep
  split_ifs <;> simp only [List.length_modify]

theorem shiftLeftLimb_lt (a : ArithUint256) (k shift n j : ℕ) :
    shiftLeftLimb a k shift n j < 2 ^ 32 := by
  unfold shiftLeftLimb
  apply Nat.or_lt_two_pow
  · split_ifs
    · exact Nat.mod_lt _ (by norm_num)
    · norm_num
  · split_ifs
    · exact lt_of_le_of_lt (Nat.shiftRight_le _ _) (pn_lt a _)
    · norm_num

/-- The rounds of `operator<<=` leave the closed form in every limb. -/
theorem foldl_shiftLeftStep (a : ArithUint256) (k shift : ℕ) :
    (List.range WIDTH).foldl (shiftLeftStep a k shift) (List.replicate WIDTH 0) =
      (List.range WIDTH).map (shiftLeftLimb a k shift WIDTH) := by
  apply List.ext_getElem?
  intro j
  by_cases hj : j < WIDTH
  · rw [getElem?_foldl_shiftLeftStep a k shift WIDTH j hj, List.getElem?_map,
      List.getElem?_range hj, Option.map_some]
  · have hlen : ((List.range WIDTH).foldl (shiftLeftStep a k shift)
        (List.replicate WIDTH 0)).length = WIDTH :=
      List.foldlRecOn _ _ (motive := fun pn => pn.length = WIDTH) List.length_replicate
        fun pn hpn i _ => (length_shiftLeftStep a k shift pn i).trans hpn
    rw [List.getElem?_eq_none (by omega), List.getElem?_eq_none (by simp; omega)]

/-- Bit `t` of limb `j` of `a <<= 32 * k + shift` is bit `32 * j + t - (32 * k + shift)` of `a`,
or zero below the shift. -/
theorem testBit_shiftLeftLimb (a : ArithUint256) (k : ℕ) {shift j t : ℕ} (hs : shift < 32)
    (hj : j < WIDTH) (ht : t < 32) :
    (shiftLeftLimb a k shift WIDTH j).testBit t =
      (decide (32 * k + shift ≤ 32 * j + t) && a.toNat.testBit (32 * j + t - (32 * k + shift))) := by
  unfold shiftLeftLimb
  rw [Nat.testBit_or]
  by_cases hst : shift ≤ t
  · -- the bit is in the low part of limb `j - k`; the high part of limb `j - k - 1` is too
    -- high to reach it
    have hhigh : (if k + 1 ≤ j ∧ j - k - 1 < WIDTH ∧ shift ≠ 0 then
        a.pn (j - k - 1) >>> (32 - shift) else 0).testBit t = false := by
      split_ifs
      · rw [Nat.testBit_shiftRight, pn, Limbs.testBit_limb, decide_eq_false (by omega),
          Bool.false_and]
      · exact Nat.zero_testBit t
    rw [hhigh, Bool.or_false]
    split_ifs with hkj
    · rw [Nat.testBit_mod_two_pow, Nat.testBit_shiftLeft, pn, Limbs.testBit_limb,
        show t - shift + 32 * (j - k) = 32 * j + t - (32 * k + shift) by omega,
        decide_eq_true ht, decide_eq_true (show t ≥ shift from hst),
        decide_eq_true (show t - shift < 32 by omega),
        decide_eq_true (show 32 * k + shift ≤ 32 * j + t by omega)]
      rfl
    · rw [Nat.zero_testBit, decide_eq_false (by omega), Bool.false_and]
  · -- the bit is in the high part of limb `j - k - 1`; the low part of limb `j - k` starts
    -- above it
    have hlow : (if k ≤ j ∧ j - k < WIDTH then (a.pn (j - k) <<< shift) % 2 ^ 32 else 0).testBit t =
        false := by
      split_ifs
      · rw [Nat.testBit_mod_two_pow, Nat.testBit_shiftLeft,
          decide_eq_false (show ¬t ≥ shift by omega), Bool.false_and, Bool.and_false]
      · exact Nat.zero_testBit t
    rw [hlow, Bool.false_or]
    split_ifs with hkj
    · rw [Nat.testBit_shiftRight, pn, Limbs.testBit_limb,
        show 32 - shift + t + 32 * (j - k - 1) = 32 * j + t - (32 * k + shift) by omega,
        decide_eq_true (show 32 - shift + t < 32 by omega),
        decide_eq_true (show 32 * k + shift ≤ 32 * j + t by omega)]
    · rw [Nat.zero_testBit, decide_eq_false (by omega), Bool.false_and]

/-- `operator<<=` multiplies by `2 ^ shift` modulo `2 ^ 256`. -/
theorem toNat_shiftLeftAssign (x : ArithUint256) (shift : ℕ) :
    (shiftLeftAssign x shift).toNat = x.toNat * 2 ^ shift % 2 ^ 256 := by
  have hs : shift % 32 < 32 := Nat.mod_lt _ (by norm_num)
  have hlen : ((List.range WIDTH).map (shiftLeftLimb x (shift / 32) (shift % 32) WIDTH)).length =
      WIDTH := by simp
  have hlt : ∀ d ∈ (List.range WIDTH).map (shiftLeftLimb x (shift / 32) (shift % 32) WIDTH),
      d < 2 ^ 32 := by
    simp only [List.mem_map]
    rintro d ⟨j, -, rfl⟩
    exact shiftLeftLimb_lt x _ _ _ j
  apply Nat.eq_of_testBit_eq
  intro i
  rw [shiftLeftAssign, foldl_shiftLeftStep, testBit_ofLimbs hlen hlt,
    getD_of_getElem? hlen (f := shiftLeftLimb x (shift / 32) (shift % 32) WIDTH)
      (fun j hj => by rw [List.getElem?_map, List.getElem?_range hj, Option.map_some]),
    Nat.testBit_mod_two_pow, Nat.testBit_mul_two_pow]
  split_ifs with hi
  · rw [testBit_shiftLeftLimb x _ hs hi (Nat.mod_lt _ (by norm_num)),
      show 32 * (i / 32) + i % 32 = i by omega, show 32 * (shift / 32) + shift % 32 = shift by omega,
      decide_eq_true (show i < 256 by simp only [WIDTH] at hi; omega), Bool.true_and]
  · rw [Nat.zero_testBit, decide_eq_false (by simp only [WIDTH] at hi; omega), Bool.false_and]

/-! ## Shifting right -/

/-- Limb `j` after `n` rounds of `operator>>=`: the high part of limb `j + k` and the low part
of limb `j + k + 1`, as far as those rounds have run. -/
def shiftRightLimb (a : ArithUint256) (k shift n j : ℕ) : ℕ :=
  (if j + k < n then a.pn (j + k) >>> shift else 0) |||
    (if j + k + 1 < n ∧ shift ≠ 0 then (a.pn (j + k + 1) <<< (32 - shift)) % 2 ^ 32 else 0)

/-- What round `i` of `operator>>=` ORs into limb `j`. -/
def shiftRightPart (a : ArithUint256) (k shift i j : ℕ) : ℕ :=
  (if k ≤ i ∧ j = i - k then a.pn i >>> shift else 0) |||
    (if k + 1 ≤ i ∧ j = i - k - 1 ∧ shift ≠ 0 then (a.pn i <<< (32 - shift)) % 2 ^ 32 else 0)

theorem getElem?_shiftRightStep (a : ArithUint256) (k shift : ℕ) (pn : List ℕ) (i j : ℕ) :
    (shiftRightStep a k shift pn i)[j]? = (· ||| shiftRightPart a k shift i j) <$> pn[j]? := by
  unfold shiftRightStep shiftRightPart
  rw [getElem?_ite_modify_or, getElem?_ite_modify_or]
  have hlow : ((k + 1 ≤ i ∧ shift ≠ 0) ∧ j = i - k - 1) ↔
      (k + 1 ≤ i ∧ j = i - k - 1 ∧ shift ≠ 0) := by omega
  simp only [hlow]
  cases pn[j]? with
  | none => rfl
  | some v =>
    simp only [Option.map_eq_map, Option.map_some, Option.some.injEq]
    ac_rfl

/-- Round `n` adds its part to the limbs of the first `n` rounds. -/
theorem shiftRightLimb_succ (a : ArithUint256) (k shift n j : ℕ) :
    shiftRightLimb a k shift (n + 1) j =
      shiftRightLimb a k shift n j ||| shiftRightPart a k shift n j := by
  unfold shiftRightLimb shiftRightPart
  by_cases hhigh : j + k = n
  · -- the high part of limb `n` lands here
    subst hhigh
    rw [show j + k - k = j by omega]
    split_ifs <;> first | omega | simp [Nat.or_comm]
  · by_cases hlow : j + k + 1 = n
    · -- the low part of limb `n` lands here
      subst hlow
      rw [show j + k + 1 - k - 1 = j by omega]
      split_ifs <;> first | omega | simp
    · -- nothing of round `n` lands here
      split_ifs <;> first | omega | simp

theorem getElem?_foldl_shiftRightStep (a : ArithUint256) (k shift : ℕ) :
    ∀ n j, j < WIDTH →
      ((List.range n).foldl (shiftRightStep a k shift) (List.replicate WIDTH 0))[j]? =
        some (shiftRightLimb a k shift n j)
  | 0, j, hj => by simp [shiftRightLimb, hj]
  | n + 1, j, hj => by
    rw [List.range_succ, List.foldl_append, List.foldl_cons, List.foldl_nil,
      getElem?_shiftRightStep, getElem?_foldl_shiftRightStep a k shift n j hj, shiftRightLimb_succ]
    rfl

theorem length_shiftRightStep (a : ArithUint256) (k shift : ℕ) (pn : List ℕ) (i : ℕ) :
    (shiftRightStep a k shift pn i).length = pn.length := by
  unfold shiftRightStep
  split_ifs <;> simp only [List.length_modify]

theorem shiftRightLimb_lt (a : ArithUint256) (k shift n j : ℕ) :
    shiftRightLimb a k shift n j < 2 ^ 32 := by
  unfold shiftRightLimb
  apply Nat.or_lt_two_pow
  · split_ifs
    · exact lt_of_le_of_lt (Nat.shiftRight_le _ _) (pn_lt a _)
    · norm_num
  · split_ifs
    · exact Nat.mod_lt _ (by norm_num)
    · norm_num

/-- The rounds of `operator>>=` leave the closed form in every limb. -/
theorem foldl_shiftRightStep (a : ArithUint256) (k shift : ℕ) :
    (List.range WIDTH).foldl (shiftRightStep a k shift) (List.replicate WIDTH 0) =
      (List.range WIDTH).map (shiftRightLimb a k shift WIDTH) := by
  apply List.ext_getElem?
  intro j
  by_cases hj : j < WIDTH
  · rw [getElem?_foldl_shiftRightStep a k shift WIDTH j hj, List.getElem?_map,
      List.getElem?_range hj, Option.map_some]
  · have hlen : ((List.range WIDTH).foldl (shiftRightStep a k shift)
        (List.replicate WIDTH 0)).length = WIDTH :=
      List.foldlRecOn _ _ (motive := fun pn => pn.length = WIDTH) List.length_replicate
        fun pn hpn i _ => (length_shiftRightStep a k shift pn i).trans hpn
    rw [List.getElem?_eq_none (by omega), List.getElem?_eq_none (by simp; omega)]

theorem testBit_toNat_of_le (x : ArithUint256) {i : ℕ} (hi : 256 ≤ i) : x.toNat.testBit i = false :=
  Nat.testBit_lt_two_pow (lt_of_lt_of_le x.isLt (Nat.pow_le_pow_right (by norm_num) hi))

/-- Bit `t` of limb `j` of `a >>= 32 * k + shift` is bit `32 * j + t + 32 * k + shift` of `a`. -/
theorem testBit_shiftRightLimb (a : ArithUint256) (k : ℕ) {shift j t : ℕ} (hs : shift < 32)
    (ht : t < 32) :
    (shiftRightLimb a k shift WIDTH j).testBit t =
      a.toNat.testBit (32 * j + t + (32 * k + shift)) := by
  unfold shiftRightLimb
  rw [Nat.testBit_or]
  by_cases hst : t + shift < 32
  · -- the bit is in the high part of limb `j + k`; the low part of limb `j + k + 1` starts
    -- above it
    have hlow : (if j + k + 1 < WIDTH ∧ shift ≠ 0 then
        (a.pn (j + k + 1) <<< (32 - shift)) % 2 ^ 32 else 0).testBit t = false := by
      split_ifs
      · rw [Nat.testBit_mod_two_pow, Nat.testBit_shiftLeft,
          decide_eq_false (show ¬t ≥ 32 - shift by omega), Bool.false_and, Bool.and_false]
      · exact Nat.zero_testBit t
    rw [hlow, Bool.or_false]
    split_ifs with hjk
    · rw [Nat.testBit_shiftRight, pn, Limbs.testBit_limb, decide_eq_true (show shift + t < 32 by omega),
        Bool.true_and, show shift + t + 32 * (j + k) = 32 * j + t + (32 * k + shift) by omega]
    · rw [Nat.zero_testBit, testBit_toNat_of_le a (by simp only [WIDTH] at hjk; omega)]
  · -- the bit is in the low part of limb `j + k + 1`; the high part of limb `j + k` is too
    -- short to reach it
    have hhigh : (if j + k < WIDTH then a.pn (j + k) >>> shift else 0).testBit t = false := by
      split_ifs
      · rw [Nat.testBit_shiftRight, pn, Limbs.testBit_limb,
          decide_eq_false (show ¬shift + t < 32 by omega), Bool.false_and]
      · exact Nat.zero_testBit t
    rw [hhigh, Bool.false_or]
    split_ifs with hjk
    · rw [Nat.testBit_mod_two_pow, Nat.testBit_shiftLeft, pn, Limbs.testBit_limb,
        decide_eq_true ht, decide_eq_true (show t ≥ 32 - shift by omega),
        decide_eq_true (show t - (32 - shift) < 32 by omega),
        show t - (32 - shift) + 32 * (j + k + 1) = 32 * j + t + (32 * k + shift) by omega]
      rfl
    · rw [Nat.zero_testBit, testBit_toNat_of_le a (by simp only [WIDTH] at hjk; omega)]

/-- `operator>>=` divides by `2 ^ shift`. -/
theorem toNat_shiftRightAssign (x : ArithUint256) (shift : ℕ) :
    (shiftRightAssign x shift).toNat = x.toNat / 2 ^ shift := by
  have hs : shift % 32 < 32 := Nat.mod_lt _ (by norm_num)
  have hlen : ((List.range WIDTH).map (shiftRightLimb x (shift / 32) (shift % 32) WIDTH)).length =
      WIDTH := by simp
  have hlt : ∀ d ∈ (List.range WIDTH).map (shiftRightLimb x (shift / 32) (shift % 32) WIDTH),
      d < 2 ^ 32 := by
    simp only [List.mem_map]
    rintro d ⟨j, -, rfl⟩
    exact shiftRightLimb_lt x _ _ _ j
  apply Nat.eq_of_testBit_eq
  intro i
  rw [shiftRightAssign, foldl_shiftRightStep, testBit_ofLimbs hlen hlt,
    getD_of_getElem? hlen (f := shiftRightLimb x (shift / 32) (shift % 32) WIDTH)
      (fun j hj => by rw [List.getElem?_map, List.getElem?_range hj, Option.map_some]),
    Nat.testBit_div_two_pow]
  split_ifs with hi
  · rw [testBit_shiftRightLimb x _ hs (Nat.mod_lt _ (by norm_num)),
      show 32 * (i / 32) + i % 32 = i by omega, show 32 * (shift / 32) + shift % 32 = shift by omega]
  · rw [Nat.zero_testBit, testBit_toNat_of_le x (by simp only [WIDTH] at hi; omega)]

/-! ## Multiplying -/

/-- The low limbs of `b` that row `j` reads. -/
theorem map_pn_range_sub (b : ArithUint256) (j : ℕ) :
    (List.range (WIDTH - j)).map b.pn = Limbs.limbs 32 (WIDTH - j) b.toNat := rfl

theorem length_mulRow (x b : ArithUint256) {a : List ℕ} (hlen : a.length = WIDTH) {j : ℕ}
    (hj : j < WIDTH) : (mulRow x b a j).length = WIDTH := by
  rw [mulRow, List.length_append, Limbs.length_mulAddWord, List.length_take, List.length_map,
    List.length_range, hlen]
  omega

theorem lt_of_mem_mulRow (x b : ArithUint256) {a : List ℕ} (hlt : ∀ d ∈ a, d < 2 ^ 32) (j : ℕ) :
    ∀ d ∈ mulRow x b a j, d < 2 ^ 32 := by
  intro d hd
  rcases List.mem_append.mp hd with hd | hd
  · exact hlt d (List.mem_of_mem_take hd)
  · exact Limbs.lt_of_mem_mulAddWord 32 _ 0 _ _ d hd

/-- Row `j` adds `pn[j] * b` at limb `j`, modulo `2 ^ 256`: the low limbs of `a` stay, and
above them the row is the old limbs plus `pn[j]` times the limbs of `b` that still fit. -/
theorem ofDigits_mulRow (x b : ArithUint256) {a : List ℕ} (hlen : a.length = WIDTH)
    (hlt : ∀ d ∈ a, d < 2 ^ 32) {j : ℕ} (hj : j < WIDTH) :
    Nat.ofDigits (2 ^ 32) (mulRow x b a j) =
      (Nat.ofDigits (2 ^ 32) a + 2 ^ (32 * j) * (x.pn j * b.toNat)) % 2 ^ 256 := by
  have htake : (a.take j).length = j := by rw [List.length_take, hlen]; omega
  have hlow : Nat.ofDigits (2 ^ 32) (a.take j) < 2 ^ (32 * j) := by
    have := Nat.ofDigits_lt_base_pow_length (l := a.take j) (by norm_num : 1 < 2 ^ 32)
      fun d hd => hlt d (List.mem_of_mem_take hd)
    rwa [htake, ← Nat.pow_mul] at this
  have hsplit : Nat.ofDigits (2 ^ 32) a =
      Nat.ofDigits (2 ^ 32) (a.take j) + 2 ^ (32 * j) * Nat.ofDigits (2 ^ 32) (a.drop j) := by
    conv_lhs => rw [← List.take_append_drop j a]
    rw [Nat.ofDigits_append, htake, ← Nat.pow_mul]
  have hrow := Limbs.ofDigits_mulAddWord (by norm_num) (pn_lt x j)
    (fun d (hd : d ∈ Limbs.limbs 32 (WIDTH - j) b.toNat) => Limbs.lt_of_mem_limbs hd)
    (fun d (hd : d ∈ a.drop j) => hlt d (List.mem_of_mem_drop hd))
    (by rw [List.length_drop, Limbs.length_limbs, hlen])
  rw [Limbs.ofDigits_limbs, Limbs.length_limbs] at hrow
  -- `b` below the limbs that fit is `b` modulo the same power
  have hmod : (Nat.ofDigits (2 ^ 32) (a.drop j) + x.pn j * (b.toNat % 2 ^ (32 * (WIDTH - j)))) %
        2 ^ (32 * (WIDTH - j)) =
      (Nat.ofDigits (2 ^ 32) (a.drop j) + x.pn j * b.toNat) % 2 ^ (32 * (WIDTH - j)) :=
    Nat.ModEq.add_left _ (Nat.ModEq.mul_left _ (Nat.mod_modEq _ _))
  have hpow : (2 : ℕ) ^ 256 = 2 ^ (32 * j) * 2 ^ (32 * (WIDTH - j)) := by
    rw [← Nat.pow_add]
    congr 1
    simp only [WIDTH] at hj ⊢
    omega
  rw [mulRow, map_pn_range_sub, Nat.ofDigits_append, htake, ← Nat.pow_mul, hrow, hmod, hsplit,
    Nat.add_assoc, ← Nat.mul_add, hpow, Limbs.add_mul_mod_mul_of_lt _ _ hlow]

/-- After `n` rows the limbs hold `x` below limb `n` times `b`, modulo `2 ^ 256`. -/
theorem foldl_mulRow (x b : ArithUint256) :
    ∀ n, n ≤ WIDTH →
      ((List.range n).foldl (mulRow x b) (List.replicate WIDTH 0)).length = WIDTH ∧
      (∀ d ∈ (List.range n).foldl (mulRow x b) (List.replicate WIDTH 0), d < 2 ^ 32) ∧
      Nat.ofDigits (2 ^ 32) ((List.range n).foldl (mulRow x b) (List.replicate WIDTH 0)) =
        x.toNat % 2 ^ (32 * n) * b.toNat % 2 ^ 256
  | 0, _ => by
    rw [List.range_zero, List.foldl_nil]
    refine ⟨List.length_replicate, fun d hd => ?_, ?_⟩
    · rw [List.eq_of_mem_replicate hd]
      norm_num
    · rw [Nat.ofDigits_replicate_zero, Nat.mul_zero, Nat.pow_zero, Nat.mod_one, Nat.zero_mul,
        Nat.zero_mod]
  | n + 1, hn => by
    obtain ⟨hlen, hlt, hval⟩ := foldl_mulRow x b n (by omega)
    rw [List.range_succ, List.foldl_append, List.foldl_cons, List.foldl_nil]
    refine ⟨length_mulRow x b hlen (by omega), lt_of_mem_mulRow x b hlt n, ?_⟩
    rw [ofDigits_mulRow x b hlen hlt (by omega), hval, Limbs.mod_two_pow_succ, Nat.add_mul,
      Nat.mul_assoc, ← pn, Nat.add_mod, Nat.mod_mod, ← Nat.add_mod]

/-- `operator*=(const base_uint& b)` multiplies modulo `2 ^ 256`. -/
theorem toNat_mulAssign (x b : ArithUint256) :
    (mulAssign x b).toNat = x.toNat * b.toNat % 2 ^ 256 := by
  obtain ⟨hlen, hlt, hval⟩ := foldl_mulRow x b WIDTH le_rfl
  rw [mulAssign, toNat_ofLimbs hlen hlt, hval, Nat.mod_eq_of_lt (toNat_lt_limbs x)]

/-! ## Comparing -/

/-- `CompareTo` from limb `n - 1` down compares `x` and `b` below limb `n`. -/
theorem compareFrom_eq (x b : ArithUint256) :
    ∀ n, compareFrom x b n =
      Int.sign ((x.toNat % 2 ^ (32 * n) : ℕ) - (b.toNat % 2 ^ (32 * n) : ℕ) : ℤ)
  | 0 => by simp [compareFrom]
  | n + 1 => by
    have hx := Nat.mod_lt x.toNat (Nat.two_pow_pos (32 * n))
    have hb := Nat.mod_lt b.toNat (Nat.two_pow_pos (32 * n))
    rw [compareFrom, Limbs.mod_two_pow_succ, Limbs.mod_two_pow_succ, ← pn, ← pn]
    split_ifs with hlt hgt
    · -- limb `n` of `x` is the smaller
      have := Limbs.add_mul_lt_add_mul_of_lt (b.toNat % 2 ^ (32 * n)) hx hlt
      exact (Int.sign_eq_neg_one_of_neg (by omega)).symm
    · -- limb `n` of `x` is the larger
      have := Limbs.add_mul_lt_add_mul_of_lt (x.toNat % 2 ^ (32 * n)) hb hgt
      exact (Int.sign_eq_one_of_pos (by omega)).symm
    · -- equal limbs: the limbs below decide
      rw [show x.pn n = b.pn n by omega, compareFrom_eq x b n]
      congr 1
      push_cast
      ring

/-- `CompareTo` is the sign of `x - b`. -/
theorem compareTo_eq (x b : ArithUint256) :
    compareTo x b = Int.sign ((x.toNat : ℤ) - b.toNat) := by
  rw [compareTo, compareFrom_eq, Nat.mod_eq_of_lt (toNat_lt_limbs x),
    Nat.mod_eq_of_lt (toNat_lt_limbs b)]

/-! ## The arithmetic of `base_uint<256>` -/

/-- `operator/=` divides, rounding down, and throws exactly on a zero divisor. -/
theorem divAssign_eq_ofNat (a b : ArithUint256) :
    divAssign a b =
      if b = 0 then .error .divisionByZero else .ok (BitVec.ofNat 256 (a.toNat / b.toNat)) := by
  rw [divAssign_eq]
  split_ifs
  · rfl
  · rw [← BitVec.toNat_udiv, BitVec.ofNat_toNat, BitVec.setWidth_eq]

/-- Every operation of `base_uint<256>` is the exact one on `[0, 2 ^ 256)`, modulo `2 ^ 256`
where the result can leave it. -/
theorem baseUint_arith_exact :
    (∀ (a : ArithUint256) (s : ℕ), (shiftLeftAssign a s).toNat = a.toNat * 2 ^ s % 2 ^ 256) ∧
    (∀ (a : ArithUint256) (s : ℕ), (shiftRightAssign a s).toNat = a.toNat / 2 ^ s) ∧
    (∀ (a : ArithUint256) (b : UInt32), (mulUint32 a b).toNat = a.toNat * b.toNat % 2 ^ 256) ∧
    (∀ a b : ArithUint256, (mulAssign a b).toNat = a.toNat * b.toNat % 2 ^ 256) ∧
    (∀ a b : ArithUint256, divAssign a b =
      if b = 0 then .error .divisionByZero else .ok (BitVec.ofNat 256 (a.toNat / b.toNat))) ∧
    (∀ a b : ArithUint256, compareTo a b = Int.sign ((a.toNat : ℤ) - b.toNat)) ∧
    ∀ a : ArithUint256, bits a = a.toNat.size :=
  ⟨toNat_shiftLeftAssign, toNat_shiftRightAssign, toNat_mulUint32, toNat_mulAssign,
    divAssign_eq_ofNat, compareTo_eq, bits_eq_size⟩

end ArithUint256

end Dexfin.Bitcoin
