import Mathlib.Data.Nat.Bitwise
import Mathlib.Data.Nat.Log
import Mathlib.Data.Nat.Find

/-!
# Derivation down a tree of bit strings

Numbers below `2 ^ H` as the nodes of a binary tree: a node `a` whose lowest set bit is bit `t`
(`t = H` for the root `0`) has below it the `2 ^ t` numbers that agree with `a` from bit `t`
up (`Derives`). A value is carried from `a` to such a `c` by one step for each set bit of `c`
below `t`, from the top down (`derive`); going from `a` to `b` and on to `c` takes the same
steps as going from `a` to `c` (`derive_trans`).

Counted down from `2 ^ H`, the nodes `2 ^ H - m` for `m = 1, 2, …` are the ranges of a
Fenwick tree: the node of `m` has below it the nodes of `m - 2 ^ t + 1, …, m`, where `2 ^ t` is
the lowest power of two in `m` (`derives_two_pow_sub_iff`). A node's range is covered by the
nodes of `m - 2 ^ j` for `j < t` (`covers_child`); the latest node of each level covers what
is left of the earlier ones (`exists_latest_covers`).
-/

namespace BitTree

variable (H : ℕ)

/-- The trailing zero bits of `a` below bit `H`: the first set bit, or `H` when there is none
below it. -/
def trailingZeros (a : ℕ) : ℕ := ((List.range H).find? a.testBit).getD H

/-- `c` with its bits below `t` cleared. -/
def clearBelow (c t : ℕ) : ℕ := c - c % 2 ^ t

/-- The set bits of `c` below `t`, from the top down. -/
def setBitsBelow (c : ℕ) : ℕ → List ℕ
  | 0 => []
  | t + 1 => (if c.testBit t then [t] else []) ++ setBitsBelow c t

/-- `c` is in the subtree of `a`: it agrees with `a` from the lowest set bit of `a` up. -/
def Derives (a c : ℕ) : Prop := clearBelow c (trailingZeros H a) = a

instance (a c : ℕ) : Decidable (Derives H a c) :=
  inferInstanceAs (Decidable (clearBelow c (trailingZeros H a) = a))

/-- The value at `c` carried from the value `x` at `a`: one `step` for each set bit of `c`
below the lowest set bit of `a`, from the top down. -/
def derive {α : Type} (step : ℕ → α → α) (a c : ℕ) (x : α) : α :=
  (setBitsBelow c (trailingZeros H a)).foldl (fun x p => step p x) x

/-! ## Trailing zeros -/

theorem mod_two_pow_eq_zero_iff {a t : ℕ} : a % 2 ^ t = 0 ↔ ∀ i < t, a.testBit i = false := by
  constructor
  · intro h i hi
    have := Nat.testBit_mod_two_pow a t i
    rw [h, Nat.zero_testBit] at this
    simpa [hi] using this.symm
  · intro h
    apply Nat.eq_of_testBit_eq
    intro i
    rw [Nat.testBit_mod_two_pow, Nat.zero_testBit]
    by_cases hi : i < t
    · simp [hi, h i hi]
    · simp [hi]

theorem trailingZeros_le (a : ℕ) : trailingZeros H a ≤ H := by
  unfold trailingZeros
  cases hfind : (List.range H).find? a.testBit with
  | none => rfl
  | some z =>
    have := (List.find?_range_eq_some.mp hfind).2.1
    simpa using Nat.le_of_lt (List.mem_range.mp this)

/-- Below `H`, a power of two divides `a` exactly up to its trailing zeros. -/
theorem two_pow_dvd_iff {a t : ℕ} (ht : t ≤ H) : 2 ^ t ∣ a ↔ t ≤ trailingZeros H a := by
  rw [Nat.dvd_iff_mod_eq_zero, mod_two_pow_eq_zero_iff]
  unfold trailingZeros
  cases hfind : (List.range H).find? a.testBit with
  | none =>
    simp only [Option.getD_none, ht, iff_true]
    intro i hi
    have := List.find?_eq_none.mp hfind i (List.mem_range.mpr (by omega))
    simpa using this
  | some z =>
    obtain ⟨hz, -, hbelow⟩ := List.find?_range_eq_some.mp hfind
    simp only [Option.getD_some]
    constructor
    · intro h
      by_contra hlt
      rw [h z (by omega)] at hz
      exact Bool.false_ne_true hz
    · intro hle i hi
      simpa using hbelow i (by omega)

theorem two_pow_trailingZeros_dvd (a : ℕ) : 2 ^ trailingZeros H a ∣ a :=
  (two_pow_dvd_iff H (trailingZeros_le H a)).mpr le_rfl

/-- A number that is not a multiple of `2 ^ H` has its trailing zeros below `H`, and no
higher power of two divides it. -/
theorem not_two_pow_succ_dvd {a : ℕ} (ha : trailingZeros H a < H) :
    ¬ 2 ^ (trailingZeros H a + 1) ∣ a := by
  rw [two_pow_dvd_iff H ha]
  omega

/-- The trailing zeros are the exponent of the largest power of two below `2 ^ H` that
divides. -/
theorem trailingZeros_eq_of_dvd {a t : ℕ} (ht : t < H) (hdvd : 2 ^ t ∣ a)
    (hndvd : ¬ 2 ^ (t + 1) ∣ a) : trailingZeros H a = t := by
  have h₁ := (two_pow_dvd_iff H ht.le).mp hdvd
  have h₂ := mt (two_pow_dvd_iff H (t := t + 1) ht).mpr hndvd
  omega

/-- A multiple of `2 ^ H`, the root `0` among them, has all `H` trailing zeros. -/
theorem trailingZeros_of_two_pow_dvd {a : ℕ} (h : 2 ^ H ∣ a) : trailingZeros H a = H :=
  le_antisymm (trailingZeros_le H a) ((two_pow_dvd_iff H le_rfl).mp h)

/-! ## Clearing low bits -/

theorem clearBelow_eq_mul (c t : ℕ) : clearBelow c t = 2 ^ t * (c / 2 ^ t) := by
  have := Nat.div_add_mod c (2 ^ t)
  unfold clearBelow
  omega

theorem testBit_clearBelow (c t i : ℕ) :
    (clearBelow c t).testBit i = (decide (t ≤ i) && c.testBit i) := by
  rw [clearBelow_eq_mul, Nat.testBit_two_pow_mul]
  by_cases hi : t ≤ i
  · simp [hi, Nat.testBit_div_two_pow, Nat.sub_add_cancel hi]
  · simp [hi]

theorem clearBelow_clearBelow {c s t : ℕ} (hst : s ≤ t) :
    clearBelow (clearBelow c s) t = clearBelow c t := by
  apply Nat.eq_of_testBit_eq
  intro i
  simp only [testBit_clearBelow]
  by_cases hi : t ≤ i
  · simp [hi, show s ≤ i by omega]
  · simp [hi]

/-- Clearing the bits below `t` of a number in `[a, a + 2 ^ t)`, for `a` a multiple of
`2 ^ t`, gives `a`. -/
theorem clearBelow_eq_iff {a c t : ℕ} (ha : 2 ^ t ∣ a) :
    clearBelow c t = a ↔ a ≤ c ∧ c < a + 2 ^ t := by
  obtain ⟨q, rfl⟩ := ha
  have hpos : 0 < 2 ^ t := Nat.two_pow_pos t
  rw [clearBelow_eq_mul, Nat.mul_right_inj (Nat.ne_of_gt hpos), Nat.div_eq_iff hpos, Nat.mul_comm q]
  omega

/-! ## The steps of a derivation -/

theorem setBitsBelow_eq_nil {c t : ℕ} (h : ∀ i < t, c.testBit i = false) : setBitsBelow c t = [] := by
  induction t with
  | zero => rfl
  | succ t ih =>
    simp only [setBitsBelow, h t (by omega), Bool.false_eq_true, if_false, List.nil_append]
    exact ih fun i hi => h i (by omega)

/-- The steps below `t` are those from `s` to `t`, which only see the bits from `s` up, then
those below `s`. -/
theorem setBitsBelow_split {c s t : ℕ} (hst : s ≤ t) :
    setBitsBelow c t = setBitsBelow (clearBelow c s) t ++ setBitsBelow c s := by
  induction t, hst using Nat.le_induction with
  | base =>
    rw [setBitsBelow_eq_nil (c := clearBelow c s) fun i hi => by
      simp [testBit_clearBelow, show ¬ s ≤ i by omega]]
    rfl
  | succ t hst ih =>
    simp only [setBitsBelow, testBit_clearBelow, decide_eq_true (show s ≤ t by omega),
      Bool.true_and, List.append_assoc]
    rw [ih]

/-! ## Derivation -/

variable {H}

theorem derives_refl (a : ℕ) : Derives H a a := by
  unfold Derives clearBelow
  rw [Nat.mod_eq_zero_of_dvd (two_pow_trailingZeros_dvd H a), Nat.sub_zero]

/-- The root derives every node. -/
theorem derives_root {c : ℕ} (hc : c < 2 ^ H) : Derives H 0 c := by
  unfold Derives clearBelow
  rw [trailingZeros_of_two_pow_dvd H (Nat.dvd_zero _), Nat.mod_eq_of_lt hc, Nat.sub_self]

/-- A node below `a` has no more trailing zeros than `a`. -/
theorem trailingZeros_le_of_derives {a b : ℕ} (h : Derives H a b) :
    trailingZeros H b ≤ trailingZeros H a := by
  by_contra hlt
  -- `b` has no set bit below its trailing zeros, so none below those of `a`
  have hlow : b % 2 ^ trailingZeros H a = 0 :=
    Nat.mod_eq_zero_of_dvd (Nat.pow_dvd_of_le_of_pow_dvd (by omega) (two_pow_trailingZeros_dvd H b))
  have hb : b = a := by
    unfold Derives clearBelow at h
    rwa [hlow, Nat.sub_zero] at h
  rw [hb] at hlt
  exact hlt le_rfl

theorem Derives.trans {a b c : ℕ} (hab : Derives H a b) (hbc : Derives H b c) : Derives H a c := by
  unfold Derives at *
  rw [← clearBelow_clearBelow (trailingZeros_le_of_derives hab), hbc, hab]

/-- Going from `a` to `c` through `b` takes the steps from `a` to `b`, then those from `b`
to `c`. -/
theorem setBitsBelow_trans {a b c : ℕ} (hab : Derives H a b) (hbc : Derives H b c) :
    setBitsBelow c (trailingZeros H a) =
      setBitsBelow b (trailingZeros H a) ++ setBitsBelow c (trailingZeros H b) := by
  rw [setBitsBelow_split (trailingZeros_le_of_derives hab)]
  unfold Derives at hbc
  rw [hbc]

theorem derive_trans {α : Type} (step : ℕ → α → α) {a b c : ℕ} (hab : Derives H a b)
    (hbc : Derives H b c) (x : α) :
    derive H step a c x = derive H step b c (derive H step a b x) := by
  unfold derive
  rw [setBitsBelow_trans hab hbc, List.foldl_append]

/-- A node has no steps to itself: it has no set bit below its trailing zeros. -/
theorem setBitsBelow_trailingZeros (a : ℕ) : setBitsBelow a (trailingZeros H a) = [] :=
  setBitsBelow_eq_nil fun i hi =>
    (mod_two_pow_eq_zero_iff (t := trailingZeros H a)).mp
      (Nat.mod_eq_zero_of_dvd (two_pow_trailingZeros_dvd H a)) i hi

theorem derive_self {α : Type} (step : ℕ → α → α) (a : ℕ) (x : α) : derive H step a a x = x := by
  unfold derive
  rw [setBitsBelow_trailingZeros]
  rfl

/-! ## Counted down from `2 ^ H` -/

/-- Numbers with the same powers of two below `2 ^ H` among their divisors have the same
trailing zeros. -/
theorem trailingZeros_congr {a b : ℕ} (h : ∀ t ≤ H, 2 ^ t ∣ a ↔ 2 ^ t ∣ b) :
    trailingZeros H a = trailingZeros H b := by
  have hab := (two_pow_dvd_iff H (trailingZeros_le H a)).mp
    ((h _ (trailingZeros_le H a)).mp (two_pow_trailingZeros_dvd H a))
  have hba := (two_pow_dvd_iff H (trailingZeros_le H b)).mp
    ((h _ (trailingZeros_le H b)).mpr (two_pow_trailingZeros_dvd H b))
  omega

/-- Counted down from `2 ^ H`, a node has the trailing zeros of its count. -/
theorem trailingZeros_two_pow_sub {m : ℕ} (hmH : m ≤ 2 ^ H) :
    trailingZeros H (2 ^ H - m) = trailingZeros H m := by
  apply trailingZeros_congr
  intro t ht
  have hH : 2 ^ t ∣ 2 ^ H := Nat.pow_dvd_pow 2 ht
  constructor
  · intro hdvd
    have := Nat.dvd_sub hH hdvd
    rwa [Nat.sub_sub_self hmH] at this
  · exact Nat.dvd_sub hH

theorem trailingZeros_lt {m : ℕ} (hm : 0 < m) (hmH : m < 2 ^ H) : trailingZeros H m < H := by
  by_contra hge
  have hdvd := (two_pow_dvd_iff H (a := m) (le_refl H)).mpr (by omega)
  exact absurd (Nat.le_of_dvd hm hdvd) (by omega)

theorem two_pow_trailingZeros_le {m : ℕ} (hm : 0 < m) : 2 ^ trailingZeros H m ≤ m :=
  Nat.le_of_dvd hm (two_pow_trailingZeros_dvd H m)

/-- Taking `2 ^ j` off a count with more than `j` trailing zeros leaves `j` of them. -/
theorem trailingZeros_sub_two_pow {m j : ℕ} (hm : 0 < m) (hj : j < trailingZeros H m) :
    trailingZeros H (m - 2 ^ j) = j := by
  have hjH : j < H := lt_of_lt_of_le hj (trailingZeros_le H m)
  have hdvd : 2 ^ (j + 1) ∣ m := (two_pow_dvd_iff H hjH).mpr hj
  have hdvd' : 2 ^ j ∣ m := Nat.pow_dvd_of_le_of_pow_dvd (Nat.le_succ j) hdvd
  apply trailingZeros_eq_of_dvd H hjH (Nat.dvd_sub hdvd' dvd_rfl)
  intro hsub
  -- both `m` and `m - 2 ^ j` are multiples of `2 ^ (j + 1)`, but `2 ^ j` is not
  have hle : 2 ^ j ≤ m := Nat.le_of_dvd hm hdvd'
  have := Nat.dvd_sub hdvd hsub
  rw [Nat.sub_sub_self hle, Nat.pow_succ] at this
  exact absurd (Nat.le_of_dvd (Nat.two_pow_pos j) this) (by have := Nat.two_pow_pos j; omega)

variable (H) in
/-- The counts the node of `m` has below it: from `m - 2 ^ t + 1` to `m`. -/
def Covers (m x : ℕ) : Prop := m - 2 ^ trailingZeros H m < x ∧ x ≤ m

/-- Counted down from `2 ^ H`, the node of `m` has below it the `2 ^ t` numbers from
`2 ^ H - m` up, `2 ^ t` the lowest power of two in `m`. -/
theorem derives_two_pow_sub {m c : ℕ} (hmH : m ≤ 2 ^ H) :
    Derives H (2 ^ H - m) c ↔ 2 ^ H - m ≤ c ∧ c < 2 ^ H - m + 2 ^ trailingZeros H m := by
  have htz := trailingZeros_two_pow_sub (H := H) hmH
  have hdvd : 2 ^ trailingZeros H m ∣ 2 ^ H - m := htz ▸ two_pow_trailingZeros_dvd H (2 ^ H - m)
  unfold Derives
  rw [htz, clearBelow_eq_iff hdvd]

/-- Counted down from `2 ^ H`, a node derives exactly the counts it covers. -/
theorem derives_two_pow_sub_iff {m x : ℕ} (hm : 0 < m) (hmH : m ≤ 2 ^ H) (hxH : x ≤ 2 ^ H) :
    Derives H (2 ^ H - m) (2 ^ H - x) ↔ Covers H m x := by
  have hle := two_pow_trailingZeros_le (H := H) hm
  rw [derives_two_pow_sub hmH]
  unfold Covers
  omega

/-- Nothing from `2 ^ H` up is below a node counted down from `2 ^ H`. -/
theorem not_derives_of_two_pow_le {m c : ℕ} (hm : 0 < m) (hmH : m ≤ 2 ^ H) (hc : 2 ^ H ≤ c) :
    ¬ Derives H (2 ^ H - m) c := by
  have hle := two_pow_trailingZeros_le (H := H) hm
  rw [derives_two_pow_sub hmH]
  omega

instance (m x : ℕ) : Decidable (Covers H m x) :=
  inferInstanceAs (Decidable (m - 2 ^ trailingZeros H m < x ∧ x ≤ m))

theorem covers_self {m : ℕ} (hm : 0 < m) : Covers H m m :=
  ⟨by have := Nat.two_pow_pos (trailingZeros H m); omega, le_rfl⟩

/-- The child `m - 2 ^ j` of `m`, for `j` below the trailing zeros of `m`, is in its range. -/
theorem covers_sub_two_pow {m j : ℕ} (hm : 0 < m) (hj : j < trailingZeros H m) :
    Covers H m (m - 2 ^ j) := by
  have hlt : 2 ^ j < 2 ^ trailingZeros H m := Nat.pow_lt_pow_right (by decide) hj
  have hle := two_pow_trailingZeros_le (H := H) hm
  have hpos := Nat.two_pow_pos j
  exact ⟨by omega, by omega⟩

/-- Below its top, the range of `m` is covered by the ranges of its children `m - 2 ^ j`. -/
theorem covers_child {m x : ℕ} (hcov : Covers H m x) (hlt : x < m) :
    ∃ j < trailingZeros H m, trailingZeros H (m - 2 ^ j) = j ∧ Covers H (m - 2 ^ j) x := by
  obtain ⟨hlo, -⟩ := hcov
  -- `j` is the top bit of the distance `m - x`
  have hd : m - x ≠ 0 := by omega
  have hpow := Nat.pow_log_le_self 2 hd
  have hnext := Nat.lt_pow_succ_log_self (by decide : 1 < 2) (m - x)
  rw [Nat.pow_succ] at hnext
  have hj : Nat.log 2 (m - x) < trailingZeros H m :=
    (Nat.pow_lt_pow_iff_right (by decide : 1 < 2)).mp (by omega)
  have hm : 0 < m := by omega
  refine ⟨Nat.log 2 (m - x), hj, trailingZeros_sub_two_pow hm hj, ?_⟩
  unfold Covers
  rw [trailingZeros_sub_two_pow hm hj]
  omega

/-! ## The latest node of each level -/

variable (H) in
/-- `m` is the latest count up to `n` with `j` trailing zeros. -/
def IsLatest (n j m : ℕ) : Prop :=
  0 < m ∧ m ≤ n ∧ trailingZeros H m = j ∧ ∀ m', m < m' → m' ≤ n → trailingZeros H m' ≠ j

theorem isLatest_self {n : ℕ} (hn : 0 < n) : IsLatest H n (trailingZeros H n) n :=
  ⟨hn, le_rfl, rfl, fun _ hlt hle => absurd hlt (by omega)⟩

theorem IsLatest.succ {n j m : ℕ} (h : IsLatest H n j m) (hj : trailingZeros H (n + 1) ≠ j) :
    IsLatest H (n + 1) j m := by
  obtain ⟨hm, hmn, htz, hlater⟩ := h
  refine ⟨hm, by omega, htz, fun m' hlt hle => ?_⟩
  rcases Nat.lt_or_ge m' (n + 1) with hm' | hm'
  · exact hlater m' hlt (by omega)
  · rwa [show m' = n + 1 by omega]

theorem IsLatest.unique {n j m m' : ℕ} (h : IsLatest H n j m) (h' : IsLatest H n j m') :
    m = m' := by
  rcases Nat.lt_trichotomy m m' with hlt | heq | hgt
  · exact absurd h'.2.2.1 (h.2.2.2 m' hlt h'.2.1)
  · exact heq
  · exact absurd h.2.2.1 (h'.2.2.2 m hgt h.2.1)

/-- Just before a count with more than `j` trailing zeros, the latest count with `j` of them
is `2 ^ j` earlier. -/
theorem isLatest_sub_two_pow {n j : ℕ} (hj : j < trailingZeros H (n + 1)) :
    IsLatest H n j (n + 1 - 2 ^ j) := by
  have hjH : j < H := lt_of_lt_of_le hj (trailingZeros_le H (n + 1))
  have hdvd : 2 ^ j ∣ n + 1 := (two_pow_dvd_iff H hjH.le).mpr hj.le
  have hlt : 2 ^ j < n + 1 := by
    have := two_pow_trailingZeros_le (H := H) (Nat.succ_pos n)
    exact lt_of_lt_of_le (Nat.pow_lt_pow_right (by decide) hj) this
  refine ⟨by omega, by have := Nat.two_pow_pos j; omega, trailingZeros_sub_two_pow (Nat.succ_pos n) hj,
    fun m' hlo hhi htz => ?_⟩
  -- a multiple of `2 ^ j` strictly between two multiples `2 ^ j` apart
  have hm' : 2 ^ j ∣ m' := (two_pow_dvd_iff H hjH.le).mpr htz.ge
  have := Nat.dvd_sub hdvd hm'
  exact absurd (Nat.le_of_dvd (by omega) this) (by omega)

/-- The parent of the node of `m`, for `2 ^ j` the lowest power of two in `m`, is the node of
`m + 2 ^ j`: it has more trailing zeros. -/
theorem trailingZeros_lt_parent {m : ℕ} (hm : 0 < m) (hmH : m < 2 ^ H) :
    trailingZeros H m < trailingZeros H (m + 2 ^ trailingZeros H m) := by
  have hjH := trailingZeros_lt hm hmH
  have hndvd := not_two_pow_succ_dvd H hjH
  obtain ⟨q, hq⟩ := two_pow_trailingZeros_dvd H m
  generalize trailingZeros H m = j at hjH hndvd hq ⊢
  -- `m = 2 ^ j * q` with `q` odd, so `m + 2 ^ j = 2 ^ j * (q + 1)` with `q + 1` even
  have hodd : ¬ 2 ∣ q := by
    rintro ⟨r, rfl⟩
    exact hndvd ⟨r, by rw [hq, Nat.pow_succ, Nat.mul_assoc]⟩
  obtain ⟨r, hr⟩ : 2 ∣ q + 1 := by omega
  exact (two_pow_dvd_iff H hjH).mp
    ⟨r, by rw [hq, Nat.pow_succ, Nat.mul_assoc, ← hr, Nat.mul_add_one]⟩

/-- Every count up to `n` is covered by the latest count of some level. -/
theorem exists_latest_covers {n x : ℕ} (hx : 0 < x) (hxn : x ≤ n) (hn : n < 2 ^ H) :
    ∃ m, IsLatest H n (trailingZeros H m) m ∧ Covers H m x := by
  classical
  -- the latest count up to `n` that covers `x`
  let P : ℕ → Prop := fun m => 0 < m ∧ Covers H m x
  obtain ⟨m, hm⟩ : ∃ m, Nat.findGreatest P n = m := ⟨_, rfl⟩
  obtain ⟨hmpos, hcov⟩ : P m := hm ▸ Nat.findGreatest_spec hxn ⟨hx, covers_self hx⟩
  have hmn : m ≤ n := hm ▸ Nat.findGreatest_le n
  refine ⟨m, ⟨hmpos, hmn, rfl, fun m' hlt hle htz => ?_⟩, hcov⟩
  have hmH : m < 2 ^ H := by omega
  have hparent := trailingZeros_lt_parent hmpos hmH
  have hdvd := two_pow_trailingZeros_dvd H m
  have hjH := trailingZeros_lt hmpos hmH
  obtain ⟨hlo, hhi⟩ := hcov
  generalize trailingZeros H m = j at hparent hdvd hjH hlo htz
  -- the parent `m + 2 ^ j` covers `x` too, so it is past `n`
  have hpast : n < m + 2 ^ j := by
    by_contra hle'
    have hpos := Nat.two_pow_pos j
    apply Nat.findGreatest_is_greatest (by rw [hm]; omega : Nat.findGreatest P n < m + 2 ^ j)
      (by omega : m + 2 ^ j ≤ n)
    have hpow := Nat.pow_le_pow_right (by decide : 0 < 2) hparent
    rw [Nat.pow_succ] at hpow
    exact ⟨by omega, by omega, by omega⟩
  -- so `m'` is a multiple of `2 ^ j` less than `2 ^ j` past the multiple `m`
  have hm' : 2 ^ j ∣ m' := (two_pow_dvd_iff H hjH.le).mpr htz.ge
  have := Nat.dvd_sub hm' hdvd
  exact absurd (Nat.le_of_dvd (by omega) this) (by omega)

end BitTree
