import Mathlib.Data.Nat.Size
import Mathlib.Data.Nat.Bitwise
import Mathlib.Data.Nat.Digits.Defs

/-!
# Numbers as little-endian limbs

A number held as `n` limbs of `w` bits, limb `i` being `x / 2 ^ (w * i) % 2 ^ w`, the lowest
first. Two loops over the limbs: the search from the top for the highest set bit, which gives
`Nat.size` (`size_eq_of_top_limb`), and the multiplication by one word with a carry kept in a
double-width accumulator, which gives the product modulo `2 ^ (w * n)` with nothing lost in
the accumulator (`ofDigits_mulWord`).
-/

namespace Limbs

/-! ## Searching from the top -/

/-- `for (pos = n - 1; pos >= 0; pos--) if (p(pos)) return pos;`. -/
def findFromTop (p : ℕ → Bool) : ℕ → Option ℕ
  | 0 => none
  | pos + 1 => if p pos then some pos else findFromTop p pos

variable {p : ℕ → Bool}

theorem findFromTop_eq_some_iff {n k : ℕ} :
    findFromTop p n = some k ↔
      k < n ∧ p k = true ∧ ∀ j, k < j → j < n → p j = false := by
  induction n with
  | zero => simp [findFromTop]
  | succ n ih =>
    rw [findFromTop]
    by_cases hn : p n
    · rw [if_pos hn, Option.some.injEq]
      constructor
      · rintro rfl
        exact ⟨by omega, hn, fun j hj hjn => by omega⟩
      · rintro ⟨hk, hpk, habove⟩
        by_contra hne
        have := habove n (by omega) (by omega)
        simp [hn] at this
    · rw [if_neg hn, ih]
      constructor
      · rintro ⟨hk, hpk, habove⟩
        refine ⟨by omega, hpk, fun j hj hjn => ?_⟩
        rcases Nat.lt_succ_iff_lt_or_eq.mp hjn with hjn | rfl
        · exact habove j hj hjn
        · simpa using hn
      · rintro ⟨hk, hpk, habove⟩
        have hkn : k ≠ n := by
          rintro rfl
          exact hn hpk
        exact ⟨by omega, hpk, fun j hj hjn => habove j hj (by omega)⟩

theorem findFromTop_eq_none_iff {n : ℕ} : findFromTop p n = none ↔ ∀ j < n, p j = false := by
  induction n with
  | zero => simp [findFromTop]
  | succ n ih =>
    rw [findFromTop]
    by_cases hn : p n
    · simp only [hn, if_true, reduceCtorEq, false_iff, not_forall]
      exact ⟨n, by omega, by simp [hn]⟩
    · rw [if_neg hn, ih]
      constructor
      · intro h j hj
        rcases Nat.lt_succ_iff_lt_or_eq.mp hj with hj | rfl
        · exact h j hj
        · simpa using hn
      · exact fun h j hj => h j (by omega)

/-! ## Limbs -/

/-- Limb `i` of `x`, `w` bits wide. -/
def limb (w x i : ℕ) : ℕ := x / 2 ^ (w * i) % 2 ^ w

/-- The `n` limbs of `x`, the lowest first. -/
def limbs (w n x : ℕ) : List ℕ := (List.range n).map (limb w x)

theorem limb_lt (w x i : ℕ) : limb w x i < 2 ^ w := Nat.mod_lt _ (by positivity)

theorem testBit_limb (w x i j : ℕ) :
    (limb w x i).testBit j = (decide (j < w) && x.testBit (j + w * i)) := by
  rw [limb, Nat.testBit_mod_two_pow, Nat.testBit_div_two_pow]

theorem length_limbs (w n x : ℕ) : (limbs w n x).length = n := by
  simp [limbs]

theorem lt_of_mem_limbs {w n x d : ℕ} (hd : d ∈ limbs w n x) : d < 2 ^ w := by
  obtain ⟨i, -, rfl⟩ := List.mem_map.mp hd
  exact limb_lt w x i

/-- `x` below limb `n + 1` is `x` below limb `n` and limb `n` above it. -/
theorem mod_two_pow_succ (w x n : ℕ) :
    x % 2 ^ (w * (n + 1)) = x % 2 ^ (w * n) + 2 ^ (w * n) * limb w x n := by
  rw [limb, Nat.mul_succ, Nat.pow_add, Nat.mod_mul]

/-- A number below `a` plus `a` times `Y`, modulo `a * b`, keeps `Y` modulo `b`. -/
theorem add_mul_mod_mul_of_lt {T a : ℕ} (Y b : ℕ) (hT : T < a) :
    (T + a * Y) % (a * b) = T + a * (Y % b) := by
  rw [Nat.mod_mul, Nat.add_mul_mod_self_left, Nat.mod_eq_of_lt hT,
    Nat.add_mul_div_left _ _ (by omega), Nat.div_eq_of_lt hT, Nat.zero_add]

/-- A smaller top limb makes a smaller number, whatever lies below it. -/
theorem add_mul_lt_add_mul_of_lt {X P p q : ℕ} (Y : ℕ) (hX : X < P) (h : p < q) :
    X + P * p < Y + P * q :=
  calc X + P * p < P * (p + 1) := by rw [Nat.mul_succ]; omega
    _ ≤ P * q := Nat.mul_le_mul_left P h
    _ ≤ Y + P * q := Nat.le_add_left _ _

/-- The limbs of `x` are its digits in base `2 ^ w`, up to `2 ^ (w * n)`. -/
theorem ofDigits_limbs (w n x : ℕ) : Nat.ofDigits (2 ^ w) (limbs w n x) = x % 2 ^ (w * n) := by
  induction n with
  | zero => simp [limbs, Nat.mod_one]
  | succ n ih =>
    rw [limbs, List.range_succ, List.map_append, Nat.ofDigits_append, ← limbs, ih,
      length_limbs, List.map_singleton, Nat.ofDigits_singleton, ← Nat.pow_mul, mod_two_pow_succ]

/-- Bit `i` of `x` is bit `i % w` of limb `i / w`. -/
theorem testBit_eq_testBit_limb {w : ℕ} (hw : 0 < w) (x i : ℕ) :
    x.testBit i = (limb w x (i / w)).testBit (i % w) := by
  rw [testBit_limb, decide_eq_true (Nat.mod_lt i hw), Bool.true_and, Nat.mod_add_div]

/-- The bits of `x < 2 ^ (w * n)` past its `n` limbs are clear. -/
theorem testBit_eq_false_of_le {w n x i : ℕ} (hx : x < 2 ^ (w * n)) (hn : n ≤ i / w) :
    x.testBit i = false := by
  apply Nat.testBit_lt_two_pow
  calc x < 2 ^ (w * n) := hx
    _ ≤ 2 ^ i := Nat.pow_le_pow_right (by omega)
      (by have := Nat.mul_le_mul_left w hn; have := Nat.mul_div_le i w; omega)

/-- A set bit with none above it gives the size. -/
theorem size_eq_of_testBit {x k : ℕ} (hk : x.testBit k = true)
    (habove : ∀ i, k < i → x.testBit i = false) : x.size = k + 1 := by
  apply le_antisymm
  · exact Nat.size_le.mpr (Nat.lt_pow_two_of_testBit x fun i hi => habove i (by omega))
  · exact Nat.lt_size.mpr (Nat.ge_two_pow_of_testBit hk)

/-- With `pos` the highest limb that is not zero and `nb` the highest set bit in it, the size
of `x` is `w * pos + nb + 1`. -/
theorem size_eq_of_top_limb {w n x pos nb : ℕ} (hx : x < 2 ^ (w * n)) (hnb : nb < w)
    (hpos : ∀ j, pos < j → j < n → limb w x j = 0)
    (hbit : (limb w x pos).testBit nb = true)
    (hhigh : ∀ j, nb < j → (limb w x pos).testBit j = false) :
    x.size = w * pos + nb + 1 := by
  rw [testBit_limb, Bool.and_eq_true, decide_eq_true_eq] at hbit
  rw [size_eq_of_testBit hbit.2, Nat.add_comm nb]
  intro i hi
  have hw : 0 < w := by omega
  have hsplit : i = i % w + w * (i / w) := (Nat.mod_add_div i w).symm
  have hmod := Nat.mod_lt i hw
  rw [testBit_eq_testBit_limb hw]
  -- below the top limb, in it, or above it
  rcases Nat.lt_trichotomy (i / w) pos with hq | hq | hq
  · have : i < w * pos := by
      calc i < w * (i / w + 1) := by rw [Nat.mul_succ]; omega
        _ ≤ w * pos := Nat.mul_le_mul_left w hq
    omega
  · rw [hq]
    exact hhigh _ (by rw [hq] at hsplit; omega)
  · by_cases hn : i / w < n
    · rw [hpos _ hq hn]
      exact Nat.zero_testBit _
    · rw [← testBit_eq_testBit_limb hw]
      exact testBit_eq_false_of_le hx (not_lt.mp hn)

/-- A number whose limbs are all zero is zero. -/
theorem eq_zero_of_limbs {w n x : ℕ} (hx : x < 2 ^ (w * n)) (hw : 0 < w)
    (h : ∀ j < n, limb w x j = 0) : x = 0 := by
  apply Nat.eq_of_testBit_eq
  intro i
  rw [Nat.zero_testBit]
  by_cases hn : i / w < n
  · rw [testBit_eq_testBit_limb hw, h _ hn, Nat.zero_testBit]
  · exact testBit_eq_false_of_le hx (not_lt.mp hn)

/-! ## Multiplying by one word -/

/-- `n = carry + old[i] + b * pn[i]` in a `2 * w`-bit accumulator, the limb `n % 2 ^ w` out and
the carry `n >> w` on, from the lowest limb up; the carry out of the top limb comes last. Old
limbs past the end of `olds` are zero. -/
def mulAddWord (w b : ℕ) : ℕ → List ℕ → List ℕ → List ℕ × ℕ
  | carry, [], _ => ([], carry)
  | carry, d :: ds, olds =>
    let acc := (carry + olds.headD 0 + b * d) % 2 ^ (2 * w)
    let rest := mulAddWord w b (acc / 2 ^ w) ds olds.tail
    (acc % 2 ^ w :: rest.1, rest.2)

/-- `n = carry + b * pn[i]`: the loop with no old limbs. -/
def mulWord (w b : ℕ) : ℕ → List ℕ → List ℕ × ℕ
  | carry, [] => ([], carry)
  | carry, d :: ds =>
    let acc := (carry + b * d) % 2 ^ (2 * w)
    let rest := mulWord w b (acc / 2 ^ w) ds
    (acc % 2 ^ w :: rest.1, rest.2)

theorem mulWord_eq_mulAddWord (w b : ℕ) :
    ∀ (carry : ℕ) (ds : List ℕ), mulWord w b carry ds = mulAddWord w b carry ds []
  | _, [] => rfl
  | carry, d :: ds => by
    rw [mulWord, mulAddWord, mulWord_eq_mulAddWord w b _ ds]
    rfl

/-- A carry, an old limb and the product of two words fit the accumulator. -/
theorem carry_add_mul_lt {w carry old b d : ℕ} (hc : carry < 2 ^ w) (ho : old < 2 ^ w)
    (hb : b < 2 ^ w) (hd : d < 2 ^ w) : carry + old + b * d < 2 ^ (2 * w) := by
  obtain ⟨m, hm⟩ : ∃ m, 2 ^ w = m + 1 :=
    ⟨2 ^ w - 1, by have := Nat.one_le_two_pow (n := w); omega⟩
  have hbd : b * d ≤ m * m := Nat.mul_le_mul (by omega) (by omega)
  rw [Nat.two_mul, Nat.pow_add, hm]
  nlinarith

theorem ofDigits_eq_headD_add (B : ℕ) (olds : List ℕ) :
    Nat.ofDigits B olds = olds.headD 0 + B * Nat.ofDigits B olds.tail := by
  cases olds <;> simp [Nat.ofDigits_cons]

/-- The loop keeps the value: the limbs out and the carry out weigh what the carry in, the old
limbs and the product weigh. -/
theorem mulAddWord_value {w b : ℕ} (hb : b < 2 ^ w) :
    ∀ (carry : ℕ) (ds olds : List ℕ), carry < 2 ^ w → (∀ d ∈ ds, d < 2 ^ w) →
      (∀ d ∈ olds, d < 2 ^ w) → olds.length ≤ ds.length →
      Nat.ofDigits (2 ^ w) (mulAddWord w b carry ds olds).1 +
          2 ^ (w * ds.length) * (mulAddWord w b carry ds olds).2 =
        carry + Nat.ofDigits (2 ^ w) olds + b * Nat.ofDigits (2 ^ w) ds ∧
        (mulAddWord w b carry ds olds).2 < 2 ^ w
  | carry, [], olds, hc, _, _, hlen => by
    rw [List.eq_nil_of_length_eq_zero (Nat.le_zero.mp hlen)]
    simp [mulAddWord, hc]
  | carry, d :: ds, olds, hc, hds, holds, hlen => by
    have hd : d < 2 ^ w := hds d List.mem_cons_self
    have hold : olds.headD 0 < 2 ^ w := by
      cases olds with
      | nil => exact Nat.two_pow_pos w
      | cons o os => exact holds o List.mem_cons_self
    have hbound := carry_add_mul_lt hc hold hb hd
    have hacc : (carry + olds.headD 0 + b * d) % 2 ^ (2 * w) = carry + olds.headD 0 + b * d :=
      Nat.mod_eq_of_lt hbound
    have hcarry : (carry + olds.headD 0 + b * d) / 2 ^ w < 2 ^ w := by
      rw [Nat.div_lt_iff_lt_mul (by positivity), ← Nat.pow_add, ← Nat.two_mul]
      exact hbound
    obtain ⟨hval, hlt⟩ := mulAddWord_value hb
      ((carry + olds.headD 0 + b * d) % 2 ^ (2 * w) / 2 ^ w) ds olds.tail
      (by rw [hacc]; exact hcarry) (fun d hd => hds d (by simp [hd]))
      (fun d hd => holds d (List.mem_of_mem_tail hd)) (by simp at hlen ⊢; omega)
    simp only [hacc] at hval hlt
    refine ⟨?_, by simpa only [mulAddWord, hacc] using hlt⟩
    simp only [mulAddWord, hacc, Nat.ofDigits_cons, List.length_cons]
    -- the limb out and the carry on split the accumulator
    set acc := carry + olds.headD 0 + b * d with hacc_def
    set rest := mulAddWord w b (acc / 2 ^ w) ds olds.tail
    have hsplit := Nat.mod_add_div acc (2 ^ w)
    calc acc % 2 ^ w + 2 ^ w * Nat.ofDigits (2 ^ w) rest.1 + 2 ^ (w * (ds.length + 1)) * rest.2
        = acc % 2 ^ w + 2 ^ w * (Nat.ofDigits (2 ^ w) rest.1 + 2 ^ (w * ds.length) * rest.2) := by
          rw [Nat.mul_succ, Nat.pow_add]
          ring
      _ = (acc % 2 ^ w + 2 ^ w * (acc / 2 ^ w)) +
            2 ^ w * (Nat.ofDigits (2 ^ w) olds.tail + b * Nat.ofDigits (2 ^ w) ds) := by
          rw [hval]
          ring
      _ = carry + Nat.ofDigits (2 ^ w) olds + b * (d + 2 ^ w * Nat.ofDigits (2 ^ w) ds) := by
          rw [hsplit, hacc_def, ofDigits_eq_headD_add (2 ^ w) olds]
          ring

theorem length_mulAddWord (w b : ℕ) :
    ∀ (carry : ℕ) (ds olds : List ℕ), (mulAddWord w b carry ds olds).1.length = ds.length
  | _, [], _ => rfl
  | carry, _ :: ds, olds => by simp [mulAddWord, length_mulAddWord w b _ ds]

theorem lt_of_mem_mulAddWord (w b : ℕ) :
    ∀ (carry : ℕ) (ds olds : List ℕ), ∀ d ∈ (mulAddWord w b carry ds olds).1, d < 2 ^ w
  | _, [], _ => by simp [mulAddWord]
  | carry, _ :: ds, olds => by
    simp only [mulAddWord, List.mem_cons, forall_eq_or_imp]
    exact ⟨Nat.mod_lt _ (by positivity), lt_of_mem_mulAddWord w b _ ds _⟩

/-- Limbs out of the loop are the sum modulo `2 ^ (w * n)`: the carry out of the top limb is
dropped, and nothing else is lost. -/
theorem ofDigits_mulAddWord {w b : ℕ} (hw : 0 < w) (hb : b < 2 ^ w) {ds olds : List ℕ}
    (hds : ∀ d ∈ ds, d < 2 ^ w) (holds : ∀ d ∈ olds, d < 2 ^ w) (hlen : olds.length ≤ ds.length) :
    Nat.ofDigits (2 ^ w) (mulAddWord w b 0 ds olds).1 =
      (Nat.ofDigits (2 ^ w) olds + b * Nat.ofDigits (2 ^ w) ds) % 2 ^ (w * ds.length) := by
  obtain ⟨hval, -⟩ := mulAddWord_value hb 0 ds olds (by positivity) hds holds hlen
  have hlt : Nat.ofDigits (2 ^ w) (mulAddWord w b 0 ds olds).1 < 2 ^ (w * ds.length) := by
    have := Nat.ofDigits_lt_base_pow_length (Nat.one_lt_two_pow hw.ne')
      (lt_of_mem_mulAddWord w b 0 ds olds)
    rwa [length_mulAddWord, ← Nat.pow_mul] at this
  rw [Nat.zero_add] at hval
  rw [← hval, Nat.add_mul_mod_self_left, Nat.mod_eq_of_lt hlt]

/-- The limbs out are the product modulo `2 ^ (w * n)`. -/
theorem ofDigits_mulWord {w b : ℕ} (hw : 0 < w) (hb : b < 2 ^ w) {ds : List ℕ}
    (hds : ∀ d ∈ ds, d < 2 ^ w) :
    Nat.ofDigits (2 ^ w) (mulWord w b 0 ds).1 =
      b * Nat.ofDigits (2 ^ w) ds % 2 ^ (w * ds.length) := by
  rw [mulWord_eq_mulAddWord, ofDigits_mulAddWord hw hb hds (by simp) (by simp), Nat.ofDigits_nil,
    Nat.zero_add]

/-! ## Reading bits off the limbs -/

/-- Bit `i` of a number given by its limbs is bit `i % w` of limb `i / w`. -/
theorem testBit_ofDigits {w : ℕ} (hw : 0 < w) :
    ∀ (L : List ℕ), (∀ d ∈ L, d < 2 ^ w) → ∀ i,
      (Nat.ofDigits (2 ^ w) L).testBit i = (L.getD (i / w) 0).testBit (i % w)
  | [], _, i => by simp
  | d :: L, hL, i => by
    have hd : d < 2 ^ w := hL d List.mem_cons_self
    rw [Nat.ofDigits_cons, Nat.add_comm, Nat.testBit_two_pow_mul_add _ hd]
    split
    · next hi =>
      rw [Nat.div_eq_of_lt hi, Nat.mod_eq_of_lt hi]
      rfl
    · next hi =>
      rw [testBit_ofDigits hw L (fun d hd => hL d (List.mem_cons_of_mem _ hd)),
        Nat.div_eq_sub_div hw (not_lt.mp hi), Nat.mod_eq_sub_mod (not_lt.mp hi),
        List.getD_cons_succ]

end Limbs
