import Mathlib.Algebra.Order.Floor.Div
import Mathlib.Tactic.NormNum
import Mathlib.Tactic.Ring

/-!
# `bigDivide` and `bigMultiply` of `util/numeric.cpp`

`uint128_t` is `BitVec 128`: the class of `lib/util` is taken to implement 128-bit unsigned
arithmetic, wrapping modulo `2 ^ 128`. `uint64_t` is `BitVec 64`; an `int64_t` is an integer,
and a cast between the two is `BitVec.ofInt 64` one way and the value the other. The no-throw
overloads write their result only when they return `true`, and every caller drops it otherwise,
so they return an `Option`; an `assert` is an error that names its expression, and a throw is
an error with its message.

Each overload computes the exactly rounded quotient (`bigDivideUnsigned_eq`, `bigDivide_eq`,
`bigDivide128Unsigned_eq`, `bigDivide128_eq`): no intermediate of the 64-bit overloads wraps,
and the ceiling of the 128-bit one is refused, without wrapping, exactly when its quotient is
too large for 64 bits anyway.
-/

namespace Dexfin.Stellar

/-- `Rounding`. -/
inductive Rounding
  | roundDown
  | roundUp
  deriving DecidableEq, Repr

/-- `INT64_MAX`. -/
def INT64_MAX : ℤ := 2 ^ 63 - 1

/-- `UINT64_MAX`. -/
def UINT64_MAX : ℕ := 2 ^ 64 - 1

/-- `uint128_t`. -/
abbrev Uint128 := BitVec 128

/-- The exactly rounded quotient `x / c`, down or up. -/
def roundedDiv (x c : ℕ) : Rounding → ℕ
  | .roundDown => x / c
  | .roundUp => x ⌈/⌉ c

/-! ## The overloads -/

/-- `bigDivide(uint64_t& result, uint64_t A, uint64_t B, uint64_t C, Rounding)`. -/
def bigDivideUnsigned (A B C : BitVec 64) (rounding : Rounding) : Option (BitVec 64) :=
  let a : Uint128 := A.setWidth 128
  let b : Uint128 := B.setWidth 128
  let c : Uint128 := C.setWidth 128
  let x := if rounding = .roundDown then a * b / c else (a * b + c - 1) / c
  if x.toNat ≤ UINT64_MAX then some (x.setWidth 64) else none

/-- `bigDivide(int64_t& result, int64_t A, int64_t B, int64_t C, Rounding)`. -/
def bigDivide (A B C : ℤ) (rounding : Rounding) : Except String (Option ℤ) :=
  if (A ≥ 0) ∧ (B ≥ 0) ∧ (C > 0) then
    .ok <| match bigDivideUnsigned (BitVec.ofInt 64 A) (BitVec.ofInt 64 B) (BitVec.ofInt 64 C)
        rounding with
      | some r2 => if (r2.toNat : ℤ) ≤ INT64_MAX then some r2.toNat else none
      | none => none
  else .error "(A >= 0) && (B >= 0) && (C > 0)"

/-- `bigDivide(int64_t A, int64_t B, int64_t C, Rounding)`, which throws on overflow. -/
def bigDivideOrThrow (A B C : ℤ) (rounding : Rounding) : Except String ℤ := do
  match ← bigDivide A B C rounding with
  | some res => pure res
  | none => throw "overflow while performing bigDivide"

/-- `bigDivide(uint64_t& result, uint128_t a, uint64_t B, Rounding)`. -/
def bigDivide128Unsigned (a : Uint128) (B : BitVec 64) (rounding : Rounding) :
    Except String (Option (BitVec 64)) :=
  if B ≠ 0 then
    let b : Uint128 := B.setWidth 128
    let UINT128_MAX : Uint128 := ~~~0
    -- the ceiling `a + b - 1` would wrap past `UINT128_MAX`
    if rounding = .roundUp ∧ a > UINT128_MAX - (b - 1) then .ok none
    else
      let x := if rounding = .roundDown then a / b else (a + b - 1) / b
      .ok (if x.toNat ≤ UINT64_MAX then some (x.setWidth 64) else none)
  else .error "B != 0"

/-- `bigDivide(int64_t& result, uint128_t a, int64_t B, Rounding)`. -/
def bigDivide128 (a : Uint128) (B : ℤ) (rounding : Rounding) : Except String (Option ℤ) :=
  if B > 0 then do
    match ← bigDivide128Unsigned a (BitVec.ofInt 64 B) rounding with
    | some r2 => pure (if (r2.toNat : ℤ) ≤ INT64_MAX then some r2.toNat else none)
    | none => pure none
  else .error "B > 0"

/-- `bigDivide(uint128_t a, int64_t B, Rounding)`, which throws on overflow. -/
def bigDivide128OrThrow (a : Uint128) (B : ℤ) (rounding : Rounding) : Except String ℤ := do
  match ← bigDivide128 a B rounding with
  | some res => pure res
  | none => throw "overflow while performing bigDivide"

/-- `bigMultiply(uint64_t a, uint64_t b)`. -/
def bigMultiplyUnsigned (a b : BitVec 64) : Uint128 := a.setWidth 128 * b.setWidth 128

/-- `bigMultiply(int64_t a, int64_t b)`. -/
def bigMultiply (a b : ℤ) : Except String Uint128 :=
  if (a ≥ 0) ∧ (b ≥ 0) then .ok (bigMultiplyUnsigned (BitVec.ofInt 64 a) (BitVec.ofInt 64 b))
  else .error "(a >= 0) && (b >= 0)"

/-! ## Machine words -/

theorem toNat_setWidth_128 (x : BitVec 64) : (x.setWidth 128).toNat = x.toNat := by
  rw [BitVec.toNat_setWidth, Nat.mod_eq_of_lt (lt_trans x.isLt (by norm_num))]

theorem toNat_setWidth_64 {x : Uint128} (hx : x.toNat < 2 ^ 64) : (x.setWidth 64).toNat = x.toNat := by
  rw [BitVec.toNat_setWidth, Nat.mod_eq_of_lt hx]

theorem toNat_ofInt_64 {A : ℤ} (h0 : 0 ≤ A) (h1 : A ≤ INT64_MAX) :
    (BitVec.ofInt 64 A).toNat = A.toNat := by
  rw [BitVec.toNat_ofInt, Int.emod_eq_of_lt h0 (by simp only [INT64_MAX] at h1; omega)]

/-- Two 64-bit factors never wrap 128 bits. -/
theorem mul_lt_two_pow_128 {a b : ℕ} (ha : a < 2 ^ 64) (hb : b < 2 ^ 64) : a * b < 2 ^ 128 :=
  calc a * b < 2 ^ 64 * 2 ^ 64 := Nat.mul_lt_mul'' ha hb
    _ = 2 ^ 128 := by norm_num

/-- Nor does the ceiling's numerator `a * b + c - 1`. -/
theorem mul_add_lt_two_pow_128 {a b c : ℕ} (ha : a < 2 ^ 64) (hb : b < 2 ^ 64) (hc : c < 2 ^ 64) :
    a * b + c < 2 ^ 128 := by
  have hab : a * b ≤ (2 ^ 64 - 1) * (2 ^ 64 - 1) := Nat.mul_le_mul (by omega) (by omega)
  have : (2 ^ 64 - 1) * (2 ^ 64 - 1) + 2 ^ 64 ≤ 2 ^ 128 := by norm_num
  omega

theorem toNat_bigMultiplyUnsigned (a b : BitVec 64) :
    (bigMultiplyUnsigned a b).toNat = a.toNat * b.toNat := by
  rw [bigMultiplyUnsigned, BitVec.toNat_mul, toNat_setWidth_128, toNat_setWidth_128,
    Nat.mod_eq_of_lt (mul_lt_two_pow_128 a.isLt b.isLt)]

/-- The ceiling division `(x + c - 1) / c` of 128-bit words, when `x + c - 1` does not wrap
(`x + c` itself may). -/
theorem toNat_ceil_div {x c : Uint128} (hc : c ≠ 0) (hxc : x.toNat + c.toNat ≤ 2 ^ 128) :
    ((x + c - 1) / c).toNat = x.toNat ⌈/⌉ c.toNat := by
  have hc0 : 0 < c.toNat := by
    rcases Nat.eq_zero_or_pos c.toNat with h | h
    · exact absurd (BitVec.eq_of_toNat_eq h) hc
    · exact h
  have hsub : (x + c - 1).toNat = x.toNat + c.toNat - 1 := by
    rw [BitVec.toNat_sub, BitVec.toNat_add, Nat.add_mod_mod, show (1 : Uint128).toNat = 1 from rfl,
      show 2 ^ 128 - 1 + (x.toNat + c.toNat) = x.toNat + c.toNat - 1 + 2 ^ 128 by omega,
      Nat.add_mod_right, Nat.mod_eq_of_lt (by omega)]
  rw [BitVec.toNat_udiv, hsub, Nat.ceilDiv_eq_add_pred_div]

/-! ## What each overload computes -/

/-- The 64-bit overload: the rounded quotient of `A * B` by `C`, when it fits 64 bits. -/
theorem bigDivideUnsigned_eq (A B C : BitVec 64) (hC : C ≠ 0) (rounding : Rounding) :
    bigDivideUnsigned A B C rounding =
      if roundedDiv (A.toNat * B.toNat) C.toNat rounding ≤ UINT64_MAX then
        some (BitVec.ofNat 64 (roundedDiv (A.toNat * B.toNat) C.toNat rounding))
      else none := by
  have hC' : C.setWidth 128 ≠ 0 := fun h => hC (BitVec.eq_of_toNat_eq (by
    rw [← toNat_setWidth_128 C, h]; rfl))
  -- the quotient of the 128-bit words is the exact one
  have hx : (if rounding = .roundDown then
        A.setWidth 128 * B.setWidth 128 / C.setWidth 128
      else (A.setWidth 128 * B.setWidth 128 + C.setWidth 128 - 1) / C.setWidth 128).toNat =
      roundedDiv (A.toNat * B.toNat) C.toNat rounding := by
    have hmul := toNat_bigMultiplyUnsigned A B
    rw [bigMultiplyUnsigned] at hmul
    cases rounding with
    | roundDown =>
      rw [if_pos rfl, BitVec.toNat_udiv, hmul, toNat_setWidth_128]
      rfl
    | roundUp =>
      rw [if_neg (by decide), toNat_ceil_div hC' (by
          rw [hmul, toNat_setWidth_128]; exact (mul_add_lt_two_pow_128 A.isLt B.isLt C.isLt).le),
        hmul, toNat_setWidth_128]
      rfl
  unfold bigDivideUnsigned
  dsimp only
  rw [hx]
  by_cases hq : roundedDiv (A.toNat * B.toNat) C.toNat rounding ≤ UINT64_MAX
  · have hq' : roundedDiv (A.toNat * B.toNat) C.toNat rounding < 2 ^ 64 := by
      simp only [UINT64_MAX] at hq
      omega
    rw [if_pos hq, if_pos hq]
    congr 1
    apply BitVec.eq_of_toNat_eq
    rw [toNat_setWidth_64 (by rw [hx]; exact hq'), hx, BitVec.toNat_ofNat, Nat.mod_eq_of_lt hq']
  · rw [if_neg hq, if_neg hq]

/-- A quotient that fits 64 bits reads back from its word. -/
theorem toNat_ofNat_64 {q : ℕ} (hq : q ≤ UINT64_MAX) : (BitVec.ofNat 64 q).toNat = q := by
  rw [BitVec.toNat_ofNat, Nat.mod_eq_of_lt (by simp only [UINT64_MAX] at hq; omega)]

/-- The signed result of an unsigned quotient: the quotient, when it fits `int64_t`. -/
theorem signedResult_eq (q : ℕ) :
    (match (if q ≤ UINT64_MAX then some (BitVec.ofNat 64 q) else none) with
      | some r2 => if (r2.toNat : ℤ) ≤ INT64_MAX then some (r2.toNat : ℤ) else none
      | none => none) =
      if (q : ℤ) ≤ INT64_MAX then some (q : ℤ) else none := by
  by_cases hq : q ≤ UINT64_MAX
  · rw [if_pos hq]
    dsimp only
    rw [toNat_ofNat_64 hq]
  · have hbig : ¬(q : ℤ) ≤ INT64_MAX := by
      simp only [UINT64_MAX, INT64_MAX] at hq ⊢
      omega
    rw [if_neg hq, if_neg hbig]

/-- The `int64_t` overload, inside its `assert`: the rounded quotient of `A * B` by `C`, when it
fits `int64_t`. -/
theorem bigDivide_eq {A B C : ℤ} (hA : 0 ≤ A) (hA' : A ≤ INT64_MAX) (hB : 0 ≤ B)
    (hB' : B ≤ INT64_MAX) (hC : 0 < C) (hC' : C ≤ INT64_MAX) (rounding : Rounding) :
    bigDivide A B C rounding =
      .ok (if (roundedDiv (A.toNat * B.toNat) C.toNat rounding : ℤ) ≤ INT64_MAX then
        some (roundedDiv (A.toNat * B.toNat) C.toNat rounding : ℤ) else none) := by
  have hC0 : BitVec.ofInt 64 C ≠ 0 := fun h => by
    have := toNat_ofInt_64 hC.le hC'
    rw [h] at this
    simp at this
    omega
  rw [bigDivide, if_pos ⟨hA, hB, hC⟩, bigDivideUnsigned_eq _ _ _ hC0, toNat_ofInt_64 hA hA',
    toNat_ofInt_64 hB hB', toNat_ofInt_64 hC.le hC', signedResult_eq]

theorem bigDivideOrThrow_eq {A B C : ℤ} (hA : 0 ≤ A) (hA' : A ≤ INT64_MAX) (hB : 0 ≤ B)
    (hB' : B ≤ INT64_MAX) (hC : 0 < C) (hC' : C ≤ INT64_MAX) (rounding : Rounding) :
    bigDivideOrThrow A B C rounding =
      if (roundedDiv (A.toNat * B.toNat) C.toNat rounding : ℤ) ≤ INT64_MAX then
        .ok (roundedDiv (A.toNat * B.toNat) C.toNat rounding : ℤ)
      else .error "overflow while performing bigDivide" := by
  rw [bigDivideOrThrow, bigDivide_eq hA hA' hB hB' hC hC']
  split_ifs <;> rfl

/-- A ceiling numerator past `UINT128_MAX` has a quotient past `UINT64_MAX`. -/
theorem UINT64_MAX_lt_ceilDiv {a b : ℕ} (ha : a < 2 ^ 128) (hb : b < 2 ^ 64)
    (hab : 2 ^ 128 < a + b) : UINT64_MAX < a ⌈/⌉ b := by
  have hb0 : 0 < b := by omega
  have hle : a ≤ b * (a ⌈/⌉ b) := (ceilDiv_le_iff_le_mul hb0).1 le_rfl
  by_contra hq
  have hmul : b * (a ⌈/⌉ b) ≤ b * UINT64_MAX := Nat.mul_le_mul_left b (by omega)
  have : b * UINT64_MAX + b < 2 ^ 128 := by
    have := Nat.mul_le_mul_right (2 ^ 64) (show b ≤ 2 ^ 64 - 1 by omega)
    simp only [UINT64_MAX]
    rw [Nat.mul_sub, Nat.mul_one]
    have h2 : (2 : ℕ) ^ 64 * 2 ^ 64 = 2 ^ 128 := by norm_num
    have h3 : b ≤ b * 2 ^ 64 := Nat.le_mul_of_pos_right b (by norm_num)
    rw [Nat.mul_comm] at this
    omega
  omega

/-- The `uint128_t` overload with a `uint64_t` result, inside its `assert`: the rounded quotient
of `a` by `B`, when it fits 64 bits. -/
theorem bigDivide128Unsigned_eq (a : Uint128) {B : BitVec 64} (hB : B ≠ 0) (rounding : Rounding) :
    bigDivide128Unsigned a B rounding =
      .ok (if roundedDiv a.toNat B.toNat rounding ≤ UINT64_MAX then
        some (BitVec.ofNat 64 (roundedDiv a.toNat B.toNat rounding)) else none) := by
  have hb : (B.setWidth 128).toNat = B.toNat := toNat_setWidth_128 B
  have hb0 : 0 < B.toNat := by
    rcases Nat.eq_zero_or_pos B.toNat with h | h
    · exact absurd (BitVec.eq_of_toNat_eq h) hB
    · exact h
  have hb' : B.setWidth 128 ≠ 0 := fun h => by rw [h] at hb; simp at hb; omega
  -- the guard: `a > UINT128_MAX - (b - 1)` is `a + b > 2 ^ 128`
  have hguard : (a > ~~~0 - (B.setWidth 128 - 1)) ↔ 2 ^ 128 < a.toNat + B.toNat := by
    have hsub1 : (B.setWidth 128 - 1).toNat = B.toNat - 1 := by
      rw [BitVec.toNat_sub_of_le (by rw [BitVec.le_def, hb]; simp; omega), hb]
      rfl
    have hsub2 : (~~~(0 : Uint128) - (B.setWidth 128 - 1)).toNat = 2 ^ 128 - 1 - (B.toNat - 1) := by
      rw [BitVec.toNat_sub_of_le (by
        rw [BitVec.le_def, hsub1, BitVec.toNat_not]; simp; omega), hsub1, BitVec.toNat_not]
      rfl
    rw [gt_iff_lt, BitVec.lt_def, hsub2]
    have := B.isLt
    omega
  -- the quotient as computed, when the guard lets it through
  have hx : ∀ (hg : ¬(rounding = .roundUp ∧ a > ~~~0 - (B.setWidth 128 - 1))),
      (if rounding = .roundDown then a / B.setWidth 128 else
        (a + B.setWidth 128 - 1) / B.setWidth 128).toNat = roundedDiv a.toNat B.toNat rounding := by
    intro hg
    cases rounding with
    | roundDown => rw [if_pos rfl, BitVec.toNat_udiv, hb]; rfl
    | roundUp =>
      have hfit : a.toNat + B.toNat ≤ 2 ^ 128 := by
        by_contra h
        exact hg ⟨rfl, hguard.2 (by omega)⟩
      rw [if_neg (by decide), toNat_ceil_div hb' (by rw [hb]; exact hfit), hb]
      rfl
  unfold bigDivide128Unsigned
  rw [if_pos hB]
  dsimp only
  by_cases hg : rounding = .roundUp ∧ a > ~~~0 - (B.setWidth 128 - 1)
  · -- refused: the ceiling is past `UINT64_MAX` in any case
    obtain ⟨rfl, hgt⟩ := hg
    have hbig := UINT64_MAX_lt_ceilDiv a.isLt B.isLt (hguard.1 hgt)
    rw [if_pos ⟨rfl, hgt⟩, if_neg (by simp only [roundedDiv]; omega)]
  · rw [if_neg hg, hx hg]
    by_cases hq : roundedDiv a.toNat B.toNat rounding ≤ UINT64_MAX
    · rw [if_pos hq, if_pos hq]
      congr 2
      apply BitVec.eq_of_toNat_eq
      rw [toNat_setWidth_64 (by rw [hx hg]; simp only [UINT64_MAX] at hq; omega), hx hg,
        toNat_ofNat_64 hq]
    · rw [if_neg hq, if_neg hq]

/-- The `uint128_t` overload with an `int64_t` result, inside its `assert`. -/
theorem bigDivide128_eq (a : Uint128) {B : ℤ} (hB : 0 < B) (hB' : B ≤ INT64_MAX)
    (rounding : Rounding) :
    bigDivide128 a B rounding =
      .ok (if (roundedDiv a.toNat B.toNat rounding : ℤ) ≤ INT64_MAX then
        some (roundedDiv a.toNat B.toNat rounding : ℤ) else none) := by
  have hB0 : BitVec.ofInt 64 B ≠ 0 := fun h => by
    have := toNat_ofInt_64 hB.le hB'
    rw [h] at this
    simp at this
    omega
  rw [bigDivide128, if_pos hB, bigDivide128Unsigned_eq a hB0, toNat_ofInt_64 hB.le hB',
    ← signedResult_eq]
  split_ifs <;> rfl

theorem bigDivide128OrThrow_eq (a : Uint128) {B : ℤ} (hB : 0 < B) (hB' : B ≤ INT64_MAX)
    (rounding : Rounding) :
    bigDivide128OrThrow a B rounding =
      if (roundedDiv a.toNat B.toNat rounding : ℤ) ≤ INT64_MAX then
        .ok (roundedDiv a.toNat B.toNat rounding : ℤ)
      else .error "overflow while performing bigDivide" := by
  rw [bigDivide128OrThrow, bigDivide128_eq a hB hB']
  split_ifs <;> rfl

/-- `bigMultiply` of two `int64_t`, inside its `assert`, is the exact product. -/
theorem bigMultiply_eq {a b : ℤ} (ha : 0 ≤ a) (ha' : a ≤ INT64_MAX) (hb : 0 ≤ b)
    (hb' : b ≤ INT64_MAX) : bigMultiply a b = .ok (BitVec.ofNat 128 (a.toNat * b.toNat)) := by
  rw [bigMultiply, if_pos ⟨ha, hb⟩]
  congr 1
  apply BitVec.eq_of_toNat_eq
  rw [toNat_bigMultiplyUnsigned, toNat_ofInt_64 ha ha', toNat_ofInt_64 hb hb', BitVec.toNat_ofNat,
    Nat.mod_eq_of_lt (mul_lt_two_pow_128 (by simp only [INT64_MAX] at ha'; omega)
      (by simp only [INT64_MAX] at hb'; omega))]

/-! ## `bigDivide` is exact -/

/-- The `int64_t` overload returns `true` exactly when the rounded quotient of `A * B` by `C`
fits `int64_t`, and then gives it; the `uint128_t` overload returns `true` exactly when the
rounded quotient of `a` by `B` fits 64 bits, and then gives it. -/
theorem bigDivide_exact {A B C : ℤ} (hA : 0 ≤ A) (hA' : A ≤ INT64_MAX) (hB : 0 ≤ B)
    (hB' : B ≤ INT64_MAX) (hC : 0 < C) (hC' : C ≤ INT64_MAX) (a : Uint128) {b : BitVec 64}
    (hb : b ≠ 0) (rounding : Rounding) :
    bigDivide A B C rounding =
        .ok (if (roundedDiv (A.toNat * B.toNat) C.toNat rounding : ℤ) ≤ INT64_MAX then
          some (roundedDiv (A.toNat * B.toNat) C.toNat rounding : ℤ) else none) ∧
      bigDivide128Unsigned a b rounding =
        .ok (if roundedDiv a.toNat b.toNat rounding ≤ UINT64_MAX then
          some (BitVec.ofNat 64 (roundedDiv a.toNat b.toNat rounding)) else none) :=
  ⟨bigDivide_eq hA hA' hB hB' hC hC' rounding, bigDivide128Unsigned_eq a hb rounding⟩

theorem bigDivide_exact_ceil :
    bigDivide 7 5 2 .roundUp = .ok (some 18) ∧ bigDivide128Unsigned 35 2 .roundUp = .ok (some 18) := by
  obtain ⟨h1, h2⟩ := bigDivide_exact (A := 7) (B := 5) (C := 2) (by decide) (by decide) (by decide)
    (by decide) (by decide) (by decide) 35 (b := 2) (by decide) .roundUp
  refine ⟨h1.trans ?_, h2.trans ?_⟩ <;> decide

end Dexfin.Stellar
