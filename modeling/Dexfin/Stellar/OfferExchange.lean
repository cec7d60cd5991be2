import Dexfin.Lib.IntDiv
import Dexfin.Stellar.Numeric

/-!
# `exchangeV2` and `exchangeV3` of `transactions/OfferExchange.cpp`

The exchanges before protocol 10 cross an offer selling wheat for sheep at `price = n / d`
sheep per wheat. Each clamps the wheat to its limit, prices it in sheep, clamps the sheep to
theirs, and prices the sheep back in wheat, rounding the last step down so that the seller of
wheat is never short-changed.

For every valid price and every amount, neither throws, both keep their results within the
limits, and the sheep paid are worth at least the wheat received (`exchangeV2_withinLimits`,
`exchangeV3_withinLimits`). For `exchangeV2` this is the in-code remark that its throwing
second `bigDivide` "cannot overflow at this point".
-/

namespace Dexfin.Stellar

/-- `INT32_MAX`. -/
def INT32_MAX : ℤ := 2 ^ 31 - 1

/-- `Price`: `n / d` units of sheep for one unit of wheat. -/
structure Price where
  n : ℤ
  d : ℤ
  deriving DecidableEq, Repr

/-- A price the ledger accepts: both parts positive `int32_t`. -/
def Price.Valid (price : Price) : Prop :=
  1 ≤ price.n ∧ price.n ≤ INT32_MAX ∧ 1 ≤ price.d ∧ price.d ≤ INT32_MAX

instance (price : Price) : Decidable price.Valid := by
  unfold Price.Valid
  exact inferInstance

/-- An amount: a non-negative `int64_t`. -/
def IsAmount (x : ℤ) : Prop := 0 ≤ x ∧ x ≤ INT64_MAX

instance (x : ℤ) : Decidable (IsAmount x) := by
  unfold IsAmount
  exact inferInstance

/-- `ExchangeResult`. -/
structure ExchangeResult where
  numWheatReceived : ℤ
  numSheepSend : ℤ
  reduced : Bool
  deriving DecidableEq, Repr

/-- `exchangeV2(wheatReceived, price, maxWheatReceive, maxSheepSend)`. -/
def exchangeV2 (wheatReceived : ℤ) (price : Price) (maxWheatReceive maxSheepSend : ℤ) :
    Except String ExchangeResult := do
  let reduced := decide (wheatReceived > maxWheatReceive)
  let wheatReceived := min wheatReceived maxWheatReceive
  -- this guy can get X wheat to you. How many sheep does that get him?
  let numSheepSend := (← bigDivide wheatReceived price.n price.d .roundDown).getD INT64_MAX
  let reduced := reduced || decide (numSheepSend > maxSheepSend)
  let numSheepSend := min numSheepSend maxSheepSend
  -- bias towards seller (this cannot overflow at this point)
  let numWheatReceived ← bigDivideOrThrow numSheepSend price.d price.n .roundDown
  pure ⟨numWheatReceived, numSheepSend, reduced⟩

/-- `exchangeV3(wheatReceived, price, maxWheatReceive, maxSheepSend)`. -/
def exchangeV3 (wheatReceived : ℤ) (price : Price) (maxWheatReceive maxSheepSend : ℤ) :
    Except String ExchangeResult := do
  let reduced := decide (wheatReceived > maxWheatReceive)
  let numWheatReceived := min wheatReceived maxWheatReceive
  -- this guy can get X wheat to you. How many sheep does that get him?
  -- bias towards seller
  let sheep ← bigDivide numWheatReceived price.n price.d .roundUp
  let reduced := reduced || sheep.isNone
  let numSheepSend := sheep.getD INT64_MAX
  let reduced := reduced || decide (numSheepSend > maxSheepSend)
  let numSheepSend := min numSheepSend maxSheepSend
  let newWheatReceived := (← bigDivide numSheepSend price.d price.n .roundDown).getD INT64_MAX
  let numWheatReceived := min numWheatReceived newWheatReceived
  pure ⟨numWheatReceived, numSheepSend, reduced⟩

/-- What the exchanges before protocol 10 promise: both amounts within their limits, and the
sheep paid worth at least the wheat received at the offer's price. -/
structure WithinLimits (wheatReceived maxWheatReceive maxSheepSend : ℤ) (price : Price)
    (r : ExchangeResult) : Prop where
  wheat_nonneg : 0 ≤ r.numWheatReceived
  wheat_le : r.numWheatReceived ≤ min wheatReceived maxWheatReceive
  sheep_nonneg : 0 ≤ r.numSheepSend
  sheep_le : r.numSheepSend ≤ maxSheepSend
  sellerFavored : r.numWheatReceived * price.n ≤ r.numSheepSend * price.d

/-! ## `bigDivide` on amounts -/

section Amounts

variable {A B C : ℤ}

theorem isAmount_min {x y : ℤ} (hx : IsAmount x) (hy : IsAmount y) : IsAmount (min x y) :=
  ⟨le_min hx.1 hy.1, le_trans (min_le_left _ _) hx.2⟩

/-- A failed quotient read as `INT64_MAX` is the quotient capped at `INT64_MAX`. -/
theorem getD_capped (q : ℤ) :
    (if q ≤ INT64_MAX then some q else none).getD INT64_MAX = min q INT64_MAX := by
  split_ifs with hq
  · rw [Option.getD_some, min_eq_left hq]
  · rw [Option.getD_none, min_eq_right (by omega)]

theorem isAmount_capped {q : ℤ} (hq : 0 ≤ q) : IsAmount (min q INT64_MAX) :=
  ⟨le_min hq (by simp [INT64_MAX]), min_le_right _ _⟩

/-- `bigDivide` of amounts, rounded down, over the integers. -/
theorem bigDivide_roundDown (hA : IsAmount A) (hB : IsAmount B) (hC : 0 < C)
    (hC' : C ≤ INT64_MAX) :
    bigDivide A B C .roundDown =
      .ok (if A * B / C ≤ INT64_MAX then some (A * B / C) else none) := by
  have hq : ((roundedDiv (A.toNat * B.toNat) C.toNat .roundDown : ℕ) : ℤ) = A * B / C := by
    rw [roundedDiv, Int.natCast_div, Nat.cast_mul, Int.toNat_of_nonneg hA.1,
      Int.toNat_of_nonneg hB.1, Int.toNat_of_nonneg hC.le]
  rw [bigDivide_eq hA.1 hA.2 hB.1 hB.2 hC hC', hq]

/-- `bigDivide` of amounts, rounded up, over the integers. -/
theorem bigDivide_roundUp (hA : IsAmount A) (hB : IsAmount B) (hC : 0 < C)
    (hC' : C ≤ INT64_MAX) :
    bigDivide A B C .roundUp =
      .ok (if (A * B + C - 1) / C ≤ INT64_MAX then some ((A * B + C - 1) / C) else none) := by
  have hq : ((roundedDiv (A.toNat * B.toNat) C.toNat .roundUp : ℕ) : ℤ) = (A * B + C - 1) / C := by
    rw [roundedDiv, Nat.ceilDiv_eq_add_pred_div, Int.natCast_div, Nat.cast_sub (by omega),
      Nat.cast_add, Nat.cast_mul, Int.toNat_of_nonneg hA.1, Int.toNat_of_nonneg hB.1,
      Int.toNat_of_nonneg hC.le, Nat.cast_one]
  rw [bigDivide_eq hA.1 hA.2 hB.1 hB.2 hC hC', hq]

/-- The throwing `bigDivide` of amounts, rounded down, when the quotient fits. -/
theorem bigDivideOrThrow_roundDown (hA : IsAmount A) (hB : IsAmount B) (hC : 0 < C)
    (hC' : C ≤ INT64_MAX) (hfit : A * B / C ≤ INT64_MAX) :
    bigDivideOrThrow A B C .roundDown = .ok (A * B / C) := by
  rw [bigDivideOrThrow, bigDivide_roundDown hA hB hC hC', if_pos hfit]
  rfl

/-- The throwing `bigDivide` of amounts, rounded up, when the quotient fits. -/
theorem bigDivideOrThrow_roundUp (hA : IsAmount A) (hB : IsAmount B) (hC : 0 < C)
    (hC' : C ≤ INT64_MAX) (hfit : (A * B + C - 1) / C ≤ INT64_MAX) :
    bigDivideOrThrow A B C .roundUp = .ok ((A * B + C - 1) / C) := by
  rw [bigDivideOrThrow, bigDivide_roundUp hA hB hC hC', if_pos hfit]
  rfl

end Amounts

theorem INT32_MAX_le_INT64_MAX {x : ℤ} (h : x ≤ INT32_MAX) : x ≤ INT64_MAX := by
  simp only [INT32_MAX, INT64_MAX] at h ⊢
  omega

theorem Price.Valid.isAmount_n {price : Price} (hp : price.Valid) : IsAmount price.n :=
  ⟨by have := hp.1; omega, INT32_MAX_le_INT64_MAX hp.2.1⟩

theorem Price.Valid.isAmount_d {price : Price} (hp : price.Valid) : IsAmount price.d :=
  ⟨by have := hp.2.2.1; omega, INT32_MAX_le_INT64_MAX hp.2.2.2⟩

/-! ## `exchangeV2` and `exchangeV3` stay within their limits -/

section Exchange

variable {wheatReceived maxWheatReceive maxSheepSend : ℤ} {price : Price}

/-- `exchangeV2`, for a valid price and amounts: its throwing `bigDivide` does not throw, and
the seller of wheat is favored. -/
theorem exchangeV2_withinLimits (hp : price.Valid) (hw : IsAmount wheatReceived)
    (hmw : IsAmount maxWheatReceive) (hms : IsAmount maxSheepSend) :
    ∃ r, exchangeV2 wheatReceived price maxWheatReceive maxSheepSend = .ok r ∧
      WithinLimits wheatReceived maxWheatReceive maxSheepSend price r := by
  have hn := hp.isAmount_n
  have hd := hp.isAmount_d
  have hn0 : 0 < price.n := by have := hp.1; omega
  have hd0 : 0 < price.d := by have := hp.2.2.1; omega
  set W := min wheatReceived maxWheatReceive with hWdef
  have hW : IsAmount W := isAmount_min hw hmw
  -- the sheep, priced down and capped twice, are worth at most the wheat
  set S := min (min (W * price.n / price.d) INT64_MAX) maxSheepSend with hSdef
  have hS : IsAmount S :=
    isAmount_min (isAmount_capped (Int.ediv_nonneg (Int.mul_nonneg hW.1 hn.1) hd.1)) hms
  have hSd : S * price.d ≤ W * price.n :=
    calc S * price.d ≤ W * price.n / price.d * price.d :=
          Int.mul_le_mul_of_nonneg_right (le_trans (min_le_left _ _) (min_le_left _ _)) hd.1
      _ ≤ W * price.n := IntDiv.floor_mul_le hd0
  -- so the wheat they buy back is at most `W`, and the second `bigDivide` fits
  have hback : S * price.d / price.n ≤ W := IntDiv.floor_le_of_le_mul hn0 hSd
  refine ⟨⟨S * price.d / price.n, S, decide (wheatReceived > maxWheatReceive) ||
    decide (min (W * price.n / price.d) INT64_MAX > maxSheepSend)⟩, ?_, ?_⟩
  · simp only [exchangeV2, ← hWdef, bigDivide_roundDown hW hn hd0 hd.2, bind, Except.bind,
      getD_capped, ← hSdef, bigDivideOrThrow_roundDown hS hd hn0 hn.2 (le_trans hback hW.2)]
    rfl
  · exact ⟨Int.ediv_nonneg (Int.mul_nonneg hS.1 hd.1) hn.1, hback, hS.1, min_le_right _ _,
      IntDiv.floor_mul_le hn0⟩

example : exchangeV2 10 ⟨3, 2⟩ 7 5 = .ok ⟨3, 5, true⟩ := by decide

/-- `exchangeV3`, for a valid price and amounts: the wheat bought back from the capped sheep,
rounded down, never exceeds what the sheep are worth. -/
theorem exchangeV3_withinLimits (hp : price.Valid) (hw : IsAmount wheatReceived)
    (hmw : IsAmount maxWheatReceive) (hms : IsAmount maxSheepSend) :
    ∃ r, exchangeV3 wheatReceived price maxWheatReceive maxSheepSend = .ok r ∧
      WithinLimits wheatReceived maxWheatReceive maxSheepSend price r := by
  have hn := hp.isAmount_n
  have hd := hp.isAmount_d
  have hn0 : 0 < price.n := by have := hp.1; omega
  have hd0 : 0 < price.d := by have := hp.2.2.1; omega
  set W := min wheatReceived maxWheatReceive with hWdef
  have hW : IsAmount W := isAmount_min hw hmw
  -- the sheep, priced up and capped twice
  set C1 := (W * price.n + price.d - 1) / price.d with hC1
  set S := min (min C1 INT64_MAX) maxSheepSend with hSdef
  have hS : IsAmount S :=
    isAmount_min (isAmount_capped (IntDiv.ceil_nonneg (Int.mul_nonneg hW.1 hn.1) hd0)) hms
  -- the wheat they buy back, rounded down and capped
  set N := min (S * price.d / price.n) INT64_MAX with hNdef
  have hN0 : 0 ≤ N := (isAmount_capped (Int.ediv_nonneg (Int.mul_nonneg hS.1 hd.1) hn.1)).1
  refine ⟨⟨min W N, S, decide (wheatReceived > maxWheatReceive) ||
    (if C1 ≤ INT64_MAX then some C1 else none).isNone || decide (min C1 INT64_MAX > maxSheepSend)⟩,
    ?_, ?_⟩
  · simp only [exchangeV3, ← hWdef, bigDivide_roundUp hW hn hd0 hd.2, ← hC1, bind, Except.bind,
      getD_capped, ← hSdef, bigDivide_roundDown hS hd hn0 hn.2, ← hNdef]
    rfl
  · -- the wheat is at most the quotient, which the sheep pay for
    have hwheat : min W N * price.n ≤ S * price.d :=
      calc min W N * price.n ≤ S * price.d / price.n * price.n :=
            Int.mul_le_mul_of_nonneg_right (le_trans (min_le_right _ _) (min_le_left _ _)) hn.1
        _ ≤ S * price.d := IntDiv.floor_mul_le hn0
    exact ⟨le_min hW.1 hN0, min_le_left _ _, hS.1, min_le_right _ _, hwheat⟩

/-- Both exchanges before protocol 10 never throw and stay within their limits, the seller of
wheat favored. -/
theorem exchangeV2_exchangeV3_withinLimits (hp : price.Valid) (hw : IsAmount wheatReceived)
    (hmw : IsAmount maxWheatReceive) (hms : IsAmount maxSheepSend) :
    (∃ r, exchangeV2 wheatReceived price maxWheatReceive maxSheepSend = .ok r ∧
      WithinLimits wheatReceived maxWheatReceive maxSheepSend price r) ∧
    (∃ r, exchangeV3 wheatReceived price maxWheatReceive maxSheepSend = .ok r ∧
      WithinLimits wheatReceived maxWheatReceive maxSheepSend price r) :=
  ⟨exchangeV2_withinLimits hp hw hmw hms, exchangeV3_withinLimits hp hw hmw hms⟩

theorem exchangeV2_exchangeV3_withinLimits_three_halves :
    Price.Valid ⟨3, 2⟩ ∧ IsAmount 10 ∧ IsAmount 7 ∧ IsAmount 5 ∧
      (∃ r, exchangeV2 10 ⟨3, 2⟩ 7 5 = .ok r ∧ WithinLimits 10 7 5 ⟨3, 2⟩ r) ∧
      (∃ r, exchangeV3 10 ⟨3, 2⟩ 7 5 = .ok r ∧ WithinLimits 10 7 5 ⟨3, 2⟩ r) :=
  ⟨by decide, by decide, by decide, by decide,
    exchangeV2_exchangeV3_withinLimits (by decide) (by decide) (by decide) (by decide)⟩

end Exchange

end Dexfin.Stellar
