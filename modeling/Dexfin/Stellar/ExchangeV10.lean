import Dexfin.Lib.StateExcept
import Dexfin.Stellar.OfferExchange
import Mathlib.Tactic.Linarith

/-!
# `exchangeV10` and `adjustOffer` of `transactions/OfferExchange.cpp`

From protocol 10 two crossing offers are compared by their values in sheep, scaled by
`price.d`: the wheat offer is worth `min(maxWheatSend * n, maxSheepReceive * d)` and the sheep
offer `min(maxSheepSend * d, maxWheatReceive * n)`. The smaller offer is taken whole, and the
rounding of the two divisions that price it favors the offer that stays. A trade whose
effective price is more than 1% off the offer's is then cancelled, except in a path payment,
where it throws unless the wheat seller is favored.

The pre-threshold amounts are stated in closed form (`wheatStaysAmounts`, `sheepStaysAmounts`),
four cases by which offer stays and which asset is worth more, and bounded once
(`wheatStaysAmounts_bounds`, `sheepStaysAmounts_bounds`). From them: `exchangeV10` never throws
and favors the offer that stays (`exchangeV10_bounds`), its non-cancelled trades pass the price
check (`exchangeV10_priceError`), and `adjustOffer` is idempotent (`adjustOffer_idempotent`).
-/

namespace Dexfin.Stellar

/-- `ExchangeResultV10`. -/
structure ExchangeResultV10 where
  numWheatReceived : ℤ
  numSheepSend : ℤ
  wheatStays : Bool
  deriving DecidableEq, Repr

/-- `checkPriceErrorBound(price, wheatReceive, sheepSend, canFavorWheat)`. -/
def checkPriceErrorBound (price : Price) (wheatReceive sheepSend : ℤ) (canFavorWheat : Bool) :
    Except String Bool := do
  -- These never overflow since price.n and price.d are int32_t
  let errN : ℤ := 100 * price.n
  let errD : ℤ := 100 * price.d
  let lhs ← bigMultiply errN wheatReceive
  let rhs ← bigMultiply errD sheepSend
  if canFavorWheat && decide (rhs > lhs) then
    return true
  let absDiff := if lhs > rhs then lhs - rhs else rhs - lhs
  let cap ← bigMultiply price.n wheatReceive
  return decide (absDiff ≤ cap)

/-- `calculateOfferValue(priceN, priceD, maxSend, maxReceive)`. -/
def calculateOfferValue (priceN priceD maxSend maxReceive : ℤ) : Except String Uint128 := do
  let sendValue ← bigMultiply maxSend priceN
  let receiveValue ← bigMultiply maxReceive priceD
  -- `std::min({sendValue, receiveValue})`
  return if receiveValue < sendValue then receiveValue else sendValue

/-- `exchangeV10WithoutPriceErrorThresholds(price, maxWheatSend, maxWheatReceive, maxSheepSend,
maxSheepReceive, isPathPayment)`. -/
def exchangeV10WithoutPriceErrorThresholds (price : Price)
    (maxWheatSend maxWheatReceive maxSheepSend maxSheepReceive : ℤ) (isPathPayment : Bool) :
    Except String ExchangeResultV10 := do
  let wheatValue ← calculateOfferValue price.n price.d maxWheatSend maxSheepReceive
  let sheepValue ← calculateOfferValue price.d price.n maxSheepSend maxWheatReceive
  let wheatStays := decide (wheatValue > sheepValue)
  -- `(wheatReceive, sheepSend)`
  let amounts ← if wheatStays then
      if price.n > price.d || isPathPayment then do
        -- Wheat is more valuable
        let wheatReceive ← bigDivide128OrThrow sheepValue price.n .roundDown
        let sheepSend ← bigDivideOrThrow wheatReceive price.n price.d .roundUp
        pure (wheatReceive, sheepSend)
      else do
        -- Sheep is more valuable
        let sheepSend ← bigDivide128OrThrow sheepValue price.d .roundDown
        let wheatReceive ← bigDivideOrThrow sheepSend price.d price.n .roundDown
        pure (wheatReceive, sheepSend)
    else
      if price.n > price.d then do
        -- Wheat is more valuable
        let wheatReceive ← bigDivide128OrThrow wheatValue price.n .roundDown
        let sheepSend ← bigDivideOrThrow wheatReceive price.n price.d .roundDown
        pure (wheatReceive, sheepSend)
      else do
        -- Sheep is more valuable
        let sheepSend ← bigDivide128OrThrow wheatValue price.d .roundDown
        let wheatReceive ← bigDivideOrThrow sheepSend price.d price.n .roundUp
        pure (wheatReceive, sheepSend)
  let wheatReceive := amounts.1
  let sheepSend := amounts.2
  -- Neither of these should ever throw.
  if wheatReceive < 0 ∨ wheatReceive > min maxWheatReceive maxWheatSend then
    throw "wheatReceive out of bounds"
  if sheepSend < 0 ∨ sheepSend > min maxSheepReceive maxSheepSend then
    throw "sheepSend out of bounds"
  return ⟨wheatReceive, sheepSend, wheatStays⟩

/-- `applyPriceErrorThresholds(price, wheatReceive, sheepSend, wheatStays, isPathPayment)`. -/
def applyPriceErrorThresholds (price : Price) (wheatReceive sheepSend : ℤ)
    (wheatStays isPathPayment : Bool) : Except String ExchangeResultV10 := do
  if wheatReceive > 0 ∧ sheepSend > 0 then
    let wheatReceiveValue ← bigMultiply wheatReceive price.n
    let sheepSendValue ← bigMultiply sheepSend price.d
    if wheatStays ∧ sheepSendValue < wheatReceiveValue then
      throw "favored sheep when wheat stays"
    if !wheatStays ∧ sheepSendValue > wheatReceiveValue then
      throw "favored wheat when sheep stays"
    if !isPathPayment then
      -- Both sellers must get a price no more than 1% worse than the price crossed.
      if !(← checkPriceErrorBound price wheatReceive sheepSend false) then
        return ⟨0, 0, wheatStays⟩
      return ⟨wheatReceive, sheepSend, wheatStays⟩
    else
      if !(← checkPriceErrorBound price wheatReceive sheepSend true) then
        throw "exceeded price error bound"
      return ⟨wheatReceive, sheepSend, wheatStays⟩
  else
    return ⟨0, 0, wheatStays⟩

/-- `exchangeV10(price, maxWheatSend, maxWheatReceive, maxSheepSend, maxSheepReceive,
isPathPayment)`. -/
def exchangeV10 (price : Price) (maxWheatSend maxWheatReceive maxSheepSend maxSheepReceive : ℤ)
    (isPathPayment : Bool) : Except String ExchangeResultV10 := do
  let beforeThresholds ← exchangeV10WithoutPriceErrorThresholds price maxWheatSend
    maxWheatReceive maxSheepSend maxSheepReceive isPathPayment
  applyPriceErrorThresholds price beforeThresholds.numWheatReceived beforeThresholds.numSheepSend
    beforeThresholds.wheatStays isPathPayment

/-- `adjustOffer(price, maxWheatSend, maxSheepReceive)`. -/
def adjustOffer (price : Price) (maxWheatSend maxSheepReceive : ℤ) : Except String ℤ := do
  let res ← exchangeV10 price maxWheatSend INT64_MAX INT64_MAX maxSheepReceive false
  return res.numWheatReceived

/-! ## `checkPriceErrorBound` -/

/-- The price error bound over the integers: the effective price `sheepSend / wheatReceive`
within 1% of `n / d`, cross-multiplied, or any error in favor of the wheat seller when that is
allowed. -/
def PriceErrorWithin (price : Price) (wheatReceive sheepSend : ℤ) (canFavorWheat : Bool) : Prop :=
  (canFavorWheat = true ∧ 100 * price.n * wheatReceive < 100 * price.d * sheepSend) ∨
    |100 * price.n * wheatReceive - 100 * price.d * sheepSend| ≤ price.n * wheatReceive

instance (price : Price) (wheatReceive sheepSend : ℤ) (canFavorWheat : Bool) :
    Decidable (PriceErrorWithin price wheatReceive sheepSend canFavorWheat) := by
  unfold PriceErrorWithin
  exact inferInstance

/-- The one-sided bound is weaker. -/
theorem PriceErrorWithin.favorWheat {price : Price} {wheatReceive sheepSend : ℤ}
    (h : PriceErrorWithin price wheatReceive sheepSend false) :
    PriceErrorWithin price wheatReceive sheepSend true := by
  rcases h with ⟨h, -⟩ | h
  · exact absurd h Bool.false_ne_true
  · exact .inr h

/-- `bigMultiply` of amounts, as an integer. -/
theorem bigMultiply_amount {a b : ℤ} (ha : IsAmount a) (hb : IsAmount b) :
    ∃ v, bigMultiply a b = .ok v ∧ (v.toNat : ℤ) = a * b := by
  refine ⟨_, bigMultiply_eq ha.1 ha.2 hb.1 hb.2, ?_⟩
  rw [BitVec.toNat_ofNat, Nat.mod_eq_of_lt (mul_lt_two_pow_128
      (by have := ha.2; simp only [INT64_MAX] at this; omega)
      (by have := hb.2; simp only [INT64_MAX] at this; omega)),
    Nat.cast_mul, Int.toNat_of_nonneg ha.1, Int.toNat_of_nonneg hb.1]

/-- The distance of two 128-bit words, as `checkPriceErrorBound` takes it. -/
theorem toNat_absDiff (x y : Uint128) :
    ((if x > y then x - y else y - x).toNat : ℤ) = |(x.toNat : ℤ) - y.toNat| := by
  split_ifs with h
  · rw [gt_iff_lt, BitVec.lt_def] at h
    rw [BitVec.toNat_sub_of_le (BitVec.le_def.2 h.le), Nat.cast_sub h.le, abs_of_nonneg (by omega)]
  · rw [gt_iff_lt, BitVec.lt_def] at h
    rw [BitVec.toNat_sub_of_le (BitVec.le_def.2 (by omega)), Nat.cast_sub (by omega),
      abs_of_nonpos (by omega)]
    ring

/-- A price part scaled by 100 is still an amount. -/
theorem isAmount_hundred_mul {x : ℤ} (h0 : 0 ≤ x) (h1 : x ≤ INT32_MAX) : IsAmount (100 * x) := by
  simp only [IsAmount, INT32_MAX, INT64_MAX] at h1 ⊢
  omega

/-- `checkPriceErrorBound` decides `PriceErrorWithin` for non-negative `int32_t` price parts
and amounts: its 128-bit products never wrap. -/
theorem checkPriceErrorBound_eq {price : Price} (hn : 0 ≤ price.n) (hn' : price.n ≤ INT32_MAX)
    (hd : 0 ≤ price.d) (hd' : price.d ≤ INT32_MAX) {wheatReceive sheepSend : ℤ}
    (hw : IsAmount wheatReceive) (hs : IsAmount sheepSend) (canFavorWheat : Bool) :
    checkPriceErrorBound price wheatReceive sheepSend canFavorWheat =
      .ok (decide (PriceErrorWithin price wheatReceive sheepSend canFavorWheat)) := by
  obtain ⟨lhs, hl, hlv⟩ := bigMultiply_amount (isAmount_hundred_mul hn hn') hw
  obtain ⟨rhs, hr, hrv⟩ := bigMultiply_amount (isAmount_hundred_mul hd hd') hs
  obtain ⟨cap, hc, hcv⟩ := bigMultiply_amount ⟨hn, INT32_MAX_le_INT64_MAX hn'⟩ hw
  have hlt : rhs > lhs ↔ 100 * price.n * wheatReceive < 100 * price.d * sheepSend := by
    rw [gt_iff_lt, BitVec.lt_def, ← hlv, ← hrv]
    exact Int.ofNat_lt.symm
  have hle : ∀ x : Uint128, (x ≤ cap ↔ (x.toNat : ℤ) ≤ price.n * wheatReceive) := fun x => by
    rw [BitVec.le_def, ← hcv]
    exact Int.ofNat_le.symm
  simp only [checkPriceErrorBound, hl, hr, hc, bind, Except.bind, pure, Except.pure]
  by_cases hfav : canFavorWheat = true ∧ rhs > lhs
  · rw [if_pos (by simpa using hfav)]
    exact congrArg Except.ok (decide_eq_true (Or.inl ⟨hfav.1, hlt.1 hfav.2⟩)).symm
  · rw [if_neg (by simpa using hfav)]
    congr 1
    apply decide_eq_decide.2
    rw [hle, toNat_absDiff, hlv, hrv, PriceErrorWithin]
    constructor
    · exact .inr
    · rintro (h | h)
      · exact absurd ⟨h.1, hlt.2 h.2⟩ hfav
      · exact h

/-! ## The amounts before the thresholds -/

/-- The wheat offer's value in sheep, scaled by `price.d`: `wheatValue`. -/
def wheatValueOf (price : Price) (maxWheatSend maxSheepReceive : ℤ) : ℤ :=
  min (maxWheatSend * price.n) (maxSheepReceive * price.d)

/-- The sheep offer's value in sheep, scaled by `price.d`: `sheepValue`. -/
def sheepValueOf (price : Price) (maxSheepSend maxWheatReceive : ℤ) : ℤ :=
  min (maxSheepSend * price.d) (maxWheatReceive * price.n)

/-- The amounts when the wheat offer stays and the sheep offer, worth `sheepValue`, is taken. -/
def wheatStaysAmounts (price : Price) (sheepValue : ℤ) (isPathPayment : Bool) : ℤ × ℤ :=
  if price.n > price.d ∨ isPathPayment = true then
    (sheepValue / price.n, (sheepValue / price.n * price.n + price.d - 1) / price.d)
  else
    (sheepValue / price.d * price.d / price.n, sheepValue / price.d)

/-- The amounts when the sheep offer stays and the wheat offer, worth `wheatValue`, is taken. -/
def sheepStaysAmounts (price : Price) (wheatValue : ℤ) : ℤ × ℤ :=
  if price.n > price.d then
    (wheatValue / price.n, wheatValue / price.n * price.n / price.d)
  else
    ((wheatValue / price.d * price.d + price.n - 1) / price.n, wheatValue / price.d)

/-- What `exchangeV10WithoutPriceErrorThresholds` computes: the smaller offer, by value, is
taken, priced as the offer that stays favors. -/
def crossed (price : Price) (maxWheatSend maxWheatReceive maxSheepSend maxSheepReceive : ℤ)
    (isPathPayment : Bool) : ExchangeResultV10 :=
  if sheepValueOf price maxSheepSend maxWheatReceive <
      wheatValueOf price maxWheatSend maxSheepReceive then
    ⟨(wheatStaysAmounts price (sheepValueOf price maxSheepSend maxWheatReceive) isPathPayment).1,
      (wheatStaysAmounts price (sheepValueOf price maxSheepSend maxWheatReceive) isPathPayment).2,
      true⟩
  else
    ⟨(sheepStaysAmounts price (wheatValueOf price maxWheatSend maxSheepReceive)).1,
      (sheepStaysAmounts price (wheatValueOf price maxWheatSend maxSheepReceive)).2, false⟩

/-- What `applyPriceErrorThresholds` does outside a path payment: a trade in which both sides
get something is kept when it passes the 1% bound, and cancelled otherwise. -/
def thresholded (price : Price) (r : ExchangeResultV10) : ExchangeResultV10 :=
  if 0 < r.numWheatReceived ∧ 0 < r.numSheepSend ∧
      PriceErrorWithin price r.numWheatReceived r.numSheepSend false then r
  else ⟨0, 0, r.wheatStays⟩

/-- What `adjustOffer` leaves of an offer worth `wheatValue`: the wheat a buyer with no limits
takes from it, or nothing when that trade is cancelled. -/
def adjustedAmount (price : Price) (wheatValue : ℤ) : ℤ :=
  (thresholded price ⟨(sheepStaysAmounts price wheatValue).1,
    (sheepStaysAmounts price wheatValue).2, false⟩).numWheatReceived

/-- The value of the offer taken, within all four limits. -/
structure ValueWithin (price : Price) (maxWheatSend maxWheatReceive maxSheepSend maxSheepReceive : ℤ)
    (value : ℤ) : Prop where
  nonneg : 0 ≤ value
  le_wheatSend : value ≤ maxWheatSend * price.n
  le_sheepReceive : value ≤ maxSheepReceive * price.d
  le_sheepSend : value ≤ maxSheepSend * price.d
  le_wheatReceive : value ≤ maxWheatReceive * price.n

/-- What `exchangeV10` promises: both amounts within both sides' limits, and the rounding in
favor of the offer that stays. -/
structure WithinV10Limits (price : Price)
    (maxWheatSend maxWheatReceive maxSheepSend maxSheepReceive : ℤ) (r : ExchangeResultV10) :
    Prop where
  wheat_nonneg : 0 ≤ r.numWheatReceived
  wheat_le : r.numWheatReceived ≤ min maxWheatReceive maxWheatSend
  sheep_nonneg : 0 ≤ r.numSheepSend
  sheep_le : r.numSheepSend ≤ min maxSheepReceive maxSheepSend
  wheatFavored : r.wheatStays = true → r.numWheatReceived * price.n ≤ r.numSheepSend * price.d
  sheepFavored : r.wheatStays = false → r.numSheepSend * price.d ≤ r.numWheatReceived * price.n

section Amounts

variable {price : Price} {maxWheatSend maxWheatReceive maxSheepSend maxSheepReceive : ℤ}

/-- Nothing traded is within every limit, and favors no one. -/
theorem withinV10Limits_zero (hws : IsAmount maxWheatSend) (hwr : IsAmount maxWheatReceive)
    (hss : IsAmount maxSheepSend) (hsr : IsAmount maxSheepReceive) (wheatStays : Bool) :
    WithinV10Limits price maxWheatSend maxWheatReceive maxSheepSend maxSheepReceive
      ⟨0, 0, wheatStays⟩ :=
  ⟨le_rfl, le_min hwr.1 hws.1, le_rfl, le_min hsr.1 hss.1, fun _ => by simp, fun _ => by simp⟩

/-- When the wheat offer stays, the sheep offer's value prices both amounts within the limits,
and the seller of wheat is favored: the first division rounds down, the second up, or both down
with the wheat priced from the sheep. -/
theorem wheatStaysAmounts_bounds (hp : price.Valid)
    {sheepValue : ℤ} (hv : ValueWithin price maxWheatSend maxWheatReceive maxSheepSend
      maxSheepReceive sheepValue) (isPathPayment : Bool) :
    WithinV10Limits price maxWheatSend maxWheatReceive maxSheepSend maxSheepReceive
      ⟨(wheatStaysAmounts price sheepValue isPathPayment).1,
        (wheatStaysAmounts price sheepValue isPathPayment).2, true⟩ := by
  have hn0 : 0 < price.n := by have := hp.1; omega
  have hd0 : 0 < price.d := by have := hp.2.2.1; omega
  unfold wheatStaysAmounts
  split_ifs
  · -- the wheat first, rounded down; the sheep for it, rounded up
    have hw : sheepValue / price.n * price.n ≤ sheepValue := IntDiv.floor_mul_le hn0
    have hw0 : 0 ≤ sheepValue / price.n := Int.ediv_nonneg hv.nonneg hn0.le
    exact ⟨hw0, le_min (IntDiv.floor_le_of_le_mul hn0 hv.le_wheatReceive)
        (IntDiv.floor_le_of_le_mul hn0 hv.le_wheatSend),
      IntDiv.ceil_nonneg (Int.mul_nonneg hw0 hn0.le) hd0,
      le_min ((IntDiv.ceil_le_iff hd0).2 (hw.trans hv.le_sheepReceive))
        ((IntDiv.ceil_le_iff hd0).2 (hw.trans hv.le_sheepSend)),
      fun _ => IntDiv.le_ceil_mul hd0, fun h => Bool.noConfusion h⟩
  · -- the sheep first, rounded down; the wheat for them, rounded down
    have hs : sheepValue / price.d * price.d ≤ sheepValue := IntDiv.floor_mul_le hd0
    have hs0 : 0 ≤ sheepValue / price.d := Int.ediv_nonneg hv.nonneg hd0.le
    exact ⟨Int.ediv_nonneg (Int.mul_nonneg hs0 hd0.le) hn0.le,
      le_min (IntDiv.floor_le_of_le_mul hn0 (hs.trans hv.le_wheatReceive))
        (IntDiv.floor_le_of_le_mul hn0 (hs.trans hv.le_wheatSend)),
      hs0, le_min (IntDiv.floor_le_of_le_mul hd0 hv.le_sheepReceive)
        (IntDiv.floor_le_of_le_mul hd0 hv.le_sheepSend),
      fun _ => IntDiv.floor_mul_le hn0, fun h => Bool.noConfusion h⟩

/-- When the sheep offer stays, the wheat offer's value prices both amounts within the limits,
and the seller of sheep is favored. -/
theorem sheepStaysAmounts_bounds (hp : price.Valid)
    {wheatValue : ℤ} (hv : ValueWithin price maxWheatSend maxWheatReceive maxSheepSend
      maxSheepReceive wheatValue) :
    WithinV10Limits price maxWheatSend maxWheatReceive maxSheepSend maxSheepReceive
      ⟨(sheepStaysAmounts price wheatValue).1, (sheepStaysAmounts price wheatValue).2, false⟩ := by
  have hn0 : 0 < price.n := by have := hp.1; omega
  have hd0 : 0 < price.d := by have := hp.2.2.1; omega
  unfold sheepStaysAmounts
  split_ifs
  · -- the wheat first, rounded down; the sheep for it, rounded down
    have hw : wheatValue / price.n * price.n ≤ wheatValue := IntDiv.floor_mul_le hn0
    have hw0 : 0 ≤ wheatValue / price.n := Int.ediv_nonneg hv.nonneg hn0.le
    exact ⟨hw0, le_min (IntDiv.floor_le_of_le_mul hn0 hv.le_wheatReceive)
        (IntDiv.floor_le_of_le_mul hn0 hv.le_wheatSend),
      Int.ediv_nonneg (Int.mul_nonneg hw0 hn0.le) hd0.le,
      le_min (IntDiv.floor_le_of_le_mul hd0 (hw.trans hv.le_sheepReceive))
        (IntDiv.floor_le_of_le_mul hd0 (hw.trans hv.le_sheepSend)),
      fun h => Bool.noConfusion h, fun _ => IntDiv.floor_mul_le hd0⟩
  · -- the sheep first, rounded down; the wheat for them, rounded up
    have hs : wheatValue / price.d * price.d ≤ wheatValue := IntDiv.floor_mul_le hd0
    have hs0 : 0 ≤ wheatValue / price.d := Int.ediv_nonneg hv.nonneg hd0.le
    exact ⟨IntDiv.ceil_nonneg (Int.mul_nonneg hs0 hd0.le) hn0,
      le_min ((IntDiv.ceil_le_iff hn0).2 (hs.trans hv.le_wheatReceive))
        ((IntDiv.ceil_le_iff hn0).2 (hs.trans hv.le_wheatSend)),
      hs0, le_min (IntDiv.floor_le_of_le_mul hd0 hv.le_sheepReceive)
        (IntDiv.floor_le_of_le_mul hd0 hv.le_sheepSend),
      fun h => Bool.noConfusion h, fun _ => IntDiv.le_ceil_mul hn0⟩

/-- `calculateOfferValue` of amounts: the smaller of the two products, exactly. -/
theorem calculateOfferValue_amount {priceN priceD maxSend maxReceive : ℤ} (hN : IsAmount priceN)
    (hD : IsAmount priceD) (hS : IsAmount maxSend) (hR : IsAmount maxReceive) :
    ∃ v, calculateOfferValue priceN priceD maxSend maxReceive = .ok v ∧
      (v.toNat : ℤ) = min (maxSend * priceN) (maxReceive * priceD) := by
  obtain ⟨sv, hs, hsv⟩ := bigMultiply_amount hS hN
  obtain ⟨rv, hr, hrv⟩ := bigMultiply_amount hR hD
  refine ⟨if rv < sv then rv else sv, by simp only [calculateOfferValue, hs, hr, bind,
    Except.bind, pure, Except.pure], ?_⟩
  split_ifs with h
  · rw [BitVec.lt_def] at h
    rw [hrv, min_eq_right (by omega)]
  · rw [BitVec.lt_def] at h
    rw [hsv, min_eq_left (by omega)]

/-- The throwing `bigDivide` of a 128-bit value, rounded down, when the quotient fits. -/
theorem bigDivide128OrThrow_amount {a : Uint128} {X B : ℤ} (hX : (a.toNat : ℤ) = X) (hB : 0 < B)
    (hB' : B ≤ INT64_MAX) (hfit : X / B ≤ INT64_MAX) :
    bigDivide128OrThrow a B .roundDown = .ok (X / B) := by
  have hq : ((roundedDiv a.toNat B.toNat .roundDown : ℕ) : ℤ) = X / B := by
    rw [roundedDiv, Int.natCast_div, hX, Int.toNat_of_nonneg hB.le]
  rw [bigDivide128OrThrow_eq a hB hB', hq, if_pos hfit]

/-- The bounds checks at the end of `exchangeV10WithoutPriceErrorThresholds` pass. -/
theorem WithinV10Limits.checks {r : ExchangeResultV10}
    (h : WithinV10Limits price maxWheatSend maxWheatReceive maxSheepSend maxSheepReceive r) :
    ¬(r.numWheatReceived < 0 ∨ r.numWheatReceived > min maxWheatReceive maxWheatSend) ∧
      ¬(r.numSheepSend < 0 ∨ r.numSheepSend > min maxSheepReceive maxSheepSend) :=
  ⟨not_or.2 ⟨not_lt.2 h.wheat_nonneg, not_lt.2 h.wheat_le⟩,
    not_or.2 ⟨not_lt.2 h.sheep_nonneg, not_lt.2 h.sheep_le⟩⟩

/-- The wheat of a trade within the limits is an amount. -/
theorem WithinV10Limits.isAmount_wheat {r : ExchangeResultV10}
    (h : WithinV10Limits price maxWheatSend maxWheatReceive maxSheepSend maxSheepReceive r)
    (hwr : IsAmount maxWheatReceive) : IsAmount r.numWheatReceived :=
  ⟨h.wheat_nonneg, le_trans h.wheat_le (le_trans (min_le_left _ _) hwr.2)⟩

/-- The sheep of a trade within the limits is an amount. -/
theorem WithinV10Limits.isAmount_sheep {r : ExchangeResultV10}
    (h : WithinV10Limits price maxWheatSend maxWheatReceive maxSheepSend maxSheepReceive r)
    (hss : IsAmount maxSheepSend) : IsAmount r.numSheepSend :=
  ⟨h.sheep_nonneg, le_trans h.sheep_le (le_trans (min_le_right _ _) hss.2)⟩

/-- The sheep offer's value is within all four limits when the wheat offer stays. -/
theorem valueWithin_sheepValue (hp : price.Valid) (hwr : IsAmount maxWheatReceive)
    (hss : IsAmount maxSheepSend)
    (hs : sheepValueOf price maxSheepSend maxWheatReceive <
      wheatValueOf price maxWheatSend maxSheepReceive) :
    ValueWithin price maxWheatSend maxWheatReceive maxSheepSend maxSheepReceive
      (sheepValueOf price maxSheepSend maxWheatReceive) :=
  ⟨le_min (Int.mul_nonneg hss.1 hp.isAmount_d.1) (Int.mul_nonneg hwr.1 hp.isAmount_n.1),
    le_trans hs.le (min_le_left _ _), le_trans hs.le (min_le_right _ _),
    min_le_left _ _, min_le_right _ _⟩

/-- The wheat offer's value is within all four limits when the sheep offer stays. -/
theorem valueWithin_wheatValue (hp : price.Valid) (hws : IsAmount maxWheatSend)
    (hsr : IsAmount maxSheepReceive)
    (hs : ¬sheepValueOf price maxSheepSend maxWheatReceive <
      wheatValueOf price maxWheatSend maxSheepReceive) :
    ValueWithin price maxWheatSend maxWheatReceive maxSheepSend maxSheepReceive
      (wheatValueOf price maxWheatSend maxSheepReceive) :=
  ⟨le_min (Int.mul_nonneg hws.1 hp.isAmount_n.1) (Int.mul_nonneg hsr.1 hp.isAmount_d.1),
    min_le_left _ _, min_le_right _ _,
    le_trans (not_lt.1 hs) (min_le_left _ _), le_trans (not_lt.1 hs) (min_le_right _ _)⟩

/-- The crossed amounts are within the limits and favor the offer that stays. -/
theorem crossed_bounds (hp : price.Valid) (hws : IsAmount maxWheatSend)
    (hwr : IsAmount maxWheatReceive) (hss : IsAmount maxSheepSend)
    (hsr : IsAmount maxSheepReceive) (isPathPayment : Bool) :
    WithinV10Limits price maxWheatSend maxWheatReceive maxSheepSend maxSheepReceive
      (crossed price maxWheatSend maxWheatReceive maxSheepSend maxSheepReceive isPathPayment) := by
  unfold crossed
  split_ifs with hs
  · exact wheatStaysAmounts_bounds hp (valueWithin_sheepValue hp hwr hss hs) isPathPayment
  · exact sheepStaysAmounts_bounds hp (valueWithin_wheatValue hp hws hsr hs)

/-- `exchangeV10WithoutPriceErrorThresholds` in closed form, for a valid price and amounts: no
division overflows and neither bounds check throws. -/
theorem exchangeV10WithoutPriceErrorThresholds_eq (hp : price.Valid)
    (hws : IsAmount maxWheatSend) (hwr : IsAmount maxWheatReceive) (hss : IsAmount maxSheepSend)
    (hsr : IsAmount maxSheepReceive) (isPathPayment : Bool) :
    exchangeV10WithoutPriceErrorThresholds price maxWheatSend maxWheatReceive maxSheepSend
        maxSheepReceive isPathPayment =
      .ok (crossed price maxWheatSend maxWheatReceive maxSheepSend maxSheepReceive
        isPathPayment) := by
  have hn := hp.isAmount_n
  have hd := hp.isAmount_d
  have hn0 : 0 < price.n := by have := hp.1; omega
  have hd0 : 0 < price.d := by have := hp.2.2.1; omega
  obtain ⟨wv, hwv, hwvv⟩ := calculateOfferValue_amount hn hd hws hsr
  obtain ⟨sv, hsv, hsvv⟩ := calculateOfferValue_amount hd hn hss hwr
  rw [← wheatValueOf] at hwvv
  rw [← sheepValueOf] at hsvv
  have hstays : decide (wv > sv) = decide (sheepValueOf price maxSheepSend maxWheatReceive <
      wheatValueOf price maxWheatSend maxSheepReceive) := decide_eq_decide.2 (by
    rw [gt_iff_lt, BitVec.lt_def, ← hwvv, ← hsvv]
    exact Int.ofNat_lt.symm)
  simp only [exchangeV10WithoutPriceErrorThresholds, hwv, hsv, bind, Except.bind, hstays, crossed]
  by_cases hs : sheepValueOf price maxSheepSend maxWheatReceive <
      wheatValueOf price maxWheatSend maxSheepReceive
  · -- the wheat offer stays: the sheep offer's value is below all four limits
    have hv := valueWithin_sheepValue hp hwr hss hs
    have hb := wheatStaysAmounts_bounds hp hv isPathPayment
    obtain ⟨hcw, hcs⟩ := hb.checks
    have hw64 := (hb.isAmount_wheat hwr).2
    have hs64 := (hb.isAmount_sheep hss).2
    have hw0 := hb.wheat_nonneg
    simp only [decide_eq_true hs, if_true]
    unfold wheatStaysAmounts at hcw hcs hw64 hs64 hw0
    by_cases hbr : price.n > price.d ∨ isPathPayment = true
    · -- wheat first
      simp only [if_pos hbr] at hcw hcs hw64 hs64 hw0
      rw [if_pos (by simpa using hbr), bigDivide128OrThrow_amount hsvv hn0 hn.2 hw64]
      dsimp only
      rw [bigDivideOrThrow_roundUp ⟨hw0, hw64⟩ hn hd0 hd.2 hs64]
      simp only [pure, Except.pure, hcw, hcs, if_false, wheatStaysAmounts, if_pos hbr, if_pos hs]
    · -- sheep first
      simp only [if_neg hbr] at hcw hcs hw64 hs64 hw0
      rw [if_neg (by simpa using hbr), bigDivide128OrThrow_amount hsvv hd0 hd.2 hs64]
      dsimp only
      rw [bigDivideOrThrow_roundDown ⟨Int.ediv_nonneg hv.nonneg hd.1, hs64⟩ hd hn0 hn.2 hw64]
      simp only [pure, Except.pure, hcw, hcs, if_false, wheatStaysAmounts, if_neg hbr, if_pos hs]
  · -- the sheep offer stays: the wheat offer's value is below all four limits
    have hv := valueWithin_wheatValue hp hws hsr hs
    have hb := sheepStaysAmounts_bounds hp hv
    obtain ⟨hcw, hcs⟩ := hb.checks
    have hw64 := (hb.isAmount_wheat hwr).2
    have hs64 := (hb.isAmount_sheep hss).2
    have hs0 := hb.sheep_nonneg
    simp only [decide_eq_false hs, Bool.false_eq_true, if_false]
    unfold sheepStaysAmounts at hcw hcs hw64 hs64 hs0
    by_cases hbr : price.n > price.d
    · -- wheat first
      simp only [if_pos hbr] at hcw hcs hw64 hs64 hs0
      rw [if_pos hbr, bigDivide128OrThrow_amount hwvv hn0 hn.2 hw64]
      dsimp only
      rw [bigDivideOrThrow_roundDown ⟨Int.ediv_nonneg hv.nonneg hn.1, hw64⟩ hn hd0 hd.2 hs64]
      simp only [pure, Except.pure, hcw, hcs, if_false, sheepStaysAmounts, if_pos hbr, if_neg hs]
    · -- sheep first
      simp only [if_neg hbr] at hcw hcs hw64 hs64 hs0
      rw [if_neg hbr, bigDivide128OrThrow_amount hwvv hd0 hd.2 hs64]
      dsimp only
      rw [bigDivideOrThrow_roundUp ⟨hs0, hs64⟩ hd hn0 hn.2 hw64]
      simp only [pure, Except.pure, hcw, hcs, if_false, sheepStaysAmounts, if_neg hbr, if_neg hs]

/-- The two "favored" checks of `applyPriceErrorThresholds` pass on amounts that favor the offer
that stays. -/
theorem favoredChecks_pass (hp : price.Valid) {wheatReceive sheepSend : ℤ}
    (hw : IsAmount wheatReceive) (hs : IsAmount sheepSend) {wheatStays : Bool}
    (hwf : wheatStays = true → wheatReceive * price.n ≤ sheepSend * price.d)
    (hsf : wheatStays = false → sheepSend * price.d ≤ wheatReceive * price.n) :
    ∃ a b, bigMultiply wheatReceive price.n = .ok a ∧ bigMultiply sheepSend price.d = .ok b ∧
      ¬(wheatStays = true ∧ b < a) ∧ ¬((!wheatStays) = true ∧ b > a) := by
  obtain ⟨a, ha, hav⟩ := bigMultiply_amount hw hp.isAmount_n
  obtain ⟨b, hb, hbv⟩ := bigMultiply_amount hs hp.isAmount_d
  refine ⟨a, b, ha, hb, ?_, ?_⟩
  · rintro ⟨hws, hlt⟩
    rw [BitVec.lt_def] at hlt
    have := hwf hws
    have : (b.toNat : ℤ) < a.toNat := Int.ofNat_lt.2 hlt
    omega
  · rintro ⟨hws, hlt⟩
    rw [gt_iff_lt, BitVec.lt_def] at hlt
    have := hsf (by simpa using hws)
    have : (a.toNat : ℤ) < b.toNat := Int.ofNat_lt.2 hlt
    omega

/-- `applyPriceErrorThresholds` outside a path payment: a trade in which both sides get
something is kept exactly when it passes the 1% bound, and cancelled otherwise. -/
theorem applyPriceErrorThresholds_eq (hp : price.Valid) {wheatReceive sheepSend : ℤ}
    (hw : IsAmount wheatReceive) (hs : IsAmount sheepSend) {wheatStays : Bool}
    (hwf : wheatStays = true → wheatReceive * price.n ≤ sheepSend * price.d)
    (hsf : wheatStays = false → sheepSend * price.d ≤ wheatReceive * price.n) :
    applyPriceErrorThresholds price wheatReceive sheepSend wheatStays false =
      .ok (thresholded price ⟨wheatReceive, sheepSend, wheatStays⟩) := by
  unfold thresholded
  dsimp only
  by_cases hpos : wheatReceive > 0 ∧ sheepSend > 0
  · obtain ⟨a, b, ha, hb, h1, h2⟩ := favoredChecks_pass hp hw hs hwf hsf
    have hn := hp.isAmount_n
    have hd := hp.isAmount_d
    simp only [applyPriceErrorThresholds, if_pos hpos, ha, hb, bind, Except.bind, h1, h2,
      if_false, Bool.not_false, if_true, checkPriceErrorBound_eq hn.1 hp.2.1 hd.1 hp.2.2.2 hw hs,
      pure, Except.pure]
    by_cases hwithin : PriceErrorWithin price wheatReceive sheepSend false
    · simp [hwithin, hpos.1, hpos.2]
    · simp [hwithin]
  · simp only [applyPriceErrorThresholds, if_neg hpos, pure, Except.pure]
    rw [if_neg (fun h => hpos ⟨h.1, h.2.1⟩)]

/-- `applyPriceErrorThresholds` in a path payment, on a trade that passes the one-sided bound:
kept whenever both sides get something. -/
theorem applyPriceErrorThresholds_pathPayment (hp : price.Valid) {wheatReceive sheepSend : ℤ}
    (hw : IsAmount wheatReceive) (hs : IsAmount sheepSend) {wheatStays : Bool}
    (hwf : wheatStays = true → wheatReceive * price.n ≤ sheepSend * price.d)
    (hsf : wheatStays = false → sheepSend * price.d ≤ wheatReceive * price.n)
    (hwithin : 0 < wheatReceive → 0 < sheepSend →
      PriceErrorWithin price wheatReceive sheepSend true) :
    applyPriceErrorThresholds price wheatReceive sheepSend wheatStays true =
      .ok (if 0 < wheatReceive ∧ 0 < sheepSend then ⟨wheatReceive, sheepSend, wheatStays⟩
        else ⟨0, 0, wheatStays⟩) := by
  by_cases hpos : wheatReceive > 0 ∧ sheepSend > 0
  · obtain ⟨a, b, ha, hb, h1, h2⟩ := favoredChecks_pass hp hw hs hwf hsf
    have hn := hp.isAmount_n
    have hd := hp.isAmount_d
    simp only [applyPriceErrorThresholds, ha, hb, bind, Except.bind, h1, h2, if_false,
      checkPriceErrorBound_eq hn.1 hp.2.1 hd.1 hp.2.2.2 hw hs,
      decide_eq_true (hwithin hpos.1 hpos.2), Bool.not_true, Bool.false_eq_true, pure, Except.pure,
      gt_iff_lt.1 hpos.1, gt_iff_lt.1 hpos.2, and_self, if_true]
  · simp only [applyPriceErrorThresholds, if_neg hpos, pure, Except.pure, gt_iff_lt.symm]

/-- Nothing traded stays within the limits; a kept trade is unchanged. -/
theorem WithinV10Limits.thresholded {r : ExchangeResultV10}
    (h : WithinV10Limits price maxWheatSend maxWheatReceive maxSheepSend maxSheepReceive r)
    (hws : IsAmount maxWheatSend) (hwr : IsAmount maxWheatReceive) (hss : IsAmount maxSheepSend)
    (hsr : IsAmount maxSheepReceive) :
    WithinV10Limits price maxWheatSend maxWheatReceive maxSheepSend maxSheepReceive
      (thresholded price r) := by
  unfold Dexfin.Stellar.thresholded
  split_ifs
  · exact h
  · exact withinV10Limits_zero hws hwr hss hsr r.wheatStays

/-- Outside a path payment `exchangeV10` is the crossed amounts, thresholded. -/
theorem exchangeV10_eq_thresholded (hp : price.Valid) (hws : IsAmount maxWheatSend)
    (hwr : IsAmount maxWheatReceive) (hss : IsAmount maxSheepSend)
    (hsr : IsAmount maxSheepReceive) :
    exchangeV10 price maxWheatSend maxWheatReceive maxSheepSend maxSheepReceive false =
      .ok (thresholded price
        (crossed price maxWheatSend maxWheatReceive maxSheepSend maxSheepReceive false)) := by
  have hb := crossed_bounds hp hws hwr hss hsr false
  rw [exchangeV10, exchangeV10WithoutPriceErrorThresholds_eq hp hws hwr hss hsr]
  exact applyPriceErrorThresholds_eq hp (hb.isAmount_wheat hwr) (hb.isAmount_sheep hss)
    hb.wheatFavored hb.sheepFavored

/-- A trade that favors the wheat seller passes the one-sided bound. -/
theorem priceErrorWithin_of_wheatFavored {wheatReceive sheepSend : ℤ}
    (h : wheatReceive * price.n ≤ sheepSend * price.d) (hcap : 0 ≤ price.n * wheatReceive) :
    PriceErrorWithin price wheatReceive sheepSend true := by
  rcases h.lt_or_eq with hlt | heq
  · exact .inl ⟨rfl, by linarith⟩
  · refine .inr ?_
    rw [show 100 * price.n * wheatReceive - 100 * price.d * sheepSend = 0 by linarith, abs_zero]
    exact hcap

end Amounts

/-- A trade `applyPriceErrorThresholds` keeps outside a path payment passed the price check. -/
theorem applyPriceErrorThresholds_kept {price : Price} {wheatReceive sheepSend : ℤ}
    {wheatStays : Bool} {r : ExchangeResultV10}
    (h : applyPriceErrorThresholds price wheatReceive sheepSend wheatStays false = .ok r)
    (hr : 0 < r.numWheatReceived) :
    r = ⟨wheatReceive, sheepSend, wheatStays⟩ ∧
      checkPriceErrorBound price wheatReceive sheepSend false = .ok true := by
  unfold applyPriceErrorThresholds at h
  by_cases hpos : wheatReceive > 0 ∧ sheepSend > 0
  · rw [if_pos hpos] at h
    simp only [Bool.not_false, if_true, bind, Except.bind, pure, Except.pure, throw,
      throwThe, MonadExceptOf.throw] at h
    -- the products and the two "favored" checks passed, or `h` is an error
    split at h
    · cases h
    split at h
    · cases h
    split_ifs at h
    -- the price check ran and passed, or the trade was cancelled to nothing
    split at h
    · cases h
    · next v hcheck =>
      cases v
      · cases h
        exact absurd hr (lt_irrefl 0)
      · cases h
        exact ⟨rfl, hcheck⟩
  · rw [if_neg hpos] at h
    cases h
    exact absurd hr (lt_irrefl 0)

/-! ## `adjustOffer` -/

section Adjust

variable {price : Price} {maxWheatSend maxSheepReceive : ℤ}

theorem wheatValueOf_zero (hsr : 0 ≤ maxSheepReceive) (hd : 0 ≤ price.d) :
    wheatValueOf price 0 maxSheepReceive = 0 := by
  rw [wheatValueOf, Int.zero_mul, min_eq_left (Int.mul_nonneg hsr hd)]

/-- An offer worth nothing trades nothing. -/
theorem sheepStaysAmounts_zero (hp : price.Valid) : sheepStaysAmounts price 0 = (0, 0) := by
  have hn0 : 0 < price.n := by have := hp.1; omega
  unfold sheepStaysAmounts
  split_ifs
  · simp
  · rw [Int.zero_ediv, Int.zero_mul, Int.zero_add, Int.ediv_eq_zero_of_lt (by omega) (by omega)]

theorem adjustedAmount_zero (hp : price.Valid) : adjustedAmount price 0 = 0 := by
  unfold adjustedAmount thresholded
  rw [sheepStaysAmounts_zero hp]
  simp

/-- A buyer with no limits never lets the wheat offer stay. -/
theorem not_unlimited_lt_wheatValue (hp : price.Valid) (hws : IsAmount maxWheatSend)
    (hsr : IsAmount maxSheepReceive) :
    ¬sheepValueOf price INT64_MAX INT64_MAX < wheatValueOf price maxWheatSend maxSheepReceive := by
  have hn := hp.isAmount_n
  have hd := hp.isAmount_d
  apply not_lt.2
  apply le_min
  · exact le_trans (min_le_right _ _) (Int.mul_le_mul_of_nonneg_right hsr.2 hd.1)
  · exact le_trans (min_le_left _ _) (Int.mul_le_mul_of_nonneg_right hws.2 hn.1)

theorem isAmount_INT64_MAX : IsAmount INT64_MAX := ⟨by simp [INT64_MAX], le_rfl⟩

/-- `adjustOffer` of a valid offer: what a buyer with no limits takes from it. -/
theorem adjustOffer_eq (hp : price.Valid) (hws : IsAmount maxWheatSend)
    (hsr : IsAmount maxSheepReceive) :
    adjustOffer price maxWheatSend maxSheepReceive =
      .ok (adjustedAmount price (wheatValueOf price maxWheatSend maxSheepReceive)) := by
  rw [adjustOffer, exchangeV10_eq_thresholded hp hws isAmount_INT64_MAX isAmount_INT64_MAX hsr,
    crossed, if_neg (not_unlimited_lt_wheatValue hp hws hsr)]
  rfl

/-- The adjusted amount is an amount, at most the offer. -/
theorem adjustedAmount_bounds (hp : price.Valid) (hws : IsAmount maxWheatSend)
    (hsr : IsAmount maxSheepReceive) :
    0 ≤ adjustedAmount price (wheatValueOf price maxWheatSend maxSheepReceive) ∧
      adjustedAmount price (wheatValueOf price maxWheatSend maxSheepReceive) ≤ maxWheatSend := by
  have hb := (sheepStaysAmounts_bounds hp (valueWithin_wheatValue hp hws hsr
    (not_unlimited_lt_wheatValue hp hws hsr))).thresholded hws isAmount_INT64_MAX
    isAmount_INT64_MAX hsr
  exact ⟨hb.wheat_nonneg, le_trans hb.wheat_le (min_le_right _ _)⟩

/-- Priced again from its adjusted wheat, an offer the sheep stay against crosses the same:
the wheat offer's value falls at most to the value of what was taken, and the floor or ceiling
of each division does not move. -/
theorem sheepStaysAmounts_readjust (hp : price.Valid) (hws : 0 ≤ maxWheatSend)
    (hsr : 0 ≤ maxSheepReceive) :
    sheepStaysAmounts price (wheatValueOf price
        (sheepStaysAmounts price (wheatValueOf price maxWheatSend maxSheepReceive)).1
        maxSheepReceive) =
      sheepStaysAmounts price (wheatValueOf price maxWheatSend maxSheepReceive) := by
  have hn0 : 0 < price.n := by have := hp.1; omega
  have hd0 : 0 < price.d := by have := hp.2.2.1; omega
  set v := wheatValueOf price maxWheatSend maxSheepReceive with hv
  have hv0 : 0 ≤ v := le_min (Int.mul_nonneg hws hn0.le) (Int.mul_nonneg hsr hd0.le)
  have hvw : v ≤ maxWheatSend * price.n := min_le_left _ _
  have hvs : v ≤ maxSheepReceive * price.d := min_le_right _ _
  unfold sheepStaysAmounts
  split_ifs with hnd
  · -- wheat first: the wheat taken is worth at most `v`, so it is the whole new value
    have hw : v / price.n * price.n ≤ v := IntDiv.floor_mul_le hn0
    have hnew : wheatValueOf price (v / price.n) maxSheepReceive = v / price.n * price.n :=
      min_eq_left (hw.trans hvs)
    rw [hnew, Int.mul_ediv_cancel _ hn0.ne']
  · -- sheep first: the new value lies between the sheep taken and `v`
    set w := (v / price.d * price.d + price.n - 1) / price.n with hw
    have hlow : v / price.d * price.d ≤ wheatValueOf price w maxSheepReceive :=
      le_min (IntDiv.le_ceil_mul hn0)
        ((IntDiv.floor_mul_le hd0).trans hvs)
    have hwle : w ≤ maxWheatSend :=
      (IntDiv.ceil_le_iff hn0).2 ((IntDiv.floor_mul_le hd0).trans hvw)
    have hhigh : wheatValueOf price w maxSheepReceive ≤ v :=
      min_le_min (Int.mul_le_mul_of_nonneg_right hwle hn0.le) le_rfl
    have hsame : wheatValueOf price w maxSheepReceive / price.d = v / price.d :=
      le_antisymm (Int.ediv_le_ediv hd0 hhigh) ((IntDiv.le_floor_iff hd0).2 hlow)
    rw [hsame]

/-- Adjusting an adjusted offer changes nothing. -/
theorem adjustedAmount_readjust (hp : price.Valid) (hws : 0 ≤ maxWheatSend)
    (hsr : 0 ≤ maxSheepReceive) :
    adjustedAmount price (wheatValueOf price
        (adjustedAmount price (wheatValueOf price maxWheatSend maxSheepReceive)) maxSheepReceive) =
      adjustedAmount price (wheatValueOf price maxWheatSend maxSheepReceive) := by
  by_cases hkeep : 0 < (sheepStaysAmounts price (wheatValueOf price maxWheatSend
      maxSheepReceive)).1 ∧ 0 < (sheepStaysAmounts price (wheatValueOf price maxWheatSend
      maxSheepReceive)).2 ∧ PriceErrorWithin price (sheepStaysAmounts price (wheatValueOf price
      maxWheatSend maxSheepReceive)).1 (sheepStaysAmounts price (wheatValueOf price maxWheatSend
      maxSheepReceive)).2 false
  · -- the trade was kept: the offer is its wheat, which prices the same trade again
    have hinner : adjustedAmount price (wheatValueOf price maxWheatSend maxSheepReceive) =
        (sheepStaysAmounts price (wheatValueOf price maxWheatSend maxSheepReceive)).1 := by
      unfold adjustedAmount thresholded
      rw [if_pos hkeep]
    rw [hinner]
    unfold adjustedAmount
    rw [sheepStaysAmounts_readjust hp hws hsr]
    exact hinner
  · -- the trade was cancelled: the offer is empty, and stays so
    have hinner : adjustedAmount price (wheatValueOf price maxWheatSend maxSheepReceive) = 0 := by
      unfold adjustedAmount thresholded
      rw [if_neg hkeep]
    rw [hinner, wheatValueOf_zero hsr (by have := hp.2.2.1; omega), adjustedAmount_zero hp]

end Adjust


/-! ## What `exchangeV10` and `adjustOffer` guarantee -/

section Guarantees

variable {price : Price} {maxWheatSend maxWheatReceive maxSheepSend maxSheepReceive : ℤ}

/-- In a path payment on an offer `adjustOffer` leaves unchanged, a crossed trade that gives
wheat passes the one-sided bound: when the wheat offer stays its seller is favored, and when
the sheep offer stays it is the trade `adjustOffer` kept. -/
theorem crossed_pathPayment_within (hp : price.Valid) (hws : IsAmount maxWheatSend)
    (hwr : IsAmount maxWheatReceive) (hss : IsAmount maxSheepSend)
    (hsr : IsAmount maxSheepReceive)
    (hadj : adjustOffer price maxWheatSend maxSheepReceive = .ok maxWheatSend)
    (hw0 : 0 < (crossed price maxWheatSend maxWheatReceive maxSheepSend maxSheepReceive
      true).numWheatReceived) :
    PriceErrorWithin price
      (crossed price maxWheatSend maxWheatReceive maxSheepSend maxSheepReceive
        true).numWheatReceived
      (crossed price maxWheatSend maxWheatReceive maxSheepSend maxSheepReceive
        true).numSheepSend true := by
  have hb := crossed_bounds hp hws hwr hss hsr true
  cases hst : (crossed price maxWheatSend maxWheatReceive maxSheepSend maxSheepReceive
      true).wheatStays with
  | true =>
    exact priceErrorWithin_of_wheatFavored (hb.wheatFavored hst)
      (Int.mul_nonneg hp.isAmount_n.1 hb.wheat_nonneg)
  | false =>
    have hs : ¬sheepValueOf price maxSheepSend maxWheatReceive <
        wheatValueOf price maxWheatSend maxSheepReceive := fun hs => by
      rw [crossed, if_pos hs] at hst
      exact Bool.noConfusion hst
    have hadjusted : adjustedAmount price (wheatValueOf price maxWheatSend maxSheepReceive) =
        maxWheatSend := Except.ok.inj ((adjustOffer_eq hp hws hsr).symm.trans hadj)
    rw [crossed, if_neg hs] at hw0 ⊢
    unfold adjustedAmount thresholded at hadjusted
    split_ifs at hadjusted with hkeep
    · exact hkeep.2.2.favorWheat
    · -- a cancelled adjustment left an empty offer, which trades nothing
      rw [← hadjusted, wheatValueOf_zero hsr.1 hp.isAmount_d.1, sheepStaysAmounts_zero hp] at hw0
      exact absurd hw0 (lt_irrefl 0)

/-- `exchangeV10` never throws on a valid price and amounts, in a path payment on an offer that
`adjustOffer` leaves unchanged: no `bigDivide` overflows, no `runtime_error` is thrown, both
amounts are within both sides' limits, and the rounding favors the offer that stays. -/
theorem exchangeV10_bounds (hp : price.Valid) (hws : IsAmount maxWheatSend)
    (hwr : IsAmount maxWheatReceive) (hss : IsAmount maxSheepSend)
    (hsr : IsAmount maxSheepReceive) (isPathPayment : Bool)
    (hadj : isPathPayment = true →
      adjustOffer price maxWheatSend maxSheepReceive = .ok maxWheatSend) :
    ∃ r, exchangeV10 price maxWheatSend maxWheatReceive maxSheepSend maxSheepReceive
        isPathPayment = .ok r ∧
      WithinV10Limits price maxWheatSend maxWheatReceive maxSheepSend maxSheepReceive r := by
  have hb := crossed_bounds hp hws hwr hss hsr isPathPayment
  cases isPathPayment with
  | false =>
    exact ⟨_, exchangeV10_eq_thresholded hp hws hwr hss hsr, hb.thresholded hws hwr hss hsr⟩
  | true =>
    have hthr := applyPriceErrorThresholds_pathPayment hp (hb.isAmount_wheat hwr)
      (hb.isAmount_sheep hss) hb.wheatFavored hb.sheepFavored
      fun hw0 _ => crossed_pathPayment_within hp hws hwr hss hsr (hadj rfl) hw0
    rw [exchangeV10, exchangeV10WithoutPriceErrorThresholds_eq hp hws hwr hss hsr]
    refine ⟨_, hthr, ?_⟩
    -- a trade both sides give to is kept, and one of them empty is cancelled to nothing
    split_ifs
    · exact hb
    · exact withinV10Limits_zero hws hwr hss hsr _

/-- At price 3/2 outside a path payment, and at price 7/3 in a path payment on an offer of 100
that `adjustOffer` keeps as it is. -/
theorem exchangeV10_bounds_three_halves :
    (Price.Valid ⟨3, 2⟩ ∧ IsAmount 10 ∧ IsAmount 20 ∧ IsAmount 30 ∧ IsAmount 40 ∧
      ∃ r, exchangeV10 ⟨3, 2⟩ 10 20 30 40 false = .ok r ∧ WithinV10Limits ⟨3, 2⟩ 10 20 30 40 r) ∧
    (Price.Valid ⟨7, 3⟩ ∧ IsAmount 100 ∧ IsAmount 5 ∧ IsAmount 1000 ∧ IsAmount 1000 ∧
      adjustOffer ⟨7, 3⟩ 100 1000 = .ok 100 ∧
      ∃ r, exchangeV10 ⟨7, 3⟩ 100 5 1000 1000 true = .ok r ∧
        WithinV10Limits ⟨7, 3⟩ 100 5 1000 1000 r) :=
  have hadj : adjustOffer ⟨7, 3⟩ 100 1000 = .ok 100 := by decide
  ⟨⟨by decide, by decide, by decide, by decide, by decide,
    exchangeV10_bounds (by decide) (by decide) (by decide) (by decide) (by decide) false
      (fun h => Bool.noConfusion h)⟩,
   ⟨by decide, by decide, by decide, by decide, by decide, hadj,
    exchangeV10_bounds (by decide) (by decide) (by decide) (by decide) (by decide) true
      (fun _ => hadj)⟩⟩

/-- A trade `exchangeV10` keeps outside a path payment, both sides getting something, passes
`checkPriceErrorBound`; and for non-negative `int32_t` price parts and amounts,
`checkPriceErrorBound` decides the bound over the integers. -/
theorem exchangeV10_priceError :
    (∀ (price : Price) (maxWheatSend maxWheatReceive maxSheepSend maxSheepReceive : ℤ)
        (r : ExchangeResultV10),
      exchangeV10 price maxWheatSend maxWheatReceive maxSheepSend maxSheepReceive false = .ok r →
      0 < r.numWheatReceived → 0 < r.numSheepSend →
      checkPriceErrorBound price r.numWheatReceived r.numSheepSend false = .ok true) ∧
    (∀ (price : Price) (wheatReceive sheepSend : ℤ) (canFavorWheat : Bool),
      0 ≤ price.n → price.n ≤ INT32_MAX → 0 ≤ price.d → price.d ≤ INT32_MAX →
      IsAmount wheatReceive → IsAmount sheepSend →
      checkPriceErrorBound price wheatReceive sheepSend canFavorWheat =
        .ok (decide (PriceErrorWithin price wheatReceive sheepSend canFavorWheat))) := by
  refine ⟨?_, fun price wheatReceive sheepSend canFavorWheat hn hn' hd hd' hw hs =>
    checkPriceErrorBound_eq hn hn' hd hd' hw hs canFavorWheat⟩
  intro price maxWheatSend maxWheatReceive maxSheepSend maxSheepReceive r h hw _
  obtain ⟨before, -, h⟩ := StateExcept.bind_eq_ok.1 h
  obtain ⟨rfl, hcheck⟩ := applyPriceErrorThresholds_kept h hw
  exact hcheck

/-- At price 3/2, `exchangeV10` keeps the trade of 10 wheat for 15 sheep, which passes the check;
and the check decides the bound for 2 wheat and 3 sheep. -/
theorem exchangeV10_priceError_three_halves :
    (exchangeV10 ⟨3, 2⟩ 10 20 30 40 false = .ok ⟨10, 15, false⟩ ∧
      checkPriceErrorBound ⟨3, 2⟩ 10 15 false = .ok true) ∧
    checkPriceErrorBound ⟨3, 2⟩ 2 3 false = .ok true :=
  have hr : exchangeV10 ⟨3, 2⟩ 10 20 30 40 false = .ok ⟨10, 15, false⟩ := by decide
  ⟨⟨hr, exchangeV10_priceError.1 ⟨3, 2⟩ 10 20 30 40 ⟨10, 15, false⟩ hr (by decide) (by decide)⟩,
    (exchangeV10_priceError.2 ⟨3, 2⟩ 2 3 false (by decide) (by decide) (by decide) (by decide)
      (by decide) (by decide)).trans (by decide)⟩

/-- A negative price part fails the `assert` of `bigMultiply`: `checkPriceErrorBound` then
decides nothing. -/
theorem checkPriceErrorBound_negative_price :
    checkPriceErrorBound ⟨-1, 1⟩ 1 1 false ≠
      .ok (decide (PriceErrorWithin ⟨-1, 1⟩ 1 1 false)) := by
  decide

/-- `adjustOffer` never enlarges an offer, and adjusting an adjusted offer changes nothing. -/
theorem adjustOffer_idempotent (hp : price.Valid) (hws : IsAmount maxWheatSend)
    (hsr : IsAmount maxSheepReceive) :
    ∃ a, adjustOffer price maxWheatSend maxSheepReceive = .ok a ∧ 0 ≤ a ∧ a ≤ maxWheatSend ∧
      adjustOffer price a maxSheepReceive = .ok a := by
  obtain ⟨h0, hle⟩ := adjustedAmount_bounds hp hws hsr
  refine ⟨_, adjustOffer_eq hp hws hsr, h0, hle, ?_⟩
  rw [adjustOffer_eq hp ⟨h0, le_trans hle hws.2⟩ hsr, adjustedAmount_readjust hp hws.1 hsr.1]

theorem adjustOffer_idempotent_three_halves :
    Price.Valid ⟨3, 2⟩ ∧ IsAmount 10 ∧ IsAmount 7 ∧
      ∃ a, adjustOffer ⟨3, 2⟩ 10 7 = .ok a ∧ 0 ≤ a ∧ a ≤ 10 ∧ adjustOffer ⟨3, 2⟩ a 7 = .ok a :=
  ⟨by decide, by decide, by decide, adjustOffer_idempotent (by decide) (by decide) (by decide)⟩

end Guarantees

end Dexfin.Stellar
