import Dexfin.Lib.Limbs
import Mathlib.Data.Nat.Digits.Lemmas

/-!
# `arith_uint256`

`base_uint<256>` of `arith_uint256.cpp`: a 256-bit unsigned number held in eight 32-bit limbs
`pn`, the lowest first. Its value is a `BitVec 256`. Shifts, comparisons and subtraction are
those of `BitVec`, which the limb loops of `<<=`, `>>=`, `CompareTo` and `-=` compute; `bits()`,
`operator*=(uint32_t)` and `operator/=` keep their loops: the search from the top limb, the
multiplication with a 64-bit carry, and the division by shifting and subtracting.

`bits()` is the bit length (`bits_eq_size`), `*=` the product modulo `2 ^ 256`
(`toNat_mulUint32`) and `/=` the quotient (`divAssign_eq`).

The compact form of a target is stated in bytes: `compactExponent` is the byte length, one more
when the top byte would read as the sign, and `compactMantissa` the three bytes below it.
`GetCompact` encodes so (`getCompact_eq`), and `SetCompact` decodes to the number cut below
byte `e - 3` (`setCompact_compactOf`), which encodes to the same form again.
-/

namespace Dexfin.Bitcoin

/-- `arith_uint256`. -/
abbrev ArithUint256 := BitVec 256

namespace ArithUint256

/-- `WIDTH = BITS / 32`. -/
def WIDTH : ℕ := 8

/-- `pn[i]`. -/
def pn (x : ArithUint256) (i : ℕ) : ℕ := Limbs.limb 32 x.toNat i

/-- `bits()`: the first limb from the top that is not zero, and in it the highest set bit among
31 down to 1, or else bit 0. -/
def bits (x : ArithUint256) : ℕ :=
  match Limbs.findFromTop (fun pos => pn x pos != 0) WIDTH with
  | none => 0
  | some pos =>
    -- `for (nbits = 31; nbits > 0; nbits--)`, searched as `nbits - 1` from 30 down to 0
    match Limbs.findFromTop (fun i => pn x pos &&& 1 <<< (i + 1) != 0) 31 with
    | some i => 32 * pos + (i + 1) + 1
    | none => 32 * pos + 1

/-- `GetLow64()`: `pn[0] | (uint64_t)pn[1] << 32`. -/
def getLow64 (x : ArithUint256) : UInt64 := (pn x 0 ||| pn x 1 <<< 32).toUInt64

/-- `operator*=(uint32_t b32)`: `n = carry + (uint64_t)b32 * pn[i]` from the lowest limb up,
the carry out of the top limb dropped. -/
def mulUint32 (x : ArithUint256) (b32 : UInt32) : ArithUint256 :=
  BitVec.ofNat 256
    (Nat.ofDigits (2 ^ 32) (Limbs.mulWord 32 b32.toNat 0 ((List.range WIDTH).map (pn x))).1)

/-- `uint_error`. -/
inductive UintError where
  /-- `uint_error("Division by zero")`. -/
  | divisionByZero
  deriving DecidableEq, Repr

/-- One round of the loop of `operator/=`: where `num >= div`, subtract and set bit `shift` of
the quotient (`pn[shift / 32] |= (1 << (shift & 31))`). -/
def divStep (shift : ℕ) (num div quotient : ArithUint256) : ArithUint256 × ArithUint256 :=
  if div ≤ num then (num - div, quotient ||| (1 : ArithUint256) <<< shift) else (num, quotient)

/-- `while (shift >= 0) { ...; div >>= 1; shift--; }`, the quotient at its end. -/
def divLoop (num div quotient : ArithUint256) : ℕ → ArithUint256
  | 0 => (divStep 0 num div quotient).2
  | shift + 1 =>
    let next := divStep (shift + 1) num div quotient
    divLoop next.1 (div >>> 1) next.2 shift

/-- `operator/=(const base_uint& b)`. -/
def divAssign (x b : ArithUint256) : Except UintError ArithUint256 :=
  let numBits := bits x
  let divBits := bits b
  if divBits = 0 then .error .divisionByZero
  -- the result is certainly 0
  else if divBits > numBits then .ok 0
  else
    let shift := numBits - divBits
    .ok (divLoop x (b <<< shift) 0 shift)

/-- `SetCompact(nCompact, pfNegative, pfOverflow)`: the number, `*pfNegative` and
`*pfOverflow`. -/
def setCompact (nCompact : UInt32) : ArithUint256 × Bool × Bool :=
  let nSize := (nCompact >>> 24).toNat
  let nWord := nCompact &&& 0x007fffff
  -- a small exponent shifts the mantissa right, a large one shifts the number left
  let (nWord, value) : UInt32 × ArithUint256 :=
    if nSize ≤ 3 then
      let nWord := nWord >>> (8 * (3 - nSize)).toUInt32
      (nWord, BitVec.ofNat 256 nWord.toNat)
    else (nWord, BitVec.ofNat 256 nWord.toNat <<< (8 * (nSize - 3)))
  (value, nWord != 0 && nCompact &&& 0x00800000 != 0,
    nWord != 0 && (nSize > 34 || nWord > 0xff && nSize > 33 || nWord > 0xffff && nSize > 32))

/-- `GetCompact(fNegative)`, its two `assert`s as errors that name them. -/
def getCompact (x : ArithUint256) (fNegative : Bool) : Except String UInt32 :=
  let nSize := (bits x + 7) / 8
  let nCompact : UInt32 :=
    if nSize ≤ 3 then (getLow64 x <<< (8 * (3 - nSize)).toUInt64).toUInt32
    else (getLow64 (x >>> (8 * (nSize - 3)))).toUInt32
  -- a mantissa with the sign bit set moves a byte into the exponent
  let (nCompact, nSize) : UInt32 × ℕ :=
    if nCompact &&& 0x00800000 != 0 then (nCompact >>> 8, nSize + 1) else (nCompact, nSize)
  if nCompact &&& ~~~0x007fffff != 0 then .error "(nCompact & ~0x007fffff) == 0"
  else if ¬ nSize < 256 then .error "nSize < 256"
  else
    let nCompact := nCompact ||| nSize.toUInt32 <<< 24
    .ok (nCompact ||| if fNegative && nCompact &&& 0x007fffff != 0 then 0x00800000 else 0)

/-! ## The limbs -/

theorem pn_lt (x : ArithUint256) (i : ℕ) : pn x i < 2 ^ 32 := Limbs.limb_lt 32 x.toNat i

theorem toNat_lt_limbs (x : ArithUint256) : x.toNat < 2 ^ (32 * WIDTH) := x.isLt

theorem and_one_shiftLeft_ne_zero (a k : ℕ) : (a &&& 1 <<< k != 0) = a.testBit k := by
  rw [Nat.one_shiftLeft, Nat.and_two_pow]
  cases a.testBit k <;> simp

/-- `bits()` is the bit length. -/
theorem bits_eq_size (x : ArithUint256) : bits x = x.toNat.size := by
  unfold bits
  split
  · -- every limb is zero
    next hnone =>
    rw [Limbs.findFromTop_eq_none_iff] at hnone
    have hzero : x.toNat = 0 := Limbs.eq_zero_of_limbs (toNat_lt_limbs x) (by omega)
      fun j hj => by simpa [pn] using hnone j hj
    rw [hzero, Nat.size_zero]
  · next pos hpos =>
    obtain ⟨hposlt, hposne, habove⟩ := Limbs.findFromTop_eq_some_iff.mp hpos
    have hzero : ∀ j, pos < j → j < WIDTH → Limbs.limb 32 x.toNat j = 0 :=
      fun j hj hjn => by simpa [pn] using habove j hj hjn
    have hlt : pn x pos < 2 ^ 32 := pn_lt x pos
    split
    · -- the highest set bit is `i + 1`
      next i hi =>
      obtain ⟨hilt, hbit, hbelow⟩ := Limbs.findFromTop_eq_some_iff.mp hi
      rw [and_one_shiftLeft_ne_zero] at hbit
      refine (Limbs.size_eq_of_top_limb (toNat_lt_limbs x) (by omega) hzero hbit
        fun j hj => ?_).symm
      by_cases hj32 : j < 32
      · have := hbelow (j - 1) (by omega) (by omega)
        rwa [and_one_shiftLeft_ne_zero, Nat.sub_add_cancel (by omega)] at this
      · exact Nat.testBit_lt_two_pow (lt_of_lt_of_le hlt (Nat.pow_le_pow_right (by omega)
          (by omega)))
    · -- no bit from 1 to 31: the limb is 1
      next hnone =>
      rw [Limbs.findFromTop_eq_none_iff] at hnone
      have hhigh : ∀ j, 0 < j → (pn x pos).testBit j = false := by
        intro j hj
        by_cases hj32 : j < 32
        · have := hnone (j - 1) (by omega)
          rwa [and_one_shiftLeft_ne_zero, Nat.sub_add_cancel (by omega)] at this
        · exact Nat.testBit_lt_two_pow (lt_of_lt_of_le hlt (Nat.pow_le_pow_right (by omega)
            (by omega)))
      have hbit : (pn x pos).testBit 0 = true := by
        by_contra hbit
        apply (bne_iff_ne.mp hposne)
        apply Nat.eq_of_testBit_eq
        intro j
        rw [Nat.zero_testBit]
        rcases Nat.eq_zero_or_pos j with rfl | hj
        · simpa using hbit
        · exact hhigh j hj
      exact (Limbs.size_eq_of_top_limb (toNat_lt_limbs x) (by omega) hzero hbit hhigh).symm

theorem toNat_getLow64 (x : ArithUint256) : (getLow64 x).toNat = x.toNat % 2 ^ 64 := by
  have hlow : pn x 0 < 2 ^ 32 := pn_lt x 0
  have hor : pn x 0 ||| pn x 1 <<< 32 = pn x 1 * 2 ^ 32 + pn x 0 := by
    rw [Nat.lor_comm, ← Nat.shiftLeft_add_eq_or_of_lt hlow, Nat.shiftLeft_eq]
  have hmod : x.toNat % 2 ^ 64 = x.toNat % 2 ^ 32 + 2 ^ 32 * (x.toNat / 2 ^ 32 % 2 ^ 32) := by
    rw [show (2 : ℕ) ^ 64 = 2 ^ 32 * 2 ^ 32 by norm_num, Nat.mod_mul]
  have hp0 : pn x 0 = x.toNat % 2 ^ 32 := by simp [pn, Limbs.limb]
  have hp1 : pn x 1 = x.toNat / 2 ^ 32 % 2 ^ 32 := by simp [pn, Limbs.limb]
  have hlt : pn x 1 * 2 ^ 32 + pn x 0 < 2 ^ 64 := by
    have := pn_lt x 1
    omega
  rw [getLow64, Nat.toUInt64, UInt64.toNat_ofNat', hor, Nat.mod_eq_of_lt hlt, hmod, hp0, hp1]
  ring

/-! ## Multiplying by a word -/

theorem map_pn_range (x : ArithUint256) :
    (List.range WIDTH).map (pn x) = Limbs.limbs 32 WIDTH x.toNat := rfl

/-- `operator*=(uint32_t)` multiplies modulo `2 ^ 256`. -/
theorem toNat_mulUint32 (x : ArithUint256) (b32 : UInt32) :
    (mulUint32 x b32).toNat = x.toNat * b32.toNat % 2 ^ 256 := by
  have hmul := Limbs.ofDigits_mulWord (by norm_num) b32.toNat_lt
    fun d (hd : d ∈ Limbs.limbs 32 WIDTH x.toNat) => Limbs.lt_of_mem_limbs hd
  rw [Limbs.ofDigits_limbs, Limbs.length_limbs, Nat.mod_eq_of_lt (toNat_lt_limbs x)] at hmul
  rw [mulUint32, map_pn_range, hmul, BitVec.toNat_ofNat, Nat.mul_comm,
    show 32 * WIDTH = 256 from rfl, Nat.mod_mod]

/-! ## Dividing -/

section Divide

variable {b : ℕ}

/-- The invariant of the division loop at `shift`: the divisor is `b` shifted by `shift`, the
remainder is below twice it, and the quotient has no bit at `shift` or below. -/
structure DivInv (b shift : ℕ) (num div quotient : ArithUint256) : Prop where
  div_eq : div.toNat = b * 2 ^ shift
  num_lt : num.toNat < 2 * div.toNat
  dvd_quotient : 2 ^ (shift + 1) ∣ quotient.toNat

theorem toNat_one_shiftLeft {shift : ℕ} (h : shift < 256) :
    ((1 : ArithUint256) <<< shift).toNat = 2 ^ shift := by
  rw [BitVec.toNat_shiftLeft, show (1 : ArithUint256).toNat = 1 from rfl, Nat.one_shiftLeft,
    Nat.mod_eq_of_lt (Nat.pow_lt_pow_right (by norm_num) h)]

/-- Setting bit `shift` of a multiple of `2 ^ (shift + 1)` adds `2 ^ shift`. -/
theorem toNat_or_one_shiftLeft {shift : ℕ} {quotient : ArithUint256} (h : shift < 256)
    (hdvd : 2 ^ (shift + 1) ∣ quotient.toNat) :
    (quotient ||| (1 : ArithUint256) <<< shift).toNat = quotient.toNat + 2 ^ shift := by
  obtain ⟨k, hk⟩ := hdvd
  rw [BitVec.toNat_or, toNat_one_shiftLeft h, hk, Nat.mul_comm, ← Nat.shiftLeft_eq,
    Nat.shiftLeft_add_eq_or_of_lt (Nat.pow_lt_pow_right (by norm_num) (Nat.lt_succ_self shift))]

/-- One round subtracts the shifted divisor where it fits and sets the quotient bit: the value
`quotient * b + num` is kept and the remainder drops below the shifted divisor. -/
theorem divStep_spec (hb : 0 < b) {shift : ℕ} {num div quotient : ArithUint256}
    (h : DivInv b shift num div quotient) :
    (divStep shift num div quotient).2.toNat * b + (divStep shift num div quotient).1.toNat =
        quotient.toNat * b + num.toNat ∧
      (divStep shift num div quotient).1.toNat < div.toNat ∧
      2 ^ shift ∣ (divStep shift num div quotient).2.toNat := by
  have hdvd : 2 ^ shift ∣ quotient.toNat :=
    Nat.dvd_trans (Nat.pow_dvd_pow 2 (Nat.le_succ shift)) h.dvd_quotient
  have hnum := h.num_lt
  unfold divStep
  split
  · next hle =>
    rw [BitVec.le_def] at hle
    -- the shifted divisor fits in 256 bits, and so does the quotient bit
    have hshift : shift < 256 := by
      have hpow : 2 ^ shift ≤ div.toNat := by
        rw [h.div_eq]
        exact Nat.le_mul_of_pos_left _ hb
      exact (Nat.pow_lt_pow_iff_right (by norm_num)).mp (lt_of_le_of_lt hpow div.isLt)
    have hdiv : 2 ^ shift * b = div.toNat := by rw [h.div_eq, Nat.mul_comm]
    rw [BitVec.toNat_sub_of_le (BitVec.le_def.mpr hle), toNat_or_one_shiftLeft hshift
      h.dvd_quotient, Nat.add_mul, hdiv]
    exact ⟨by omega, by omega, Nat.dvd_add hdvd (dvd_refl _)⟩
  · next hlt =>
    rw [BitVec.le_def, not_le] at hlt
    exact ⟨rfl, hlt, hdvd⟩

/-- The loop from `shift` down gives the quotient of `quotient * b + num` by `b`. -/
theorem divLoop_spec (hb : 0 < b) : ∀ (shift : ℕ) (num div quotient : ArithUint256),
    DivInv b shift num div quotient →
      (divLoop num div quotient shift).toNat = (quotient.toNat * b + num.toNat) / b
  | 0, num, div, quotient, h => by
    obtain ⟨hval, hlt, -⟩ := divStep_spec hb h
    rw [h.div_eq, Nat.pow_zero, Nat.mul_one] at hlt
    rw [divLoop, ← hval, Nat.mul_comm, Nat.mul_add_div hb, Nat.div_eq_of_lt hlt, Nat.add_zero]
  | shift + 1, num, div, quotient, h => by
    obtain ⟨hval, hlt, hdvd⟩ := divStep_spec hb h
    -- the next round: the divisor shifted back by one
    have hnext : DivInv b shift (divStep (shift + 1) num div quotient).1 (div >>> 1)
        (divStep (shift + 1) num div quotient).2 := by
      have hdiv : (div >>> 1).toNat = b * 2 ^ shift := by
        rw [BitVec.toNat_ushiftRight, Nat.shiftRight_eq_div_pow, h.div_eq, Nat.pow_succ,
          ← Nat.mul_assoc, Nat.pow_one, Nat.mul_div_cancel _ (by norm_num)]
      refine ⟨hdiv, ?_, hdvd⟩
      rw [hdiv]
      rw [h.div_eq, Nat.pow_succ] at hlt
      calc _ < b * (2 ^ shift * 2) := hlt
        _ = 2 * (b * 2 ^ shift) := by ring
    rw [divLoop, divLoop_spec hb shift _ _ _ hnext, hval]

/-- The loop starts with the divisor shifted up to the top bit of the dividend. -/
theorem divInv_start {x d : ArithUint256} (hd : d ≠ 0) (hle : bits d ≤ bits x) :
    DivInv d.toNat (bits x - bits d) x (d <<< (bits x - bits d)) 0 := by
  rw [bits_eq_size, bits_eq_size] at hle ⊢
  have hdpos : 0 < d.toNat := Nat.pos_of_ne_zero (by simpa [BitVec.toNat_eq] using hd)
  have hsize : 0 < d.toNat.size := Nat.size_pos.mpr hdpos
  have hxsize : x.toNat.size ≤ 256 := Nat.size_le.mpr x.isLt
  have hdlt : d.toNat < 2 ^ d.toNat.size := Nat.lt_size_self _
  have hdge : 2 ^ (d.toNat.size - 1) ≤ d.toNat := Nat.lt_size.mp (by omega)
  have hxlt : x.toNat < 2 ^ x.toNat.size := Nat.lt_size_self _
  set s := x.toNat.size - d.toNat.size
  -- no bit of the divisor is shifted out
  have hfits : d.toNat * 2 ^ s < 2 ^ 256 := by
    calc d.toNat * 2 ^ s < 2 ^ d.toNat.size * 2 ^ s :=
          Nat.mul_lt_mul_of_pos_right hdlt (by positivity)
      _ = 2 ^ x.toNat.size := by rw [← Nat.pow_add]; congr 1; omega
      _ ≤ 2 ^ 256 := Nat.pow_le_pow_right (by norm_num) hxsize
  have hdiv : (d <<< s).toNat = d.toNat * 2 ^ s := by
    rw [BitVec.toNat_shiftLeft, Nat.shiftLeft_eq, Nat.mod_eq_of_lt hfits]
  refine ⟨hdiv, ?_, by simp⟩
  rw [hdiv]
  calc x.toNat < 2 ^ x.toNat.size := hxlt
    _ = 2 * (2 ^ (d.toNat.size - 1) * 2 ^ s) := by
        rw [← Nat.pow_add, ← Nat.pow_succ']
        congr 1
        omega
    _ ≤ 2 * (d.toNat * 2 ^ s) := by gcongr

/-- `operator/=` divides, and throws only on a zero divisor. -/
theorem divAssign_eq (x d : ArithUint256) :
    divAssign x d = if d = 0 then .error .divisionByZero else .ok (x / d) := by
  unfold divAssign
  by_cases hd : d = 0
  · subst hd
    simp [bits_eq_size]
  have hsize : bits d ≠ 0 := by
    rw [bits_eq_size, Ne, Nat.size_eq_zero]
    simpa [BitVec.toNat_eq] using hd
  rw [if_neg hsize, if_neg hd]
  split
  · -- a divisor longer than the dividend
    next hgt =>
    rw [bits_eq_size, bits_eq_size] at hgt
    congr 1
    apply BitVec.eq_of_toNat_eq
    rw [BitVec.toNat_udiv, show (0 : ArithUint256).toNat = 0 from rfl, eq_comm,
      Nat.div_eq_zero_iff]
    right
    calc x.toNat < 2 ^ x.toNat.size := Nat.lt_size_self _
      _ ≤ 2 ^ (d.toNat.size - 1) := Nat.pow_le_pow_right (by norm_num) (by omega)
      _ ≤ d.toNat := Nat.lt_size.mp (by omega)
  · next hle =>
    dsimp only
    congr 1
    apply BitVec.eq_of_toNat_eq
    rw [divLoop_spec (Nat.pos_of_ne_zero (by simpa [BitVec.toNat_eq] using hd)) _ _ _ _
      (divInv_start hd (by omega)), BitVec.toNat_udiv]
    simp

end Divide

/-! ## Bytes -/

/-- The number of bytes of `x`. -/
def byteLength (x : ℕ) : ℕ := (Nat.digits 256 x).length

/-- The most significant byte of `x`, and 0 for 0. -/
def topByte (x : ℕ) : ℕ := x / 256 ^ (byteLength x - 1)

/-- The exponent of the compact form: the byte length, and one more when the top byte would
read as the sign. -/
def compactExponent (x : ℕ) : ℕ := byteLength x + if 0x80 ≤ topByte x then 1 else 0

/-- The mantissa at exponent `e`: the three bytes of `x` below byte `e`. -/
def compactMantissa (x e : ℕ) : ℕ := if e ≤ 3 then x * 256 ^ (3 - e) else x / 256 ^ (e - 3)

/-- The compact form of `x`, with the sign clear. -/
def compactOf (x : ℕ) : UInt32 :=
  (compactMantissa x (compactExponent x) + compactExponent x * 2 ^ 24).toUInt32

/-- What the compact form at exponent `e` keeps of `x`: all of it up to three bytes, else its
bytes from `e - 3` up. -/
def compactTruncate (x e : ℕ) : ℕ := if e ≤ 3 then x else x / 256 ^ (e - 3) * 256 ^ (e - 3)

section Bytes

variable {x : ℕ}

theorem byteLength_le_iff {k : ℕ} : byteLength x ≤ k ↔ x < 256 ^ k :=
  Nat.digits_length_le_iff (by norm_num) x

theorem lt_byteLength_iff {k : ℕ} : k < byteLength x ↔ 256 ^ k ≤ x :=
  Nat.lt_digits_length_iff (by norm_num) x

theorem lt_pow_byteLength (x : ℕ) : x < 256 ^ byteLength x := byteLength_le_iff.mp le_rfl

theorem byteLength_pos (hx : x ≠ 0) : 0 < byteLength x :=
  lt_byteLength_iff.mpr (by rw [Nat.pow_zero]; omega)

theorem pow_byteLength_le (hx : x ≠ 0) : 256 ^ (byteLength x - 1) ≤ x :=
  lt_byteLength_iff.mp (by have := byteLength_pos hx; omega)

theorem topByte_pos (hx : x ≠ 0) : 0 < topByte x :=
  Nat.div_pos (pow_byteLength_le hx) (by positivity)

/-- `(bits() + 7) / 8` is the byte length. -/
theorem size_add_seven_div_eight (x : ℕ) : (x.size + 7) / 8 = byteLength x := by
  have hiff : ∀ k, (x.size + 7) / 8 ≤ k ↔ byteLength x ≤ k := by
    intro k
    rw [byteLength_le_iff, show (256 : ℕ) ^ k = 2 ^ (8 * k) by rw [Nat.pow_mul],
      ← Nat.size_le]
    omega
  exact le_antisymm ((hiff _).mpr le_rfl) ((hiff _).mp le_rfl)

theorem byteLength_le_of_lt (hx : x < 2 ^ 256) : byteLength x ≤ 32 :=
  byteLength_le_iff.mpr (by simpa using hx)

/-- Cutting below byte `k` does not change the bytes from `j ≥ k` up. -/
theorem div_mul_div_pow (x : ℕ) {k j : ℕ} (h : k ≤ j) :
    x / 256 ^ k * 256 ^ k / 256 ^ j = x / 256 ^ j := by
  rw [show j = k + (j - k) by omega, Nat.pow_add, ← Nat.div_div_eq_div_mul,
    Nat.mul_div_cancel _ (by positivity), ← Nat.div_div_eq_div_mul]

/-! ### The mantissa -/

/-- One more byte of exponent drops the lowest byte of the mantissa. -/
theorem compactMantissa_succ (x e : ℕ) :
    compactMantissa x (e + 1) = compactMantissa x e / 256 := by
  unfold compactMantissa
  by_cases he : e + 1 ≤ 3
  · rw [if_pos he, if_pos (by omega), show 3 - e = 3 - (e + 1) + 1 by omega, Nat.pow_succ,
      ← Nat.mul_assoc, Nat.mul_div_cancel _ (by norm_num)]
  · rw [if_neg he]
    by_cases he3 : e ≤ 3
    · rw [if_pos he3, show e = 3 by omega]
      simp
    · rw [if_neg he3, Nat.div_div_eq_div_mul, ← Nat.pow_succ, show e + 1 - 3 = e - 3 + 1 by omega]

/-- At the byte length, the mantissa holds the top three bytes, the top byte first. -/
theorem compactMantissa_byteLength (x : ℕ) :
    compactMantissa x (byteLength x) < 2 ^ 24 ∧
      compactMantissa x (byteLength x) / 2 ^ 16 = topByte x := by
  have hlt := lt_pow_byteLength x
  unfold compactMantissa topByte
  split
  · next hL =>
    constructor
    · calc x * 256 ^ (3 - byteLength x) < 256 ^ byteLength x * 256 ^ (3 - byteLength x) :=
            Nat.mul_lt_mul_of_pos_right hlt (by positivity)
        _ = 2 ^ 24 := by rw [← Nat.pow_add, Nat.add_sub_cancel' hL]; norm_num
    · rcases Nat.eq_zero_or_pos x with rfl | hx
      · simp
      have hpos := byteLength_pos hx.ne'
      rw [show (2 : ℕ) ^ 16 = 256 ^ (3 - byteLength x) * 256 ^ (byteLength x - 1) by
          rw [← Nat.pow_add, show 3 - byteLength x + (byteLength x - 1) = 2 by omega]; norm_num,
        Nat.mul_comm x, Nat.mul_div_mul_left _ _ (by positivity)]
  · next hL =>
    constructor
    · rw [Nat.div_lt_iff_lt_mul (by positivity), show (2 : ℕ) ^ 24 = 256 ^ 3 by norm_num,
        ← Nat.pow_add, Nat.add_sub_cancel' (by omega : 3 ≤ byteLength x)]
      exact hlt
    · rw [Nat.div_div_eq_div_mul, show (2 : ℕ) ^ 16 = 256 ^ 2 by norm_num, ← Nat.pow_add,
        show byteLength x - 3 + 2 = byteLength x - 1 by omega]

theorem compactMantissa_compactExponent (x : ℕ) :
    compactMantissa x (compactExponent x) =
      if 0x80 ≤ topByte x then compactMantissa x (byteLength x) / 256
      else compactMantissa x (byteLength x) := by
  unfold compactExponent
  split
  · rw [compactMantissa_succ]
  · rw [Nat.add_zero]

/-- The mantissa leaves the sign bit clear, and it has two bytes when the exponent took the
extra one. -/
theorem compactMantissa_lt (x : ℕ) :
    compactMantissa x (compactExponent x) < 2 ^ 23 ∧
      (0x80 ≤ topByte x → compactMantissa x (compactExponent x) < 2 ^ 16) := by
  obtain ⟨hlt, htop⟩ := compactMantissa_byteLength x
  rw [compactMantissa_compactExponent]
  split <;> omega

theorem compactExponent_le (hx : x < 2 ^ 256) : compactExponent x ≤ 33 := by
  have := byteLength_le_of_lt hx
  unfold compactExponent
  split <;> omega

/-! ### Cutting to the compact form -/

theorem compactTruncate_le (x e : ℕ) : compactTruncate x e ≤ x := by
  unfold compactTruncate
  split
  · exact le_rfl
  · exact Nat.div_mul_le_self x _

/-- The cut keeps the top bytes: its byte length and top byte are those of `x`. -/
theorem compactTruncate_bytes (x : ℕ) :
    byteLength (compactTruncate x (compactExponent x)) = byteLength x ∧
      topByte (compactTruncate x (compactExponent x)) = topByte x := by
  unfold compactTruncate
  split
  · exact ⟨rfl, rfl⟩
  · next he =>
    have hx : x ≠ 0 := by
      rintro rfl
      simp [compactExponent, byteLength, topByte] at he
    have hlen := byteLength_pos hx
    -- the cut is below byte `e - 3 ≤ byteLength x - 2`
    have hk : compactExponent x - 3 ≤ byteLength x - 1 := by
      unfold compactExponent at he ⊢
      by_cases htop : 0x80 ≤ topByte x <;> simp only [htop, if_true, if_false] at he ⊢ <;> omega
    set k := compactExponent x - 3
    have hlen_eq : byteLength (x / 256 ^ k * 256 ^ k) = byteLength x := by
      apply le_antisymm
      · exact byteLength_le_iff.mpr (lt_of_le_of_lt (Nat.div_mul_le_self x _)
          (lt_pow_byteLength x))
      · have hge : 256 ^ (byteLength x - 1) ≤ x / 256 ^ k * 256 ^ k := by
          rw [show byteLength x - 1 = byteLength x - 1 - k + k by omega, Nat.pow_add]
          exact Nat.mul_le_mul_right _ ((Nat.le_div_iff_mul_le (by positivity)).mpr
            (by rw [← Nat.pow_add, Nat.sub_add_cancel hk]; exact pow_byteLength_le hx))
        have := lt_byteLength_iff.mpr hge
        omega
    refine ⟨hlen_eq, ?_⟩
    rw [topByte, topByte, hlen_eq, div_mul_div_pow x hk]

theorem compactExponent_compactTruncate (x : ℕ) :
    compactExponent (compactTruncate x (compactExponent x)) = compactExponent x := by
  obtain ⟨hlen, htop⟩ := compactTruncate_bytes x
  rw [compactExponent, hlen, htop, ← compactExponent]

theorem compactMantissa_compactTruncate (x e : ℕ) :
    compactMantissa (compactTruncate x e) e = compactMantissa x e := by
  unfold compactTruncate compactMantissa
  split
  · rfl
  · rw [div_mul_div_pow x le_rfl]

/-- Encoding the cut gives the same compact form. -/
theorem compactOf_compactTruncate (x : ℕ) :
    compactOf (compactTruncate x (compactExponent x)) = compactOf x := by
  rw [compactOf, compactExponent_compactTruncate, compactMantissa_compactTruncate, ← compactOf]

theorem compactTruncate_pos (hx : x ≠ 0) : 0 < compactTruncate x (compactExponent x) := by
  obtain ⟨-, htop⟩ := compactTruncate_bytes x
  have h := topByte_pos hx
  rw [← htop] at h
  by_contra h0
  rw [Nat.eq_zero_of_not_pos h0] at h
  simp [topByte] at h

end Bytes

/-! ## The words of the compact form -/

section Words

theorem toNat_toUInt32_of_lt {m : ℕ} (h : m < 2 ^ 32) : m.toUInt32.toNat = m := by
  rw [Nat.toUInt32, UInt32.toNat_ofNat', Nat.mod_eq_of_lt h]

theorem bne_zero_eq (a : UInt32) : (a != 0) = decide (a.toNat ≠ 0) := by
  rw [Bool.eq_iff_iff, bne_iff_ne, decide_eq_true_iff, ne_eq, ne_eq, ← UInt32.toNat_inj,
    UInt32.toNat_zero]

theorem signBit_bne_zero (a : UInt32) : (a &&& 0x00800000 != 0) = a.toNat.testBit 23 := by
  rw [bne_zero_eq, UInt32.toNat_and, show (0x00800000 : UInt32).toNat = 2 ^ 23 from rfl,
    Nat.and_two_pow]
  cases a.toNat.testBit 23 <;> simp

theorem testBit_23_eq {m : ℕ} (hm : m < 2 ^ 24) : m.testBit 23 = decide (2 ^ 23 ≤ m) := by
  rw [Nat.testBit_eq_decide_div_mod_eq, Bool.eq_iff_iff, decide_eq_true_iff, decide_eq_true_iff]
  omega

/-- A mantissa below the sign bit passes the first `assert` of `GetCompact`. -/
theorem mantissaAssert_eq_false (a : UInt32) (ha : a.toNat < 2 ^ 23) :
    (a &&& ~~~0x007fffff != 0) = false := by
  rw [bne_zero_eq, decide_eq_false_iff_not, not_not, UInt32.toNat_and, UInt32.toNat_not,
    show UInt32.size - 1 - (0x007fffff : UInt32).toNat = 2 ^ 23 * 511 from rfl]
  apply Nat.eq_of_testBit_eq
  intro i
  rw [Nat.testBit_and, Nat.zero_testBit, Nat.testBit_two_pow_mul]
  by_cases hi : i < 23
  · simp [hi]
  · rw [Nat.testBit_lt_two_pow (lt_of_lt_of_le ha (Nat.pow_le_pow_right (by norm_num)
      (by omega))), Bool.false_and]

/-- The mantissa and the exponent side by side. -/
theorem toNat_or_shiftLeft {m e : ℕ} (hm : m < 2 ^ 24) (he : e < 256) :
    (m.toUInt32 ||| e.toUInt32 <<< 24).toNat = m + e * 2 ^ 24 := by
  have he' : e * 2 ^ 24 < 2 ^ 32 := by omega
  rw [UInt32.toNat_or, UInt32.toNat_shiftLeft, Nat.toUInt32, UInt32.toNat_ofNat',
    UInt32.toNat_ofNat', Nat.mod_eq_of_lt (by omega : m < 2 ^ 32),
    Nat.mod_eq_of_lt (by omega : e < 2 ^ 32), show (24 : UInt32).toNat % 32 = 24 from rfl,
    Nat.shiftLeft_eq, Nat.mod_eq_of_lt he', Nat.lor_comm, ← Nat.shiftLeft_eq,
    ← Nat.shiftLeft_add_eq_or_of_lt hm, Nat.shiftLeft_eq, Nat.add_comm]

theorem toNat_shiftRight_24 (c : UInt32) : (c >>> 24).toNat = c.toNat / 2 ^ 24 := by
  rw [UInt32.toNat_shiftRight, show (24 : UInt32).toNat % 32 = 24 from rfl,
    Nat.shiftRight_eq_div_pow]

theorem toNat_and_mantissaMask (c : UInt32) : (c &&& 0x007fffff).toNat = c.toNat % 2 ^ 23 := by
  rw [UInt32.toNat_and, show (0x007fffff : UInt32).toNat = 2 ^ 23 - 1 from rfl,
    Nat.and_two_pow_sub_one_eq_mod]

theorem toNat_compactOf {x : ℕ} (hx : x < 2 ^ 256) :
    (compactOf x).toNat = compactMantissa x (compactExponent x) + compactExponent x * 2 ^ 24 := by
  have hm := (compactMantissa_lt x).1
  have he := compactExponent_le hx
  rw [compactOf, toNat_toUInt32_of_lt (by omega)]

end Words

/-- The mantissa that `GetCompact` reads off before it looks at the sign bit. -/
theorem getCompact_mantissa (x : ArithUint256) :
    (if byteLength x.toNat ≤ 3 then
        (getLow64 x <<< (8 * (3 - byteLength x.toNat)).toUInt64).toUInt32
      else (getLow64 (x >>> (8 * (byteLength x.toNat - 3)))).toUInt32) =
      (compactMantissa x.toNat (byteLength x.toNat)).toUInt32 := by
  obtain ⟨hm0, -⟩ := compactMantissa_byteLength x.toNat
  have hlt := lt_pow_byteLength x.toNat
  rw [← UInt32.toNat_inj, toNat_toUInt32_of_lt (by omega)]
  unfold compactMantissa at hm0 ⊢
  split
  · -- three bytes or fewer: shifted up into the mantissa
    next hL =>
    rw [if_pos hL] at hm0
    have hsmall : x.toNat < 2 ^ 64 := by
      calc x.toNat < 256 ^ byteLength x.toNat := hlt
        _ ≤ 256 ^ 3 := Nat.pow_le_pow_right (by norm_num) hL
        _ < 2 ^ 64 := by norm_num
    have hs : (8 * (3 - byteLength x.toNat)).toUInt64.toNat % 64 = 8 * (3 - byteLength x.toNat) := by
      rw [Nat.toUInt64, UInt64.toNat_ofNat']
      omega
    have hpow : (2 : ℕ) ^ (8 * (3 - byteLength x.toNat)) = 256 ^ (3 - byteLength x.toNat) := by
      rw [Nat.pow_mul]
    rw [UInt64.toNat_toUInt32, UInt64.toNat_shiftLeft, toNat_getLow64, hs,
      Nat.mod_eq_of_lt hsmall, Nat.shiftLeft_eq, hpow, Nat.mod_eq_of_lt (by omega),
      Nat.mod_eq_of_lt (by omega)]
  · -- more: the top three bytes shifted down
    next hL =>
    rw [if_neg hL] at hm0
    have hpow : (2 : ℕ) ^ (8 * (byteLength x.toNat - 3)) = 256 ^ (byteLength x.toNat - 3) := by
      rw [Nat.pow_mul]
    have h64 : x.toNat / 256 ^ (byteLength x.toNat - 3) < 2 ^ 64 := by omega
    have h32 : x.toNat / 256 ^ (byteLength x.toNat - 3) < 2 ^ 32 := by omega
    rw [UInt64.toNat_toUInt32, toNat_getLow64, BitVec.toNat_ushiftRight,
      Nat.shiftRight_eq_div_pow, hpow, Nat.mod_eq_of_lt h64, Nat.mod_eq_of_lt h32]

/-- After the sign bit is looked at: the mantissa and the exponent of the compact form. -/
theorem getCompact_signAdjust (x : ℕ) :
    (if (((compactMantissa x (byteLength x)).toUInt32 &&& 0x00800000 != 0) = true) then
        ((compactMantissa x (byteLength x)).toUInt32 >>> 8, byteLength x + 1)
      else ((compactMantissa x (byteLength x)).toUInt32, byteLength x)) =
      ((compactMantissa x (compactExponent x)).toUInt32, compactExponent x) := by
  obtain ⟨hm0, htop⟩ := compactMantissa_byteLength x
  have hsign : ((compactMantissa x (byteLength x)).toUInt32 &&& 0x00800000 != 0) =
      decide (0x80 ≤ topByte x) := by
    rw [signBit_bne_zero, toNat_toUInt32_of_lt (by omega), testBit_23_eq hm0, Bool.eq_iff_iff, decide_eq_true_iff, decide_eq_true_iff]
    omega
  rw [hsign, compactMantissa_compactExponent, compactExponent]
  by_cases hadj : 0x80 ≤ topByte x
  · simp only [hadj, decide_true, if_true, Prod.mk.injEq, and_true]
    rw [← UInt32.toNat_inj, UInt32.toNat_shiftRight, toNat_toUInt32_of_lt (by omega),
      toNat_toUInt32_of_lt (by omega), show (8 : UInt32).toNat % 32 = 8 from rfl,
      Nat.shiftRight_eq_div_pow]
  · simp [hadj]

/-- `GetCompact` encodes the compact form. -/
theorem getCompact_eq (x : ArithUint256) : getCompact x false = .ok (compactOf x.toNat) := by
  have hL : (bits x + 7) / 8 = byteLength x.toNat := by
    rw [bits_eq_size, size_add_seven_div_eight]
  have hm := (compactMantissa_lt x.toNat).1
  have he := compactExponent_le x.isLt
  have hm32 : (compactMantissa x.toNat (compactExponent x.toNat)).toUInt32.toNat =
      compactMantissa x.toNat (compactExponent x.toNat) := toNat_toUInt32_of_lt (by omega)
  unfold getCompact
  simp only [hL, getCompact_mantissa, getCompact_signAdjust]
  rw [mantissaAssert_eq_false _ (by omega)]
  simp only [Bool.false_eq_true, if_false, show compactExponent x.toNat < 256 by omega,
    not_true_eq_false, Bool.false_and, UInt32.or_zero]
  congr 1
  rw [← UInt32.toNat_inj, toNat_compactOf x.isLt, ← hm32, toNat_or_shiftLeft (by omega) (by omega),
    hm32]

theorem toNat_compactOf_shiftRight {x : ℕ} (hx : x < 2 ^ 256) :
    (compactOf x >>> 24).toNat = compactExponent x := by
  have hm := (compactMantissa_lt x).1
  rw [toNat_shiftRight_24, toNat_compactOf hx]
  omega

theorem toNat_compactOf_and_mantissaMask {x : ℕ} (hx : x < 2 ^ 256) :
    (compactOf x &&& 0x007fffff).toNat = compactMantissa x (compactExponent x) := by
  have hm := (compactMantissa_lt x).1
  rw [toNat_and_mantissaMask, toNat_compactOf hx]
  omega

theorem compactOf_signBit_bne_zero {x : ℕ} (hx : x < 2 ^ 256) :
    (compactOf x &&& 0x00800000 != 0) = false := by
  have hm := (compactMantissa_lt x).1
  rw [signBit_bne_zero, toNat_compactOf hx, Nat.testBit_eq_decide_div_mod_eq,
    decide_eq_false_iff_not]
  omega

/-- The exponent takes the 33rd byte only for the sign. -/
theorem topByte_of_compactExponent_eq {x : ℕ} (hx : x < 2 ^ 256) (he : compactExponent x = 33) :
    0x80 ≤ topByte x := by
  have := byteLength_le_of_lt hx
  unfold compactExponent at he
  split at he
  · assumption
  · omega

/-- `SetCompact` of the compact form that `GetCompact` gives: the number cut below byte
`e - 3`, neither negative nor overflowing. -/
theorem setCompact_compactOf (x : ArithUint256) :
    setCompact (compactOf x.toNat) =
      (BitVec.ofNat 256 (compactTruncate x.toNat (compactExponent x.toNat)), false, false) := by
  obtain ⟨hm, hm16⟩ := compactMantissa_lt x.toNat
  have he := compactExponent_le x.isLt
  have hword := toNat_compactOf_and_mantissaMask x.isLt
  -- `rw` rather than `simp` on the goal: the kernel checks the rewrites through `setCompact`
  -- without unfolding the compact form
  rw [setCompact, toNat_compactOf_shiftRight x.isLt, compactOf_signBit_bne_zero x.isLt]
  by_cases he3 : compactExponent x.toNat ≤ 3
  · -- the mantissa shifted back down is the number itself
    have hval : ((compactOf x.toNat &&& 0x007fffff) >>>
        (8 * (3 - compactExponent x.toNat)).toUInt32).toNat = x.toNat := by
      rw [UInt32.toNat_shiftRight, hword, toNat_toUInt32_of_lt (by omega),
        Nat.mod_eq_of_lt (by omega : 8 * (3 - compactExponent x.toNat) < 32),
        Nat.shiftRight_eq_div_pow, compactMantissa, if_pos he3, Nat.pow_mul,
        show (2 : ℕ) ^ 8 = 256 from rfl, Nat.mul_div_cancel _ (by positivity)]
    rw [if_pos he3]
    dsimp only
    generalize (compactOf x.toNat &&& 0x007fffff) >>>
      (8 * (3 - compactExponent x.toNat)).toUInt32 = w at hval
    have h34 : decide (compactExponent x.toNat > 34) = false := decide_eq_false (by omega)
    have h33 : decide (compactExponent x.toNat > 33) = false := decide_eq_false (by omega)
    have h32 : decide (compactExponent x.toNat > 32) = false := decide_eq_false (by omega)
    rw [Bool.and_false, h34, h33, h32, Bool.and_false, Bool.and_false, Bool.or_false,
      Bool.or_false, Bool.and_false, hval, compactTruncate, if_pos he3]
  · -- the mantissa shifted up, with no bit shifted out
    have hcut : compactMantissa x.toNat (compactExponent x.toNat) *
        256 ^ (compactExponent x.toNat - 3) =
        compactTruncate x.toNat (compactExponent x.toNat) := by
      rw [compactMantissa, compactTruncate, if_neg he3, if_neg he3]
    have hfits : compactTruncate x.toNat (compactExponent x.toNat) < 2 ^ 256 :=
      lt_of_le_of_lt (compactTruncate_le _ _) x.isLt
    have hval : BitVec.ofNat 256 (compactOf x.toNat &&& 0x007fffff).toNat <<<
        (8 * (compactExponent x.toNat - 3)) =
        BitVec.ofNat 256 (compactTruncate x.toNat (compactExponent x.toNat)) := by
      apply BitVec.eq_of_toNat_eq
      rw [BitVec.toNat_shiftLeft, BitVec.toNat_ofNat, BitVec.toNat_ofNat, hword,
        Nat.mod_eq_of_lt (hm.trans (by norm_num)), Nat.shiftLeft_eq, Nat.pow_mul,
        show (2 : ℕ) ^ 8 = 256 from rfl, hcut, Nat.mod_eq_of_lt hfits]
    rw [if_neg he3]
    dsimp only
    rw [Bool.and_false, hval]
    -- at exponent 33 the mantissa has two bytes
    have hw16 : decide ((compactOf x.toNat &&& 0x007fffff) > 0xffff) = true →
        compactExponent x.toNat ≤ 32 := by
      intro hw
      rw [decide_eq_true_iff, GT.gt, UInt32.lt_iff_toNat_lt, hword,
        show (0xffff : UInt32).toNat = 0xffff from rfl] at hw
      by_contra h33
      have := hm16 (topByte_of_compactExponent_eq x.isLt (by omega))
      omega
    generalize (compactOf x.toNat &&& 0x007fffff) = w at hw16
    have h34 : decide (compactExponent x.toNat > 34) = false := decide_eq_false (by omega)
    have h33 : decide (compactExponent x.toNat > 33) = false := decide_eq_false (by omega)
    rw [h34, h33, Bool.and_false, Bool.false_or, Bool.false_or]
    cases hdec : decide (w > 0xffff)
    · rw [Bool.false_and, Bool.and_false]
    · rw [decide_eq_false (by have := hw16 hdec; omega : ¬ compactExponent x.toNat > 32),
        Bool.and_false, Bool.and_false]

theorem getCompact_setCompact (x : ArithUint256) :
    ∃ c, getCompact x false = .ok c ∧ c &&& 0x00800000 = 0 ∧
      (c >>> 24).toNat = byteLength x.toNat + (if 0x80 ≤ topByte x.toNat then 1 else 0) ∧
      setCompact c = ((if (c >>> 24).toNat ≤ 3 then x
        else BitVec.ofNat 256 (x.toNat / 256 ^ ((c >>> 24).toNat - 3) *
          256 ^ ((c >>> 24).toNat - 3))), false, false) ∧
      getCompact (setCompact c).1 false = .ok c := by
  have hfits : compactTruncate x.toNat (compactExponent x.toNat) < 2 ^ 256 :=
    lt_of_le_of_lt (compactTruncate_le _ _) x.isLt
  refine ⟨compactOf x.toNat, getCompact_eq x, ?_, ?_, ?_, ?_⟩
  · have h := compactOf_signBit_bne_zero x.isLt
    rwa [bne_eq_false_iff_eq] at h
  · rw [toNat_compactOf_shiftRight x.isLt, compactExponent]
  · rw [setCompact_compactOf, toNat_compactOf_shiftRight x.isLt, compactTruncate]
    split
    · rw [BitVec.ofNat_toNat, BitVec.setWidth_eq]
    · rfl
  · rw [setCompact_compactOf, getCompact_eq, BitVec.toNat_ofNat, Nat.mod_eq_of_lt hfits,
      compactOf_compactTruncate]

end ArithUint256

end Dexfin.Bitcoin
