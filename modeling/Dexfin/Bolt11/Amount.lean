import Dexfin.Lib.Decimal

/-!
# Invoice amounts

The amount in the human-readable part of a BOLT 11 invoice, as `bolt11_decode` and
`bolt11_encode_` in `src/lightning/common/bolt11.c` read and write it. The decoder takes the
digits after the currency prefix, trims a multiplier letter, reads the digits with `strtoull`
and returns `amount * m10 / 10` in `u64`, where `m10` is ten times the multiplier in msat and
`10` without a letter. The encoder writes a whole number of bitcoin with no letter, and other
amounts with the largest multiplier that divides them, or `p`.

What the two agree on: every amount that is not a whole number of bitcoin comes back from its
encoding (`decodeAmount_encodeAmount`). What they do not: an amount without a letter is read
in msat (`decodeAmount_of_digits`), so a whole number of bitcoin comes back divided by
`MSAT_PER_BTC` (`decodeAmount_encodeAmount_btc`), and the product `amount * m10` and the
division by `10` are those of `u64`.
-/

namespace Dexfin.Bolt11

open Decimal

/-- `MSAT_PER_BTC`. -/
def msatPerBtc : BitVec 64 := 100000000000

/-- `struct multiplier`: a letter and ten times its value in msat. -/
structure Multiplier where
  /-- `letter`. -/
  letter : Char
  /-- `m10`. -/
  m10 : BitVec 64
  deriving DecidableEq, Repr

/-- `m` (milli). -/
def milli : Multiplier := ⟨'m', 10 * msatPerBtc / 1000⟩

/-- `u` (micro). -/
def micro : Multiplier := ⟨'u', 10 * msatPerBtc / 1000000⟩

/-- `n` (nano). -/
def nano : Multiplier := ⟨'n', 10 * msatPerBtc / 1000000000⟩

/-- `p` (pico). -/
def pico : Multiplier := ⟨'p', 10 * msatPerBtc / 1000000000000⟩

/-- `multipliers[]`. -/
def multipliers : List Multiplier := [milli, micro, nano, pico]

/-! ## Decoding -/

/-- "Gather and trim multiplier": `m10` of the multiplier the last character names, and the
amount without it; `10` and the whole amount when it names none. -/
def trimMultiplier (amountstr : List Char) : BitVec 64 × List Char :=
  match multipliers.find? fun m => amountstr.getLast? == some m.letter with
  | some m => (m.m10, amountstr.dropLast)
  | none => (10, amountstr)

/-- The amount part of `bolt11_decode`: `none` for an empty amount, else the multiplier
trimmed, the digits read by `strtoull`, and `amount * m10 / 10`. `errnoRange` is whether
`errno` already held `ERANGE` before the call, which the C code does not reset. -/
def decodeAmount (errnoRange : Bool) (amountstr : List Char) :
    Except String (Option (BitVec 64)) :=
  if amountstr = [] then .ok none
  else
    let (m10, digits) := trimMultiplier amountstr
    let (amount, erange, rest) := strtoull digits
    if amount = BitVec.allOnes 64 ∧ (erange || errnoRange) = true then
      .error ("Invalid amount \x27" ++ String.ofList digits ++ "\x27")
    else if digits = [] ∨ rest ≠ [] then
      .error ("Invalid amount postfix \x27" ++ String.ofList rest ++ "\x27")
    else .ok (some (amount * m10 / 10))

/-- The human-readable part up to the amount: the `ln` prefix and the chain, looked up by
`chainparams_by_bip173`; then the amount. -/
def decodeHrp {Chain : Type} (chainByBip173 : List Char → Option Chain) (errnoRange : Bool)
    (hrp : List Char) : Except String (Chain × Option (BitVec 64)) :=
  let hrpHead := hrp.takeWhile fun c => !c.isDigit
  if hrpHead.take 2 ≠ ['l', 'n'] then
    .error ("Prefix \x27" ++ String.ofList hrpHead ++ "\x27 does not start with ln")
  else
    match chainByBip173 (hrpHead.drop 2) with
    | none => .error ("Unknown chain " ++ String.ofList (hrpHead.drop 2))
    | some chain => (decodeAmount errnoRange (hrp.drop hrpHead.length)).map fun amount =>
      (chain, amount)

/-! ## Encoding -/

/-- The loop of `bolt11_encode_` over all multipliers but the last: the first whose `m10`
divides `x`, else the last. -/
def pickMultiplier (x : BitVec 64) : Multiplier → List Multiplier → Multiplier
  | m, [] => m
  | m, next :: rest => if x % m.m10 = 0 then m else pickMultiplier x next rest

/-- The amount `bolt11_encode_` writes: a whole number of bitcoin with the letter `'\0'`,
which ends the string, else the amount in the multiplier it picks. -/
def encodeAmount (msatoshi : BitVec 64) : List Char :=
  if msatoshi % msatPerBtc = 0 then Nat.toDigits 10 (msatoshi / msatPerBtc).toNat
  else
    let m := pickMultiplier (msatoshi * 10) milli [micro, nano, pico]
    Nat.toDigits 10 (msatoshi * 10 / m.m10).toNat ++ [m.letter]

/-- `ln`, the chain, and the amount if there is one. -/
def encodeHrp (bip173Name : List Char) (msatoshi : Option (BitVec 64)) : List Char :=
  match msatoshi with
  | some m => ['l', 'n'] ++ bip173Name ++ encodeAmount m
  | none => ['l', 'n'] ++ bip173Name

/-! ## The multiplier letters -/

/-- No multiplier letter is a digit. -/
theorem letter_not_digit : ∀ m ∈ multipliers, m.letter.isDigit = false := by
  decide

/-- The letters tell the multipliers apart. -/
theorem find?_letter : ∀ m ∈ multipliers,
    multipliers.find? (fun m' => some m.letter == some m'.letter) = some m := by
  decide

/-- Every multiplier is a positive number of tenths of a msat. -/
theorem m10_pos : ∀ m ∈ multipliers, 0 < m.m10.toNat := by
  decide

/-- An amount ending in a digit has no multiplier. -/
theorem trimMultiplier_toDigits (n : ℕ) : trimMultiplier (Nat.toDigits 10 n) = (10, Nat.toDigits 10 n) := by
  obtain ⟨c, hc⟩ := List.getLast?_isSome.mpr (Nat.toDigits_ne_nil (n := n) (b := 10)) |>
    Option.isSome_iff_exists.mp
  have hdigit : c.isDigit = true := isDigit_of_mem_toDigits (List.mem_of_getLast? hc)
  have hnone : multipliers.find? (fun m => (Nat.toDigits 10 n).getLast? == some m.letter) = none := by
    refine List.find?_eq_none.mpr fun m hm hmatch => ?_
    rw [hc, beq_iff_eq, Option.some.injEq] at hmatch
    rw [hmatch, letter_not_digit m hm] at hdigit
    exact Bool.false_ne_true hdigit
  simp only [trimMultiplier, hnone]

/-- A multiplier letter after the digits is trimmed. -/
theorem trimMultiplier_letter (n : ℕ) {m : Multiplier} (hm : m ∈ multipliers) :
    trimMultiplier (Nat.toDigits 10 n ++ [m.letter]) = (m.m10, Nat.toDigits 10 n) := by
  simp only [trimMultiplier, List.getLast?_append, List.getLast?_singleton, Option.some_or,
    find?_letter m hm, List.dropLast_concat]

/-! ## What the decoder returns -/

/-- `ULLONG_MAX` is the one 64-bit value `strtoull` returns with `errno` as it found it that
the `ERANGE` test still rejects. -/
theorem ofNat_eq_allOnes_iff {n : ℕ} (hn : n < 2 ^ 64) :
    BitVec.ofNat 64 n = BitVec.allOnes 64 ↔ n = 2 ^ 64 - 1 := by
  rw [← BitVec.toNat_inj, BitVec.toNat_ofNat, BitVec.toNat_allOnes, Nat.mod_eq_of_lt hn]

/-- The decoder on digits and a trimmed multiplier: a number that fits in `u64` (and is not
`ULLONG_MAX` when `errno` held `ERANGE` already) is returned as `amount * m10 / 10` in
`u64`. -/
theorem decodeAmount_of_trim (errnoRange : Bool) {amountstr : List Char} {m10 : BitVec 64}
    {n : ℕ} (hne : amountstr ≠ []) (htrim : trimMultiplier amountstr = (m10, Nat.toDigits 10 n))
    (hn : n < 2 ^ 64) (herr : errnoRange = true → n ≠ 2 ^ 64 - 1) :
    decodeAmount errnoRange amountstr = .ok (some (BitVec.ofNat 64 n * m10 / 10)) := by
  have hread := strtoull_toDigits_append n (fun _ h => nomatch h : StopsDigits [])
  rw [List.append_nil, if_neg (by omega)] at hread
  -- the `ERANGE` test fails: `errno` was not set, or the value is not `ULLONG_MAX`
  have hrange : ¬ (BitVec.ofNat 64 n = BitVec.allOnes 64 ∧ (false || errnoRange) = true) := by
    rintro ⟨hmax, hstale⟩
    exact herr (by simpa using hstale) ((ofNat_eq_allOnes_iff hn).mp hmax)
  simp only [decodeAmount, hne, if_false, htrim, hread]
  rw [if_neg hrange]
  simp [Nat.toDigits_ne_nil]

/-- Without a letter the amount is read in msat, through `amount * 10 / 10` in `u64`. -/
theorem decodeAmount_of_digits (errnoRange : Bool) {n : ℕ} (hn : n < 2 ^ 64)
    (herr : errnoRange = true → n ≠ 2 ^ 64 - 1) :
    decodeAmount errnoRange (Nat.toDigits 10 n) = .ok (some (BitVec.ofNat 64 n * 10 / 10)) := by
  exact decodeAmount_of_trim errnoRange Nat.toDigits_ne_nil (trimMultiplier_toDigits n) hn herr

/-- With a letter the amount is `amount * m10 / 10` in `u64`. -/
theorem decodeAmount_of_letter (errnoRange : Bool) {n : ℕ} (hn : n < 2 ^ 64)
    (herr : errnoRange = true → n ≠ 2 ^ 64 - 1) {m : Multiplier} (hm : m ∈ multipliers) :
    decodeAmount errnoRange (Nat.toDigits 10 n ++ [m.letter]) =
      .ok (some (BitVec.ofNat 64 n * m.m10 / 10)) := by
  exact decodeAmount_of_trim errnoRange (by simp) (trimMultiplier_letter n hm) hn herr

/-- Where `amount * m10` does not wrap, the decoder returns the exact amount rounded down to
a whole msat. -/
theorem toNat_decoded {n : ℕ} {m10 : BitVec 64} (hfit : n * m10.toNat < 2 ^ 64) (hpos : 0 < m10.toNat) :
    (BitVec.ofNat 64 n * m10 / 10).toNat = n * m10.toNat / 10 := by
  have hn : n < 2 ^ 64 := lt_of_le_of_lt (Nat.le_mul_of_pos_right n hpos) hfit
  rw [BitVec.toNat_udiv, BitVec.toNat_mul, BitVec.toNat_ofNat, Nat.mod_eq_of_lt hn,
    Nat.mod_eq_of_lt hfit]
  rfl

/-! ## Encoding and decoding -/

/-- The multiplier the encoder picks is one of the table and divides `x`: the loop stops at
one that does, and `p` divides every amount. -/
theorem pickMultiplier_spec (x : BitVec 64) :
    pickMultiplier x milli [micro, nano, pico] ∈ multipliers ∧
      x % (pickMultiplier x milli [micro, nano, pico]).m10 = 0 := by
  have hpico : pico.m10 = 1 := by decide
  simp only [pickMultiplier]
  split_ifs with hmilli hmicro hnano
  · exact ⟨by simp [multipliers], hmilli⟩
  · exact ⟨by simp [multipliers], hmicro⟩
  · exact ⟨by simp [multipliers], hnano⟩
  · exact ⟨by simp [multipliers], by rw [hpico]; exact BitVec.umod_one⟩

/-- Every amount that is not a whole number of bitcoin comes back from its encoding, when
ten times it fits in `u64`. -/
theorem decodeAmount_encodeAmount (errnoRange : Bool) {msatoshi : BitVec 64}
    (h10 : msatoshi.toNat * 10 < 2 ^ 64) (hbtc : msatoshi % msatPerBtc ≠ 0) :
    decodeAmount errnoRange (encodeAmount msatoshi) = .ok (some msatoshi) := by
  rw [encodeAmount, if_neg hbtc]
  obtain ⟨hm, hdvd⟩ := pickMultiplier_spec (msatoshi * 10)
  generalize pickMultiplier (msatoshi * 10) milli [micro, nano, pico] = m at hm hdvd ⊢
  have hpos := m10_pos m hm
  -- the amount written, times `m10`, is ten times the msat
  have hx : (msatoshi * 10).toNat = msatoshi.toNat * 10 := by
    rw [BitVec.toNat_mul, show (10 : BitVec 64).toNat = 10 from rfl]
    exact Nat.mod_eq_of_lt h10
  have hdvd' : m.m10.toNat ∣ msatoshi.toNat * 10 := by
    rw [← hx]
    exact Nat.dvd_of_mod_eq_zero (by rw [← BitVec.toNat_umod, hdvd]; rfl)
  have hamount : (msatoshi * 10 / m.m10).toNat * m.m10.toNat = msatoshi.toNat * 10 := by
    rw [BitVec.toNat_udiv, hx, Nat.div_mul_cancel hdvd']
  have hle : (msatoshi * 10 / m.m10).toNat ≤ msatoshi.toNat * 10 := by
    rw [BitVec.toNat_udiv, hx]
    exact Nat.div_le_self _ _
  rw [decodeAmount_of_letter errnoRange (by omega) (fun _ => by omega) hm]
  congr 2
  apply BitVec.eq_of_toNat_eq
  rw [toNat_decoded (by omega) hpos]
  omega

/-- A whole number of bitcoin is written without a letter, and read back in msat. -/
theorem decodeAmount_encodeAmount_btc (errnoRange : Bool) {msatoshi : BitVec 64}
    (hbtc : msatoshi % msatPerBtc = 0) :
    decodeAmount errnoRange (encodeAmount msatoshi) = .ok (some (msatoshi / msatPerBtc)) := by
  have hsmall : (msatoshi / msatPerBtc).toNat < 2 ^ 37 := by
    rw [BitVec.toNat_udiv, show msatPerBtc.toNat = 100000000000 from rfl]
    have := msatoshi.isLt
    omega
  rw [encodeAmount, if_pos hbtc, decodeAmount_of_digits errnoRange (by omega) (fun _ => by omega)]
  congr 2
  apply BitVec.eq_of_toNat_eq
  have hten : (10 : BitVec 64).toNat = 10 := rfl
  rw [toNat_decoded (by rw [hten]; omega) (by decide), hten]
  omega

/-- The amounts are not exact: `1` (a bitcoin) is read as one msat, `1p` (a tenth of a msat)
as zero instead of being refused, and `18446744074m`, which is 1844674407400000000 msat,
as 29044838 after `amount * m10` wraps; and one bitcoin, written as `1`, comes back as one
msat. -/
theorem decodeAmount_inexact :
    decodeAmount false ['1'] = .ok (some 1) ∧
      decodeAmount false ['1', 'p'] = .ok (some 0) ∧
      decodeAmount false (Nat.toDigits 10 18446744074 ++ ['m']) = .ok (some 29044838) ∧
      decodeAmount false (encodeAmount 100000000000) = .ok (some 1) := by
  have hpico : pico ∈ multipliers := by simp [multipliers]
  have hmilli : milli ∈ multipliers := by simp [multipliers]
  refine ⟨?_, ?_, ?_, ?_⟩
  · rw [show ['1'] = Nat.toDigits 10 1 from rfl,
      decodeAmount_of_digits false (by decide) (by decide)]
    decide
  · rw [show ['1', 'p'] = Nat.toDigits 10 1 ++ [pico.letter] from rfl,
      decodeAmount_of_letter false (by decide) (by decide) hpico]
    decide
  · rw [show ['m'] = [milli.letter] from rfl,
      decodeAmount_of_letter false (by decide) (by decide) hmilli]
    decide
  · rw [decodeAmount_encodeAmount_btc false (by decide)]
    decide

end Dexfin.Bolt11
