import Dexfin.Lib.ShiftRegister
import Dexfin.Bolt11.Fields

/-!
# Bech32 strings

`bech32_encode` and `bech32_decode` of `src/lightning/common/bech32.c`, which turn the
human-readable part and the 5-bit values of an invoice into a string and back. Strings are the
characters before their terminating zero; a `char` is a `Char` whose code is the byte, and the
codes from 128 up, negative as a signed `char`, fail the same tests in the model as in the code.
`size_t` lengths are natural numbers.

The checksum is a register of 30 bits stepped by `bech32_polymod_step`. That step distributes
over exclusive or (`bech32PolymodStep_xor`) and is a plain shift by five below `2 ^ 25`
(`bech32PolymodStep_of_lt`), so the register library applies: the six checksum characters that
`bech32_encode` writes are the one string of six symbols that brings the checksum to 1
(`feed_checksumDigits`, `eq_checksumDigits_of_feed`).

Both functions are described once by a spec lemma (`bech32Encode_eq_some`,
`bech32Decode_split_eq_some`), and the two round trips follow from those: a string that
`bech32_encode` writes decodes to what it was given (`bech32Decode_bech32Encode`), and a string
that `bech32_decode` accepts is written again, lowered, from what it returned
(`bech32Encode_bech32Decode`).
-/

namespace Dexfin.Bolt11

open ShiftRegister

/-! ## The checksum register -/

/-- `-((b >> i) & 1) & gen`: the generator word when bit `i` of `b` is set, zero otherwise. -/
def polymodTerm (b : BitVec 8) (i : ℕ) (gen : BitVec 32) : BitVec 32 :=
  -(((b >>> i) &&& 1).setWidth 32) &&& gen

/-- `bech32_polymod_step`. The generator words are `unsigned long` in the source; they fit in
32 bits, so the step computes the same in 32-bit words. -/
def bech32PolymodStep (pre : BitVec 32) : BitVec 32 :=
  let b : BitVec 8 := (pre >>> 25).setWidth 8
  ((pre &&& 0x1FFFFFF) <<< 5) ^^^
    polymodTerm b 0 0x3b6a57b2 ^^^
    polymodTerm b 1 0x26508e6d ^^^
    polymodTerm b 2 0x1ea119fa ^^^
    polymodTerm b 3 0x3d4233dd ^^^
    polymodTerm b 4 0x2a1462b3

theorem polymodTerm_eq (b : BitVec 8) (i : ℕ) (gen : BitVec 32) :
    polymodTerm b i gen = if b.getLsbD i then gen else 0 := by
  have hbit : (b >>> i) &&& 1 = (BitVec.ofBool ((b >>> i).getLsbD 0)).setWidth 8 :=
    BitVec.and_one_eq_setWidth_ofBool_getLsbD
  rw [polymodTerm, hbit, BitVec.getLsbD_ushiftRight, Nat.add_zero]
  cases b.getLsbD i
  · simp
  · have hones : -((BitVec.ofBool true).setWidth 8).setWidth 32 = BitVec.allOnes 32 := by decide
    rw [hones, BitVec.allOnes_and, if_pos rfl]

theorem polymodTerm_xor (b b' : BitVec 8) (i : ℕ) (gen : BitVec 32) :
    polymodTerm (b ^^^ b') i gen = polymodTerm b i gen ^^^ polymodTerm b' i gen := by
  simp only [polymodTerm_eq, BitVec.getLsbD_xor]
  cases b.getLsbD i <;> cases b'.getLsbD i <;> simp

theorem xor_and_distrib (x y m : BitVec 32) : (x ^^^ y) &&& m = (x &&& m) ^^^ (y &&& m) := by
  ext i
  simp [Bool.and_xor_distrib_right]

/-- The step distributes over exclusive or: every term of it is linear in the register. -/
theorem bech32PolymodStep_xor (x y : BitVec 32) :
    bech32PolymodStep (x ^^^ y) = bech32PolymodStep x ^^^ bech32PolymodStep y := by
  simp only [bech32PolymodStep, BitVec.ushiftRight_xor_distrib, BitVec.setWidth_xor,
    xor_and_distrib, BitVec.shiftLeft_xor_distrib, polymodTerm_xor]
  ac_rfl

/-- Below `2 ^ 25` no generator word is added: the step only shifts. -/
theorem bech32PolymodStep_of_lt {x : BitVec 32} (hx : x.toNat < 2 ^ 25) :
    bech32PolymodStep x = x <<< 5 := by
  have hb : (x >>> 25).setWidth 8 = 0#8 := by
    apply BitVec.eq_of_toNat_eq
    simp only [BitVec.toNat_setWidth, BitVec.toNat_ushiftRight, Nat.shiftRight_eq_div_pow,
      BitVec.toNat_ofNat]
    omega
  have hlow : x &&& 0x1FFFFFF = x := by
    apply BitVec.eq_of_toNat_eq
    rw [BitVec.toNat_and, show (0x1FFFFFF : BitVec 32).toNat = 2 ^ 25 - 1 from rfl,
      Nat.and_two_pow_sub_one_eq_mod, Nat.mod_eq_of_lt hx]
  simp only [bech32PolymodStep, hb, hlow, polymodTerm_eq, BitVec.getLsbD_zero]
  simp

theorem toNat_polymodTerm_lt (b : BitVec 8) (i : ℕ) {gen : BitVec 32}
    (hgen : gen.toNat < 2 ^ 30) : (polymodTerm b i gen).toNat < 2 ^ 30 := by
  rw [polymodTerm_eq]
  split
  · exact hgen
  · simp

/-- The register keeps to 30 bits: so do the shifted low bits and every generator word. -/
theorem toNat_bech32PolymodStep_lt (x : BitVec 32) : (bech32PolymodStep x).toNat < 2 ^ 30 := by
  have hlow : ((x &&& 0x1FFFFFF) <<< 5).toNat < 2 ^ 30 := by
    have hand : (x &&& 0x1FFFFFF).toNat ≤ 2 ^ 25 - 1 := by
      rw [BitVec.toNat_and]
      exact Nat.and_le_right
    rw [BitVec.toNat_shiftLeft, Nat.shiftLeft_eq]
    omega
  simp only [bech32PolymodStep, BitVec.toNat_xor]
  refine Nat.xor_lt_two_pow (Nat.xor_lt_two_pow (Nat.xor_lt_two_pow (Nat.xor_lt_two_pow
    (Nat.xor_lt_two_pow hlow ?_) ?_) ?_) ?_) ?_ <;>
    exact toNat_polymodTerm_lt _ _ (by decide)

/-- The checksum of a string of values, from the 1 that both functions start with. -/
def polymod (vs : List (BitVec 32)) : BitVec 32 :=
  feed bech32PolymodStep 1 vs

/-- The six checksum symbols for a register holding `c`: the digits of its value after six
more steps, with the final 1 flipped. -/
def checksumDigits (c : BitVec 32) : List (BitVec 32) :=
  digits 5 6 (bech32PolymodStep^[6] c ^^^ 1)

theorem toNat_iterate_lt (c : BitVec 32) {n : ℕ} (hn : 0 < n) :
    (bech32PolymodStep^[n] c).toNat < 2 ^ 30 := by
  obtain ⟨n, rfl⟩ := Nat.exists_eq_succ_of_ne_zero hn.ne'
  rw [Function.iterate_succ_apply']
  exact toNat_bech32PolymodStep_lt _

/-- Feeding the checksum symbols brings the register to 1. -/
theorem feed_checksumDigits (c : BitVec 32) :
    feed bech32PolymodStep c (checksumDigits c) = 1 := by
  have hfit : (bech32PolymodStep^[6] c ^^^ 1).toNat < 2 ^ (5 * 6) := by
    rw [BitVec.toNat_xor]
    exact Nat.xor_lt_two_pow (toNat_iterate_lt c (by decide)) (by decide)
  rw [feed_eq_iterate_xor bech32PolymodStep_xor, checksumDigits, length_digits,
    feed_zero_digits (fun _ => bech32PolymodStep_of_lt) 6 (by decide) _ hfit,
    ← BitVec.xor_assoc, BitVec.xor_self, BitVec.zero_xor]

/-- Six symbols of five bits that bring the register to 1 are the checksum symbols. -/
theorem eq_checksumDigits_of_feed {c : BitVec 32} {gs : List (BitVec 32)} (hlen : gs.length = 6)
    (hgs : ∀ g ∈ gs, g.toNat < 2 ^ 5) (hone : feed bech32PolymodStep c gs = 1) :
    gs = checksumDigits c := by
  have hzero : feed bech32PolymodStep 0 gs = bech32PolymodStep^[6] c ^^^ 1 := by
    rw [feed_eq_iterate_xor bech32PolymodStep_xor, hlen] at hone
    rw [← hone, ← BitVec.xor_assoc, BitVec.xor_self, BitVec.zero_xor]
  have h := digits_feed_zero (fun _ => bech32PolymodStep_of_lt) hgs (by omega) (by omega)
  rw [hlen, hzero] at h
  exact h.symm

/-! ## The charset -/

/-- `bech32_charset_rev`, for the codes below 128. -/
def bech32CharsetRev : List ℤ :=
  [-1, -1, -1, -1, -1, -1, -1, -1, -1, -1, -1, -1, -1, -1, -1, -1,
   -1, -1, -1, -1, -1, -1, -1, -1, -1, -1, -1, -1, -1, -1, -1, -1,
   -1, -1, -1, -1, -1, -1, -1, -1, -1, -1, -1, -1, -1, -1, -1, -1,
   15, -1, 10, 17, 21, 20, 26, 30,  7,  5, -1, -1, -1, -1, -1, -1,
   -1, 29, -1, 24, 13, 25,  9,  8, 23, -1, 18, 22, 31, 27, 19, -1,
    1,  0,  3, 16, 11, 28, 12, 14,  6,  4,  2, -1, -1, -1, -1, -1,
   -1, 29, -1, 24, 13, 25,  9,  8, 23, -1, 18, 22, 31, 27, 19, -1,
    1,  0,  3, 16, 11, 28, 12, 14,  6,  4,  2, -1, -1, -1, -1, -1]

/-- `v` of `bech32_decode`'s data loop: `-1` for a character with its high bit set, else its
entry in `bech32_charset_rev`. -/
def charsetRevAt (ch : Char) : ℤ :=
  if ch.toNat &&& 0x80 ≠ 0 then -1 else bech32CharsetRev.getD ch.toNat (-1)

theorem charsetRevAt_charset_fin : ∀ v : Fin 32, charsetRevAt (bech32Charset.getD v 'q') = v := by
  decide

/-- Each charset character reads back as its own index. -/
theorem charsetRevAt_charset {v : ℕ} (hv : v < 32) : charsetRevAt (bech32Charset.getD v 'q') = v :=
  charsetRevAt_charset_fin ⟨v, hv⟩

/-- `(ch - 'A') + 'a'` on an upper-case letter, as `bech32_decode`'s first loop lowers
characters; other characters are kept. -/
def lowerChar (ch : Char) : Char :=
  if 'A' ≤ ch ∧ ch ≤ 'Z' then Char.ofNat (ch.toNat - 'A'.toNat + 'a'.toNat) else ch

theorem charset_charsetRevAt_fin : ∀ n : Fin 128, charsetRevAt (Char.ofNat n) ≠ -1 →
    0 ≤ charsetRevAt (Char.ofNat n) ∧ charsetRevAt (Char.ofNat n) < 32 ∧
      bech32Charset.getD (charsetRevAt (Char.ofNat n)).toNat 'q' = lowerChar (Char.ofNat n) := by
  decide

/-- A character that reads as a value is that value's charset character, up to case. -/
theorem charset_charsetRevAt {ch : Char} (hch : charsetRevAt ch ≠ -1) :
    0 ≤ charsetRevAt ch ∧ charsetRevAt ch < 32 ∧
      bech32Charset.getD (charsetRevAt ch).toNat 'q' = lowerChar ch := by
  have hlt : ch.toNat < 128 := by
    by_contra hge
    apply hch
    by_cases hbit : ch.toNat &&& 0x80 ≠ 0
    · simp [charsetRevAt, hbit]
    · simp only [charsetRevAt, hbit, if_false]
      rw [List.getD_eq_getElem?_getD, List.getElem?_eq_none (by simp [bech32CharsetRev]; omega),
        Option.getD_none]
  have h := charset_charsetRevAt_fin ⟨ch.toNat, hlt⟩
  simp only [Char.ofNat_toNat] at h
  exact h hch

theorem charset_ne_one {v : ℕ} (hv : v < 32) : bech32Charset.getD v 'q' ≠ '1' := by
  have h : ∀ v : Fin 32, bech32Charset.getD v 'q' ≠ '1' := by decide
  exact h ⟨v, hv⟩

theorem charset_not_upper {v : ℕ} (hv : v < 32) :
    ¬ ('A' ≤ bech32Charset.getD v 'q' ∧ bech32Charset.getD v 'q' ≤ 'Z') := by
  have h : ∀ v : Fin 32, ¬ ('A' ≤ bech32Charset.getD v 'q' ∧ bech32Charset.getD v 'q' ≤ 'Z') := by
    decide
  exact h ⟨v, hv⟩

/-! ## Encoding -/

/-- The two tests of `bech32_encode`'s first loop that return 0: a character below 33 or above
126, or an upper-case one. -/
def hrpCharRejected (ch : Char) : Prop :=
  (ch.toNat < 33 ∨ ch.toNat > 126) ∨ ('A' ≤ ch ∧ ch ≤ 'Z')

instance : DecidablePred hrpCharRejected :=
  inferInstanceAs (DecidablePred fun ch : Char => (ch.toNat < 33 ∨ ch.toNat > 126) ∨ ('A' ≤ ch ∧ ch ≤ 'Z'))

/-- A round of `bech32_encode`'s first loop: the tests, then the high bits fed. -/
def encodeHrpChar (chk : BitVec 32) (ch : Char) : Option (BitVec 32) :=
  if hrpCharRejected ch then none
  else some (bech32PolymodStep chk ^^^ BitVec.ofNat 32 (ch.toNat >>> 5))

/-- A round of the second loop over the human-readable part, in both functions: its low five
bits fed. -/
def hrpLowStep (chk : BitVec 32) (ch : Char) : BitVec 32 :=
  bech32PolymodStep chk ^^^ BitVec.ofNat 32 (ch.toNat &&& 0x1f)

/-- A round of `bech32_encode`'s data loop: a value of more than five bits fails. -/
def encodeDataValue (chk : BitVec 32) (d : BitVec 8) : Option (BitVec 32) :=
  if d >>> 5 ≠ 0 then none else some (bech32PolymodStep chk ^^^ d.setWidth 32)

/-- `bech32_encode`: the string it writes to `output`, or `none` where it returns 0. -/
def bech32Encode (hrp : List Char) (data : List (BitVec 8)) (maxInputLen : ℕ) :
    Option (List Char) :=
  match hrp.foldlM encodeHrpChar 1 with
  | none => none
  | some chk =>
    if hrp.length + 7 + data.length > maxInputLen then none
    else
      let chk := hrp.foldl hrpLowStep (bech32PolymodStep chk)
      match data.foldlM encodeDataValue chk with
      | none => none
      | some chk =>
        let chk := bech32PolymodStep^[6] chk ^^^ 1
        some (hrp ++ '1' :: (data.map fun d => bech32Charset.getD d.toNat 'q') ++
          (List.range 6).map fun i => bech32Charset.getD ((chk >>> ((5 - i) * 5)) &&& 0x1f).toNat 'q')

/-- The human-readable part as the checksum reads it: the high bits of each character, a zero,
then the low five bits of each (`ExpandHRP` of `src/bitcoin/src/bech32.cpp`). -/
def expandHrp (hrp : List Char) : List (BitVec 32) :=
  hrp.map (fun ch => BitVec.ofNat 32 (ch.toNat >>> 5)) ++
    0 :: hrp.map fun ch => BitVec.ofNat 32 (ch.toNat &&& 0x1f)

/-- After the loop over the high bits, the step with no symbol and the loop over the low bits
have fed the expansion. -/
theorem foldl_hrpLowStep (hrp : List Char) (c : BitVec 32) :
    hrp.foldl hrpLowStep (bech32PolymodStep (feed bech32PolymodStep c
        (hrp.map fun ch => BitVec.ofNat 32 (ch.toNat >>> 5)))) =
      feed bech32PolymodStep c (expandHrp hrp) := by
  have hzero : ∀ x : BitVec 32, x ^^^ 0 = x := fun _ => BitVec.xor_zero
  rw [expandHrp, feed_append, feed_cons, hzero,
    feed_map (fun ch : Char => BitVec.ofNat 32 (ch.toNat &&& 0x1f))]
  rfl

theorem foldlM_encodeHrpChar_eq_some {hrp : List Char} {c c' : BitVec 32} :
    hrp.foldlM encodeHrpChar c = some c' ↔ (∀ ch ∈ hrp, ¬ hrpCharRejected ch) ∧
      feed bech32PolymodStep c (hrp.map fun ch => BitVec.ofNat 32 (ch.toNat >>> 5)) = c' := by
  rw [foldlM_guard_eq_some (F := encodeHrpChar) (p := hrpCharRejected)
    (g := fun chk ch => bech32PolymodStep chk ^^^ BitVec.ofNat 32 (ch.toNat >>> 5))
    (fun _ _ => rfl), feed_map]

theorem ushiftRight_five_eq_zero_iff (d : BitVec 8) : d >>> 5 = 0 ↔ d.toNat < 32 := by
  rw [← BitVec.toNat_inj, BitVec.toNat_ushiftRight, Nat.shiftRight_eq_div_pow]
  show d.toNat / 2 ^ 5 = 0 ↔ _
  omega

theorem foldlM_encodeDataValue_eq_some {data : List (BitVec 8)} {c c' : BitVec 32} :
    data.foldlM encodeDataValue c = some c' ↔ (∀ d ∈ data, d.toNat < 32) ∧
      feed bech32PolymodStep c (data.map (·.setWidth 32)) = c' := by
  rw [foldlM_guard_eq_some (F := encodeDataValue) (p := fun d => d >>> 5 ≠ 0)
    (g := fun chk d => bech32PolymodStep chk ^^^ d.setWidth 32) (fun _ _ => rfl), feed_map]
  simp only [ne_eq, not_not, ushiftRight_five_eq_zero_iff]

/-- The six characters written after the data are the charset characters of the digits. -/
theorem checksumChars_eq (chk : BitVec 32) :
    (List.range 6).map (fun i => bech32Charset.getD ((chk >>> ((5 - i) * 5)) &&& 0x1f).toNat 'q') =
      (digits 5 6 chk).map fun g => bech32Charset.getD g.toNat 'q' := by
  simp only [digits, ← BitVec.shiftRight_add]
  rfl

/-- **`bech32_encode`.** It writes a string exactly when every character of the human-readable
part is printable and not upper case, the whole fits in `max_input_len`, and every value has
five bits: the part, the separator, the values' characters and the checksum's. -/
theorem bech32Encode_eq_some {hrp : List Char} {data : List (BitVec 8)} {maxInputLen : ℕ}
    {output : List Char} :
    bech32Encode hrp data maxInputLen = some output ↔
      (∀ ch ∈ hrp, ¬ hrpCharRejected ch) ∧ hrp.length + 7 + data.length ≤ maxInputLen ∧
        (∀ d ∈ data, d.toNat < 32) ∧
        output = hrp ++ '1' :: (data.map fun d => bech32Charset.getD d.toNat 'q') ++
          (checksumDigits (polymod (expandHrp hrp ++ data.map (·.setWidth 32)))).map
            fun g => bech32Charset.getD g.toNat 'q' := by
  rw [bech32Encode]
  cases h1 : hrp.foldlM encodeHrpChar 1 with
  | none =>
    -- the first loop fails only on a rejected character
    simp only [reduceCtorEq, false_iff]
    rintro ⟨hhrp, -⟩
    rw [foldlM_encodeHrpChar_eq_some.mpr ⟨hhrp, rfl⟩] at h1
    cases h1
  | some chk =>
    obtain ⟨hhrp, rfl⟩ := foldlM_encodeHrpChar_eq_some.mp h1
    dsimp only
    by_cases hlen : hrp.length + 7 + data.length > maxInputLen
    · simp only [if_pos hlen, reduceCtorEq, false_iff]
      omega
    · rw [if_neg hlen, foldl_hrpLowStep]
      cases h2 : data.foldlM encodeDataValue (feed bech32PolymodStep 1 (expandHrp hrp)) with
      | none =>
        simp only [reduceCtorEq, false_iff]
        rintro ⟨-, -, hdata, -⟩
        rw [foldlM_encodeDataValue_eq_some.mpr ⟨hdata, rfl⟩] at h2
        cases h2
      | some chk =>
        obtain ⟨hdata, rfl⟩ := foldlM_encodeDataValue_eq_some.mp h2
        dsimp only
        rw [checksumChars_eq, polymod, feed_append, checksumDigits, Option.some.injEq]
        constructor
        · rintro rfl
          exact ⟨hhrp, by omega, hdata, rfl⟩
        · rintro ⟨-, -, -, rfl⟩
          rfl

/-! ## Decoding -/

/-- What `bech32_decode`'s loops carry: the checksum, `have_lower`, `have_upper`, and what they
have written to `hrp` and `data`. -/
structure Bech32State where
  /-- `chk`. -/
  chk : BitVec 32
  /-- `have_lower`. -/
  haveLower : Bool
  /-- `have_upper`. -/
  haveUpper : Bool
  /-- The characters written to `hrp`. -/
  hrp : List Char
  /-- The values written to `data`. -/
  data : List (BitVec 8)
  deriving DecidableEq, Repr

/-- A round of `bech32_decode`'s first loop past its test: a lower-case letter sets
`have_lower`; otherwise an upper-case one sets `have_upper` and is lowered; the character is
written to `hrp` and its high bits fed. -/
def hrpCharStep (st : Bech32State) (ch : Char) : Bech32State :=
  let isLower := decide ('a' ≤ ch ∧ ch ≤ 'z')
  let isUpper := decide ('A' ≤ ch ∧ ch ≤ 'Z')
  { st with
    haveLower := st.haveLower || isLower
    haveUpper := st.haveUpper || (!isLower && isUpper)
    hrp := st.hrp ++ [lowerChar ch]
    chk := bech32PolymodStep st.chk ^^^ BitVec.ofNat 32 ((lowerChar ch).toNat >>> 5) }

/-- A round of `bech32_decode`'s first loop: a character below 33 or above 126 fails. -/
def decodeHrpChar (st : Bech32State) (ch : Char) : Option Bech32State :=
  if ch.toNat < 33 ∨ ch.toNat > 126 then none else some (hrpCharStep st ch)

/-- A round of `bech32_decode`'s data loop at position `i` once `v` is not `-1`: the case flags
of the character, `v` fed, and `v` written to `data` unless it is one of the last six. -/
def dataCharStep (inputLen : ℕ) (st : Bech32State) (p : Char × ℕ) : Bech32State :=
  let (ch, i) := p
  let v := charsetRevAt ch
  { st with
    haveLower := st.haveLower || decide ('a' ≤ ch ∧ ch ≤ 'z')
    haveUpper := st.haveUpper || decide ('A' ≤ ch ∧ ch ≤ 'Z')
    chk := bech32PolymodStep st.chk ^^^ BitVec.ofInt 32 v
    data := if i + 6 < inputLen then st.data ++ [BitVec.ofInt 8 v] else st.data }

/-- A round of `bech32_decode`'s data loop: a character that reads as `-1` fails. The case
flags it sets before failing are not observed. -/
def decodeDataChar (inputLen : ℕ) (st : Bech32State) (p : Char × ℕ) : Option Bech32State :=
  if charsetRevAt p.1 = -1 then none else some (dataCharStep inputLen st p)

/-- `bech32_decode`: the lowered human-readable part and the data before the checksum that it
writes to `hrp` and `data`, or `none` where it returns 0. The data loop runs over the
characters after the separator with their positions `i` in `input`. -/
def bech32Decode (input : List Char) (maxInputLen : ℕ) : Option (List Char × List (BitVec 8)) :=
  let inputLen := input.length
  if inputLen < 8 ∨ inputLen > maxInputLen then none
  else
    -- `*data_len`: the characters after the last '1'
    let dataLen := (input.reverse.takeWhile (· != '1')).length
    let hrpLen := inputLen - (1 + dataLen)
    if 1 + dataLen ≥ inputLen ∨ dataLen < 6 then none
    else
      match (input.take hrpLen).foldlM decodeHrpChar ⟨1, false, false, [], []⟩ with
      | none => none
      | some st =>
        let chk := (input.take hrpLen).foldl hrpLowStep (bech32PolymodStep st.chk)
        match ((input.drop (hrpLen + 1)).zipIdx (hrpLen + 1)).foldlM (decodeDataChar inputLen)
            { st with chk } with
        | none => none
        | some st =>
          if st.haveLower ∧ st.haveUpper then none
          else if st.chk = 1 then some (st.hrp, st.data) else none

/-! ### The loops of `bech32_decode` -/

theorem char_le_iff {a b : Char} : a ≤ b ↔ a.toNat ≤ b.toNat := by
  rw [Char.le_def, UInt32.le_iff_toNat_le]
  rfl

theorem isUpper_iff (ch : Char) : ('A' ≤ ch ∧ ch ≤ 'Z') ↔ 65 ≤ ch.toNat ∧ ch.toNat ≤ 90 := by
  simp only [char_le_iff]
  rfl

theorem isLower_iff (ch : Char) : ('a' ≤ ch ∧ ch ≤ 'z') ↔ 97 ≤ ch.toNat ∧ ch.toNat ≤ 122 := by
  simp only [char_le_iff]
  rfl

theorem toNat_ofNat_of_valid {n : ℕ} (h : n.isValidChar) : (Char.ofNat n).toNat = n := by
  rw [Char.ofNat, dif_pos h]
  rfl

/-- No character is both a lower-case and an upper-case letter, so the `else if` of the first
loop tests upper case alone. -/
theorem not_lower_and_upper (ch : Char) :
    (!decide ('a' ≤ ch ∧ ch ≤ 'z') && decide ('A' ≤ ch ∧ ch ≤ 'Z')) =
      decide ('A' ≤ ch ∧ ch ≤ 'Z') := by
  by_cases hup : 'A' ≤ ch ∧ ch ≤ 'Z'
  · have hlow : ¬ ('a' ≤ ch ∧ ch ≤ 'z') := by
      rw [isUpper_iff] at hup
      rw [isLower_iff]
      omega
    simp [hup, hlow]
  · simp [hup]

theorem toNat_lowerChar (ch : Char) :
    (lowerChar ch).toNat = if 'A' ≤ ch ∧ ch ≤ 'Z' then ch.toNat + 32 else ch.toNat := by
  unfold lowerChar
  split
  · next hup =>
    rw [isUpper_iff] at hup
    simp only [show 'A'.toNat = 65 from rfl, show 'a'.toNat = 97 from rfl]
    rw [toNat_ofNat_of_valid (by simp only [Nat.isValidChar]; omega)]
    omega
  · rfl

/-- Lowering keeps a character's low five bits, which the second loop reads from the input. -/
theorem lowerChar_low (ch : Char) : (lowerChar ch).toNat &&& 0x1f = ch.toNat &&& 0x1f := by
  rw [toNat_lowerChar, show (0x1f : ℕ) = 2 ^ 5 - 1 from rfl, Nat.and_two_pow_sub_one_eq_mod,
    Nat.and_two_pow_sub_one_eq_mod]
  split <;> omega

theorem foldlM_decodeHrpChar_eq_some {l : List Char} {st st' : Bech32State} :
    l.foldlM decodeHrpChar st = some st' ↔
      (∀ ch ∈ l, ¬ (ch.toNat < 33 ∨ ch.toNat > 126)) ∧ l.foldl hrpCharStep st = st' :=
  foldlM_guard_eq_some (F := decodeHrpChar) (p := fun ch => ch.toNat < 33 ∨ ch.toNat > 126)
    (g := hrpCharStep) (fun _ _ => rfl)

/-- The first loop: the high bits of the lowered characters fed, the lowered characters
written, and the case flags of all of them. -/
theorem foldl_hrpCharStep (l : List Char) (st : Bech32State) :
    l.foldl hrpCharStep st =
      { chk := feed bech32PolymodStep st.chk
          (l.map fun ch => BitVec.ofNat 32 ((lowerChar ch).toNat >>> 5))
        haveLower := st.haveLower || l.any fun ch => decide ('a' ≤ ch ∧ ch ≤ 'z')
        haveUpper := st.haveUpper || l.any fun ch => decide ('A' ≤ ch ∧ ch ≤ 'Z')
        hrp := st.hrp ++ l.map lowerChar
        data := st.data } := by
  induction l generalizing st with
  | nil => simp
  | cons ch l ih =>
    rw [List.foldl_cons, ih]
    simp only [hrpCharStep, not_lower_and_upper, List.map_cons, feed_cons, List.any_cons,
      Bool.or_assoc, List.append_assoc, List.singleton_append]

theorem foldlM_decodeDataChar_eq_some {n : ℕ} {l : List (Char × ℕ)} {st st' : Bech32State} :
    l.foldlM (decodeDataChar n) st = some st' ↔
      (∀ p ∈ l, ¬ charsetRevAt p.1 = -1) ∧ l.foldl (dataCharStep n) st = st' :=
  foldlM_guard_eq_some (F := decodeDataChar n) (p := fun p => charsetRevAt p.1 = -1)
    (g := dataCharStep n) (fun _ _ => rfl)

/-- The data loop: every value fed, the case flags of every character, and the values at
positions more than six before the end written. -/
theorem foldl_dataCharStep (n : ℕ) (l : List (Char × ℕ)) (st : Bech32State) :
    l.foldl (dataCharStep n) st =
      { chk := feed bech32PolymodStep st.chk (l.map fun p => BitVec.ofInt 32 (charsetRevAt p.1))
        haveLower := st.haveLower || l.any fun p => decide ('a' ≤ p.1 ∧ p.1 ≤ 'z')
        haveUpper := st.haveUpper || l.any fun p => decide ('A' ≤ p.1 ∧ p.1 ≤ 'Z')
        hrp := st.hrp
        data := st.data ++ (l.filter fun p => p.2 + 6 < n).map
          fun p => BitVec.ofInt 8 (charsetRevAt p.1) } := by
  induction l generalizing st with
  | nil => simp
  | cons p l ih =>
    rw [List.foldl_cons, ih]
    simp only [dataCharStep, List.map_cons, feed_cons, List.any_cons, Bool.or_assoc,
      List.filter_cons]
    by_cases hp : p.2 + 6 < n <;> simp [hp]

/-- The positions more than six before the end of a string that starts at `k` are those of
all but its last six characters. -/
theorem filter_zipIdx_lt {α : Type*} (l : List α) (k : ℕ) :
    (l.zipIdx k).filter (fun p => p.2 + 6 < k + l.length) = (l.take (l.length - 6)).zipIdx k := by
  have hsplit : l.zipIdx k = (l.take (l.length - 6)).zipIdx k ++
      (l.drop (l.length - 6)).zipIdx (k + (l.take (l.length - 6)).length) := by
    rw [← List.zipIdx_append, List.take_append_drop]
  have hkeep : ((l.take (l.length - 6)).zipIdx k).filter (fun p => p.2 + 6 < k + l.length) =
      (l.take (l.length - 6)).zipIdx k := by
    refine List.filter_eq_self.mpr fun p hp => ?_
    have := List.mem_zipIdx hp
    simp only [List.length_take] at this
    simp only [decide_eq_true_eq]
    omega
  have hdrop : ((l.drop (l.length - 6)).zipIdx (k + (l.take (l.length - 6)).length)).filter
      (fun p => p.2 + 6 < k + l.length) = [] := by
    refine List.filter_eq_nil_iff.mpr fun p hp => ?_
    have := List.mem_zipIdx hp
    simp only [List.length_take, List.length_drop] at this
    simp only [decide_eq_true_eq]
    omega
  rw [hsplit, List.filter_append, hkeep, hdrop, List.append_nil]

theorem map_zipIdx_fst {α β : Type*} (f : α → β) (l : List α) (k : ℕ) :
    (l.zipIdx k).map (fun p => f p.1) = l.map f := by
  conv_rhs => rw [← List.zipIdx_map_fst k l]
  rw [List.map_map]
  rfl

theorem any_zipIdx_fst {α : Type*} (f : α → Bool) (l : List α) (k : ℕ) :
    (l.zipIdx k).any (fun p => f p.1) = l.any f := by
  conv_rhs => rw [← List.zipIdx_map_fst k l]
  rw [List.any_map]
  rfl

theorem forall_zipIdx_fst {α : Type*} (P : α → Prop) (l : List α) (k : ℕ) :
    (∀ p ∈ l.zipIdx k, P p.1) ↔ ∀ x ∈ l, P x := by
  conv_rhs => rw [← List.zipIdx_map_fst k l]
  exact List.forall_mem_map.symm

/-- The two loops over the human-readable part feed the expansion of the lowered part: lowering
keeps the low bits the second loop reads from the input. -/
theorem foldl_hrpLowStep_lower (A : List Char) (c : BitVec 32) :
    A.foldl hrpLowStep (bech32PolymodStep (feed bech32PolymodStep c
        (A.map fun ch => BitVec.ofNat 32 ((lowerChar ch).toNat >>> 5)))) =
      feed bech32PolymodStep c (expandHrp (A.map lowerChar)) := by
  have hlow : ∀ chk ch, hrpLowStep chk (lowerChar ch) = hrpLowStep chk ch := by
    intro chk ch
    rw [hrpLowStep, hrpLowStep, lowerChar_low]
  rw [← foldl_hrpLowStep, List.foldl_map, List.map_map]
  simp only [hlow, Function.comp_def]

/-! ### The separator -/

/-- The scan for `*data_len` stops at the last separator. -/
theorem takeWhile_reverse_split (A B : List Char) (hB : '1' ∉ B) :
    ((A ++ '1' :: B).reverse.takeWhile (· != '1')).length = B.length := by
  have hpos : ∀ ch ∈ B.reverse, (ch != '1') = true := by
    intro ch hch
    have : ch ≠ '1' := fun h => hB (h ▸ List.mem_reverse.mp hch)
    simpa using this
  rw [List.reverse_append, List.reverse_cons, List.append_assoc, List.singleton_append,
    List.takeWhile_append_of_pos hpos, List.takeWhile_cons]
  simp

/-- When the scan stops short of the start, the string splits at its last separator. -/
theorem exists_split_of_takeWhile (input : List Char)
    (h : (input.reverse.takeWhile (· != '1')).length < input.length) :
    ∃ A B, input = A ++ '1' :: B ∧ '1' ∉ B ∧
      B.length = (input.reverse.takeWhile (· != '1')).length := by
  have hne : input.reverse.dropWhile (· != '1') ≠ [] := by
    intro hnil
    have hsplit := List.takeWhile_append_dropWhile (p := (· != '1')) (l := input.reverse)
    rw [hnil, List.append_nil] at hsplit
    have := congrArg List.length hsplit
    simp only [List.length_reverse] at this
    omega
  obtain ⟨x, rest, hxr⟩ := List.exists_cons_of_ne_nil hne
  have hx : x = '1' := by
    have := List.head_dropWhile_not (· != '1') hne
    simp only [hxr, List.head_cons, bne_eq_false_iff_eq] at this
    exact this
  have hsplit := List.takeWhile_append_dropWhile (p := (· != '1')) (l := input.reverse)
  rw [hxr, hx] at hsplit
  refine ⟨rest.reverse, (input.reverse.takeWhile (· != '1')).reverse, ?_, ?_, by simp⟩
  · have hrev : input = (input.reverse.takeWhile (· != '1') ++ '1' :: rest).reverse := by
      rw [hsplit, List.reverse_reverse]
    conv_lhs => rw [hrev]
    simp
  · intro hmem
    have := List.all_eq_true.mp List.all_takeWhile _ (List.mem_reverse.mp hmem)
    simp at this

/-! ### The spec of `bech32_decode` -/

/-- **`bech32_decode`.** On a string split at its last separator, it returns exactly when the
part before is not empty, there are six characters or more after it, the whole fits in
`max_input_len`, every character before is printable, every character after reads as a value,
the string is not of mixed case, and the checksum over the lowered part and the values is 1: the
lowered part, and the values but the last six. -/
theorem bech32Decode_split_eq_some {A B : List Char} (hB : '1' ∉ B) {maxInputLen : ℕ}
    {r : List Char × List (BitVec 8)} :
    bech32Decode (A ++ '1' :: B) maxInputLen = some r ↔
      A ≠ [] ∧ 6 ≤ B.length ∧ A.length + 1 + B.length ≤ maxInputLen ∧
        (∀ ch ∈ A, ¬ (ch.toNat < 33 ∨ ch.toNat > 126)) ∧ (∀ ch ∈ B, charsetRevAt ch ≠ -1) ∧
        ¬ (((A ++ B).any fun ch => decide ('a' ≤ ch ∧ ch ≤ 'z')) = true ∧
          ((A ++ B).any fun ch => decide ('A' ≤ ch ∧ ch ≤ 'Z')) = true) ∧
        polymod (expandHrp (A.map lowerChar) ++
          B.map fun ch => BitVec.ofInt 32 (charsetRevAt ch)) = 1 ∧
        r = (A.map lowerChar,
          (B.take (B.length - 6)).map fun ch => BitVec.ofInt 8 (charsetRevAt ch)) := by
  have hlen : (A ++ '1' :: B).length = A.length + 1 + B.length := by
    simp only [List.length_append, List.length_cons]
    omega
  have hhrp : A.length + 1 + B.length - (1 + B.length) = A.length := by omega
  have htake : (A ++ '1' :: B).take A.length = A := by simp
  have hdrop : (A ++ '1' :: B).drop (A.length + 1) = B := by simp
  rw [bech32Decode]
  simp only [hlen, takeWhile_reverse_split A B hB, hhrp, htake, hdrop]
  split_ifs with hbad hshort
  · -- too short or too long
    simp only [false_iff]
    rintro ⟨hA, h6, hmax, -⟩
    have := List.length_pos_of_ne_nil hA
    omega
  · -- no part before the separator, or fewer than six characters after it
    simp only [false_iff]
    rintro ⟨hA, h6, -⟩
    have := List.length_pos_of_ne_nil hA
    omega
  · have hshape : A ≠ [] ∧ 6 ≤ B.length ∧ A.length + 1 + B.length ≤ maxInputLen := by
      refine ⟨fun hnil => ?_, by omega, by omega⟩
      simp only [hnil, List.length_nil] at hshort
      omega
    split
    · next h3 =>
      simp only [reduceCtorEq, false_iff]
      rintro ⟨-, -, -, hA, -⟩
      rw [foldlM_decodeHrpChar_eq_some.mpr ⟨hA, rfl⟩] at h3
      cases h3
    · next st h3 =>
      obtain ⟨hA, rfl⟩ := foldlM_decodeHrpChar_eq_some.mp h3
      rw [foldl_hrpCharStep]
      dsimp only
      split
      · next h4 =>
        simp only [reduceCtorEq, false_iff]
        rintro ⟨-, -, -, -, hBv, -⟩
        rw [foldlM_decodeDataChar_eq_some.mpr
          ⟨(forall_zipIdx_fst (fun ch => ¬ charsetRevAt ch = -1) B _).mpr hBv, rfl⟩] at h4
        cases h4
      · next st' h4 =>
        obtain ⟨hBv, rfl⟩ := foldlM_decodeDataChar_eq_some.mp h4
        have hBv' := (forall_zipIdx_fst (fun ch => ¬ charsetRevAt ch = -1) B _).mp hBv
        rw [foldl_dataCharStep]
        simp only [Bool.false_or, foldl_hrpLowStep_lower, filter_zipIdx_lt, List.nil_append,
          any_zipIdx_fst (fun ch => decide ('a' ≤ ch ∧ ch ≤ 'z')),
          any_zipIdx_fst (fun ch => decide ('A' ≤ ch ∧ ch ≤ 'Z')),
          map_zipIdx_fst (fun ch => BitVec.ofInt 32 (charsetRevAt ch)),
          map_zipIdx_fst (fun ch => BitVec.ofInt 8 (charsetRevAt ch)), ← List.any_append]
        rw [← feed_append, ← polymod]
        split_ifs with hmix hone
        · simp only [false_iff]
          exact fun h => h.2.2.2.2.2.1 hmix
        · rw [Option.some.injEq]
          constructor
          · rintro rfl
            exact ⟨hshape.1, hshape.2.1, hshape.2.2, hA, hBv', hmix, hone, rfl⟩
          · rintro ⟨-, -, -, -, -, -, -, rfl⟩
            rfl
        · simp only [false_iff]
          exact fun h => hone h.2.2.2.2.2.2.1

/-! ## Round trips -/

/-- A value of five bits reads back from its charset character, in any width of five or more. -/
theorem ofInt_charsetRevAt_charset {w w' : ℕ} {v : BitVec w} (hv : v.toNat < 32) :
    BitVec.ofInt w' (charsetRevAt (bech32Charset.getD v.toNat 'q')) = v.setWidth w' := by
  rw [charsetRevAt_charset hv, BitVec.ofInt_natCast, BitVec.ofNat_toNat]

/-- Values of five bits written as charset characters read back as themselves. -/
theorem map_charsetRevAt_charset {w w' : ℕ} {vs : List (BitVec w)} (hvs : ∀ v ∈ vs, v.toNat < 32) :
    (vs.map fun v => bech32Charset.getD v.toNat 'q').map
      (fun ch => BitVec.ofInt w' (charsetRevAt ch)) = vs.map (·.setWidth w') := by
  rw [List.map_map]
  exact List.map_congr_left fun v hv => ofInt_charsetRevAt_charset (hvs v hv)

theorem lowerChar_of_not_upper {ch : Char} (h : ¬ ('A' ≤ ch ∧ ch ≤ 'Z')) : lowerChar ch = ch :=
  if_neg h

/-- The characters after the separator that `bech32_encode` writes: one for each value and six
for the checksum, all charset characters. -/
theorem encoded_tail {data : List (BitVec 8)} (hdata : ∀ d ∈ data, d.toNat < 32)
    (c : BitVec 32) :
    ∀ ch ∈ (data.map fun d => bech32Charset.getD d.toNat 'q') ++
        (checksumDigits c).map fun g => bech32Charset.getD g.toNat 'q',
      ∃ v < 32, ch = bech32Charset.getD v 'q' := by
  intro ch hch
  rcases List.mem_append.mp hch with hch | hch
  · obtain ⟨d, hd, rfl⟩ := List.mem_map.mp hch
    exact ⟨d.toNat, hdata d hd, rfl⟩
  · obtain ⟨g, hg, rfl⟩ := List.mem_map.mp hch
    exact ⟨g.toNat, toNat_lt_of_mem_digits hg, rfl⟩

/-- **Decoding what `bech32_encode` wrote.** A string that `bech32_encode` writes for a
human-readable part that is not empty decodes, under the same `max_input_len`, to that part
and those values. -/
theorem bech32Decode_bech32Encode {hrp : List Char} {data : List (BitVec 8)}
    {maxInputLen : ℕ} {output : List Char} (hne : hrp ≠ [])
    (henc : bech32Encode hrp data maxInputLen = some output) :
    bech32Decode output maxInputLen = some (hrp, data) := by
  obtain ⟨hhrp, hlen, hdata, rfl⟩ := bech32Encode_eq_some.mp henc
  set c := polymod (expandHrp hrp ++ data.map (·.setWidth 32))
  set B := (data.map fun d => bech32Charset.getD d.toNat 'q') ++
    (checksumDigits c).map fun g => bech32Charset.getD g.toNat 'q' with hBdef
  have hB := encoded_tail hdata c
  have hsep : '1' ∉ B := fun h1 => by
    obtain ⟨v, hv, heq⟩ := hB '1' h1
    exact charset_ne_one hv heq.symm
  have hBlen : B.length = data.length + 6 := by simp [hBdef, checksumDigits]
  have hlower : hrp.map lowerChar = hrp := by
    conv_rhs => rw [← List.map_id hrp]
    exact List.map_congr_left fun ch hch => lowerChar_of_not_upper fun hup => hhrp ch hch (Or.inr hup)
  have hvalues : B.map (fun ch => BitVec.ofInt 32 (charsetRevAt ch)) =
      data.map (·.setWidth 32) ++ checksumDigits c := by
    rw [hBdef, List.map_append, map_charsetRevAt_charset hdata,
      map_charsetRevAt_charset fun g hg => by simpa using toNat_lt_of_mem_digits hg]
    simp only [BitVec.setWidth_eq, List.map_id']
  have hdata8 : (B.take (B.length - 6)).map (fun ch => BitVec.ofInt 8 (charsetRevAt ch)) = data := by
    rw [hBdef, hBlen, Nat.add_sub_cancel, List.take_left' (by simp), map_charsetRevAt_charset hdata]
    simp only [BitVec.setWidth_eq, List.map_id']
  have hsplit : hrp ++ '1' :: (data.map fun d => bech32Charset.getD d.toNat 'q') ++
      (checksumDigits c).map (fun g => bech32Charset.getD g.toNat 'q') = hrp ++ '1' :: B := by
    rw [hBdef, List.append_assoc, List.cons_append]
  rw [hsplit, bech32Decode_split_eq_some hsep]
  refine ⟨hne, by omega, by omega, fun ch hch hbad => hhrp ch hch (Or.inl hbad), ?_, ?_, ?_, ?_⟩
  · intro ch hch
    obtain ⟨v, hv, rfl⟩ := hB ch hch
    rw [charsetRevAt_charset hv]
    omega
  · -- no upper-case letter: the part was checked for them, and the charset has none
    rintro ⟨-, hup⟩
    obtain ⟨ch, hch, hupc⟩ := List.any_eq_true.mp hup
    rcases List.mem_append.mp hch with hch | hch
    · exact hhrp ch hch (Or.inr (of_decide_eq_true hupc))
    · obtain ⟨v, hv, rfl⟩ := hB ch hch
      exact charset_not_upper hv (of_decide_eq_true hupc)
  · rw [hlower, hvalues, polymod, ← List.append_assoc, feed_append, ← polymod]
    exact feed_checksumDigits c
  · rw [hlower, hdata8]

/-- A string that `bech32_decode` accepts splits at its last separator. -/
theorem exists_split_of_bech32Decode {input : List Char} {maxInputLen : ℕ}
    {r : List Char × List (BitVec 8)} (h : bech32Decode input maxInputLen = some r) :
    ∃ A B, input = A ++ '1' :: B ∧ '1' ∉ B := by
  unfold bech32Decode at h
  dsimp only at h
  split_ifs at h with hbad hshort
  obtain ⟨A, B, hsplit, hB, -⟩ := exists_split_of_takeWhile input (by omega)
  exact ⟨A, B, hsplit, hB⟩

/-- A printable character stays printable when lowered, and is then not upper case. -/
theorem lowerChar_not_rejected {ch : Char} (h : ¬ (ch.toNat < 33 ∨ ch.toNat > 126)) :
    ¬ hrpCharRejected (lowerChar ch) := by
  unfold hrpCharRejected
  rw [isUpper_iff, toNat_lowerChar]
  split_ifs with hc <;> rw [isUpper_iff] at hc <;> omega

/-- The value a character reads as, in a word of five bits or more. -/
theorem toNat_ofInt_charsetRevAt {ch : Char} (hch : charsetRevAt ch ≠ -1) {w : ℕ} (hw : 5 ≤ w) :
    (BitVec.ofInt w (charsetRevAt ch)).toNat = (charsetRevAt ch).toNat := by
  obtain ⟨h0, h32, -⟩ := charset_charsetRevAt hch
  have hpow : (2 : ℤ) ^ 5 ≤ ((2 ^ w : ℕ) : ℤ) := by
    push_cast
    exact pow_le_pow_right₀ (show (1 : ℤ) ≤ 2 by norm_num) hw
  rw [BitVec.toNat_ofInt, Int.emod_eq_of_lt h0 (by omega)]

/-- Each character after the separator is written again, lowered, from the value it reads as. -/
theorem charset_ofInt_charsetRevAt {ch : Char} (hch : charsetRevAt ch ≠ -1) {w : ℕ} (hw : 5 ≤ w) :
    bech32Charset.getD (BitVec.ofInt w (charsetRevAt ch)).toNat 'q' = lowerChar ch := by
  rw [toNat_ofInt_charsetRevAt hch hw]
  exact (charset_charsetRevAt hch).2.2

theorem toNat_ofInt_charsetRevAt_lt {ch : Char} (hch : charsetRevAt ch ≠ -1) {w : ℕ}
    (hw : 5 ≤ w) : (BitVec.ofInt w (charsetRevAt ch)).toNat < 32 := by
  rw [toNat_ofInt_charsetRevAt hch hw]
  have := (charset_charsetRevAt hch).2.1
  omega

/-- Characters that read as values are written again, lowered, from those values. -/
theorem map_lowerChar_eq {l : List Char} (hl : ∀ ch ∈ l, charsetRevAt ch ≠ -1) {w : ℕ}
    (hw : 5 ≤ w) :
    l.map lowerChar = (l.map fun ch => BitVec.ofInt w (charsetRevAt ch)).map
      fun v => bech32Charset.getD v.toNat 'q' := by
  rw [List.map_map]
  exact List.map_congr_left fun ch hch => (charset_ofInt_charsetRevAt (hl ch hch) hw).symm

/-- **Writing again what `bech32_decode` returned.** From the part and values that
`bech32_decode` returns for a string, `bech32_encode` writes that string back, its upper-case
letters lowered. -/
theorem bech32Encode_bech32Decode {input : List Char} {maxInputLen : ℕ} {hrp : List Char}
    {data : List (BitVec 8)} (hdec : bech32Decode input maxInputLen = some (hrp, data)) :
    bech32Encode hrp data maxInputLen = some (input.map lowerChar) := by
  obtain ⟨A, B, rfl, hsep⟩ := exists_split_of_bech32Decode hdec
  obtain ⟨-, h6, hmax, hA, hB, -, hone, hr⟩ := (bech32Decode_split_eq_some hsep).mp hdec
  obtain ⟨rfl, rfl⟩ := Prod.mk.inj hr
  set m := B.length - 6
  have hBtake : ∀ ch ∈ B.take m, charsetRevAt ch ≠ -1 := fun ch hch => hB ch (List.mem_of_mem_take hch)
  have hBdrop : ∀ ch ∈ B.drop m, charsetRevAt ch ≠ -1 := fun ch hch => hB ch (List.mem_of_mem_drop hch)
  -- the values before the checksum, as `bech32_encode` feeds them
  have hvalues : ((B.take m).map fun ch => BitVec.ofInt 8 (charsetRevAt ch)).map (·.setWidth 32) =
      (B.take m).map fun ch => BitVec.ofInt 32 (charsetRevAt ch) := by
    rw [List.map_map]
    refine List.map_congr_left fun ch hch => BitVec.eq_of_toNat_eq ?_
    have h8 := toNat_ofInt_charsetRevAt (hBtake ch hch) (w := 8) (by decide)
    have h32 := toNat_ofInt_charsetRevAt (hBtake ch hch) (w := 32) (by decide)
    have hlt := (charset_charsetRevAt (hBtake ch hch)).2.1
    simp only [Function.comp_apply, BitVec.toNat_setWidth, h8, h32]
    omega
  -- the last six values are the checksum symbols of what comes before
  have hchecksum : (B.drop m).map (fun ch => BitVec.ofInt 32 (charsetRevAt ch)) =
      checksumDigits (polymod (expandHrp (A.map lowerChar) ++
        ((B.take m).map fun ch => BitVec.ofInt 8 (charsetRevAt ch)).map (·.setWidth 32))) := by
    refine eq_checksumDigits_of_feed (by simp; omega) ?_ ?_
    · intro g hg
      obtain ⟨ch, hch, rfl⟩ := List.mem_map.mp hg
      exact toNat_ofInt_charsetRevAt_lt (hBdrop ch hch) (by decide)
    · rw [hvalues, polymod, ← feed_append, List.append_assoc, ← List.map_append,
        List.take_append_drop]
      exact hone
  rw [bech32Encode_eq_some]
  refine ⟨?_, by simp; omega, ?_, ?_⟩
  · intro ch hch
    obtain ⟨a, ha, rfl⟩ := List.mem_map.mp hch
    exact lowerChar_not_rejected (hA a ha)
  · intro d hd
    obtain ⟨ch, hch, rfl⟩ := List.mem_map.mp hd
    exact toNat_ofInt_charsetRevAt_lt (hBtake ch hch) (by decide)
  · -- each character after the separator comes back lowered from its value
    rw [← hchecksum, ← map_lowerChar_eq hBtake (w := 8) (by decide),
      ← map_lowerChar_eq hBdrop (w := 32) (by decide)]
    conv_lhs => rw [← List.take_append_drop m B]
    rw [List.map_append, List.map_cons, List.map_append, show lowerChar '1' = '1' by decide]
    simp only [List.append_assoc, List.cons_append]

/-- The part `ln` with the values 0 and 31 is written `ln1qlc3qsd2`, which decodes back. -/
theorem bech32Decode_bech32Encode_ln :
    bech32Decode ['l', 'n', '1', 'q', 'l', 'c', '3', 'q', 's', 'd', '2'] 90 =
      some (['l', 'n'], [0, 31]) :=
  bech32Decode_bech32Encode (by decide) (by decide +kernel)

/-- `LN1QLC3QSD2` decodes to the part `ln` with the values 0 and 31, which are written back as
`ln1qlc3qsd2`. -/
theorem bech32Encode_bech32Decode_upper :
    bech32Encode ['l', 'n'] [0, 31] 90 =
      some (['L', 'N', '1', 'Q', 'L', 'C', '3', 'Q', 'S', 'D', '2'].map lowerChar) :=
  bech32Encode_bech32Decode (by decide +kernel)

end Dexfin.Bolt11
