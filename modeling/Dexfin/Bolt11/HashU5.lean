import Dexfin.Bolt11.Fields
import Dexfin.Lib.Limbs

/-!
# Hashing 5-bit symbols

`hash_u5` (`common/hash_u5.c`) feeds 5-bit symbols to SHA256 as a bit stream: it shifts each
symbol into the 64-bit `buf`, counts the bits not yet hashed in `num_bits`, and hands
SHA256 a big-endian 32-bit word whenever 32 of them are there. `hash_u5_done` hashes the rest,
left-aligned in a word, in as many bytes as hold them. The signature of an invoice is checked
against this digest.

SHA256 itself is a parameter: the context is the list of bytes `sha256_update` has been
given, and `sha256_done` applies the hash function to it. The packer's state after any symbols
is described by `Packs`: the hashed words are the leading bits of the symbols, and the low
`num_bits` bits of `buf` are the rest. One symbol keeps it (`Packs.takeBits`), so however the
symbols are split among the calls, `hash_u5_done` hashes the human-readable part followed by
the symbols' bits packed into bytes (`hashU5Done_chunks`).
-/

namespace Dexfin.Bolt11

/-! ## The code -/

/-- `k` bytes of `v`, most significant first. -/
def beBytes : Nat → Nat → List (BitVec 8)
  | 0, _ => []
  | k + 1, v => beBytes k (v / 256) ++ [BitVec.ofNat 8 v]

/-- `cpu_to_be32`, as the bytes of the word in memory. -/
def be32 (x : BitVec 32) : List (BitVec 8) := beBytes 4 x.toNat

/-- `struct hash_u5`. -/
structure HashU5 where
  /-- `buf`. -/
  buf : BitVec 64
  /-- `num_bits`: how many low bits of `buf` are not hashed yet. -/
  numBits : Nat
  /-- The bytes `sha256_update` has been given. -/
  hash : List (BitVec 8)

/-- `hash_u5_init`: the human-readable part, its `strlen(hrp)` bytes, goes to SHA256 first. -/
def hashU5Init (hrp : List (BitVec 8)) : HashU5 := ⟨0, 0, hrp⟩

/-- One pass of the loop of `hash_u5`: the top `n` of the five bits of `sym` go into `buf`,
and a word goes to SHA256 once 32 bits are waiting. -/
def takeBits (hu5 : HashU5) (sym : U5) (n : Nat) : HashU5 :=
  let buf := (hu5.buf <<< n) ||| (sym >>> (5 - n)).setWidth 64
  let numBits := hu5.numBits + n
  if numBits ≥ 32 then
    ⟨buf, numBits - 32, hu5.hash ++ be32 ((buf >>> (numBits - 32)).setWidth 32)⟩
  else ⟨buf, numBits, hu5.hash⟩

/-- The loop of `hash_u5` with `bits` bits left: five bits of the next symbol while there are
five, and then `n = bits` of it, after which none are left. -/
def hashU5Loop : Nat → List U5 → HashU5 → HashU5
  | 0, _, hu5 => hu5
  | bits + 5, u5, hu5 => hashU5Loop bits u5.tail (takeBits hu5 (u5.headD 0) 5)
  | bits + 1, u5, hu5 => takeBits hu5 (u5.headD 0) (bits + 1)

/-- `hash_u5`: `len * 5` bits of the symbols. -/
def hashU5 (hu5 : HashU5) (u5 : List U5) : HashU5 := hashU5Loop (u5.length * 5) u5 hu5

/-- `hash_u5_done`: the waiting bits, left-aligned in a word, in `(num_bits + 7) / 8` bytes,
and then `sha256_done`. -/
def hashU5Done {δ : Type*} (sha256 : List (BitVec 8) → δ) (hu5 : HashU5) : δ :=
  if hu5.numBits ≠ 0 then
    sha256 (hu5.hash ++
      (be32 ((hu5.buf <<< (32 - hu5.numBits)).setWidth 32)).take ((hu5.numBits + 7) / 8))
  else sha256 hu5.hash

/-! ## What it hashes -/

/-- The symbols as one big-endian number, five bits each. -/
def symbolsValue (syms : List U5) : Nat := syms.foldl (fun v s => v * 32 + s.toNat) 0

/-- The symbols' bits packed into bytes, most significant first, with the last byte padded
with zero bits. -/
def packSymbols (syms : List U5) : List (BitVec 8) :=
  beBytes ((5 * syms.length + 7) / 8)
    (symbolsValue syms * 2 ^ (8 * ((5 * syms.length + 7) / 8) - 5 * syms.length))

@[simp] theorem length_beBytes (k v : Nat) : (beBytes k v).length = k := by
  induction k generalizing v with
  | zero => rfl
  | succ k ih => simp [beBytes, ih]

/-- The leading `k` of `k + m` bytes are the bytes of what is above the last `m`. -/
theorem beBytes_add (k m v : Nat) :
    beBytes (k + m) v = beBytes k (v / 256 ^ m) ++ beBytes m v := by
  induction m generalizing v with
  | zero => simp [beBytes]
  | succ m ih =>
    rw [← Nat.add_assoc, beBytes, ih, beBytes, List.append_assoc, Nat.div_div_eq_div_mul,
      ← Nat.pow_succ']

/-- `k` bytes see `v` only modulo `256 ^ k`. -/
theorem beBytes_mod (k v : Nat) : beBytes k (v % 256 ^ k) = beBytes k v := by
  induction k generalizing v with
  | zero => rfl
  | succ k ih =>
    have hdiv : v % 256 ^ (k + 1) / 256 = v / 256 % 256 ^ k := by
      rw [Nat.pow_succ', Nat.mod_mul_right_div_self]
    have hbyte : BitVec.ofNat 8 (v % 256 ^ (k + 1)) = BitVec.ofNat 8 v := by
      apply BitVec.eq_of_toNat_eq
      rw [BitVec.toNat_ofNat, BitVec.toNat_ofNat]
      exact Nat.mod_mod_of_dvd v (dvd_pow_self 256 (Nat.succ_ne_zero k))
    rw [beBytes, beBytes, hdiv, ih, hbyte]

/-- The first `c` of `k` bytes. -/
theorem take_beBytes {c k : Nat} (hc : c ≤ k) (v : Nat) :
    (beBytes k v).take c = beBytes c (v / 256 ^ (k - c)) := by
  obtain ⟨m, rfl⟩ := Nat.exists_eq_add_of_le hc
  rw [beBytes_add, List.take_left' (length_beBytes _ _), Nat.add_sub_cancel_left]

theorem symbolsValue_append_singleton (syms : List U5) (s : U5) :
    symbolsValue (syms ++ [s]) = symbolsValue syms * 32 + s.toNat := by
  simp [symbolsValue]

/-! ## The packer's invariant -/

/-- What `hash_u5` keeps of the symbols `syms` given so far after `hrp`: `num_bits` counts
the bits past the last whole word, the words hashed are the bits before them, and the low
`num_bits` bits of `buf` are those bits. -/
structure Packs (hrp : List (BitVec 8)) (syms : List U5) (hu5 : HashU5) : Prop where
  numBits_eq : hu5.numBits = 5 * syms.length % 32
  hash_eq : hu5.hash = hrp ++ beBytes (4 * (5 * syms.length / 32))
    (symbolsValue syms / 2 ^ hu5.numBits)
  buf_mod : hu5.buf.toNat % 2 ^ hu5.numBits = symbolsValue syms % 2 ^ hu5.numBits

theorem packs_hashU5Init (hrp : List (BitVec 8)) : Packs hrp [] (hashU5Init hrp) :=
  ⟨rfl, by simp [hashU5Init, beBytes], by simp [hashU5Init, symbolsValue]⟩

/-- Five more low bits: the low `nb` bits of `v` and then `s`. -/
theorem mul_add_mod_two_pow (v : Nat) {s : Nat} (hs : s < 32) (nb : Nat) :
    (v * 32 + s) % 2 ^ (nb + 5) = v % 2 ^ nb * 32 + s := by
  rw [show 2 ^ (nb + 5) = 32 * 2 ^ nb by rw [Nat.pow_add, Nat.mul_comm], Nat.add_comm,
    Nat.mul_comm v, Limbs.add_mul_mod_mul_of_lt _ _ hs]
  omega

/-- What is above `nb + 5` low bits after `s` is what was above `nb`. -/
theorem mul_add_div_two_pow (v : Nat) {s : Nat} (hs : s < 32) (nb : Nat) :
    (v * 32 + s) / 2 ^ (nb + 5) = v / 2 ^ nb := by
  rw [Nat.pow_add, Nat.mul_comm (2 ^ nb), ← Nat.div_div_eq_div_mul]
  congr 1
  omega

/-- Bits `k` to `k + m` of two numbers that agree below `k + m`. -/
theorem div_mod_eq_of_mod_eq {x y k m : Nat} (h : x % 2 ^ (k + m) = y % 2 ^ (k + m)) :
    x / 2 ^ k % 2 ^ m = y / 2 ^ k % 2 ^ m := by
  rw [← Nat.mod_mul_right_div_self, ← Nat.mod_mul_right_div_self y, ← Nat.pow_add, h]

/-- A whole symbol shifted into the buffer: the buffer times 32 plus the symbol, in 64 bits. -/
theorem toNat_shiftIn (buf : BitVec 64) (s : U5) :
    ((buf <<< 5) ||| (s >>> (5 - 5)).setWidth 64).toNat = (buf.toNat * 32 + s.toNat) % 2 ^ 64 := by
  have hs : s.toNat < 32 := s.isLt
  -- the low five bits of the shifted buffer are clear, so the `|` is a `+`
  have hor : (buf <<< 5) ||| (s >>> (5 - 5)).setWidth 64 = (buf <<< 5) + s.setWidth 64 := by
    rw [Nat.sub_self, BitVec.ushiftRight_zero, BitVec.add_eq_or_of_and_eq_zero]
    ext i hi
    simp only [BitVec.getElem_and, BitVec.getElem_shiftLeft, BitVec.getElem_setWidth,
      BitVec.getElem_zero]
    by_cases h5 : i < 5
    · simp [h5]
    · simp [h5, BitVec.getLsbD_of_ge s i (by omega)]
  rw [hor, BitVec.toNat_add, BitVec.toNat_shiftLeft, BitVec.toNat_setWidth,
    Nat.mod_eq_of_lt (by omega : s.toNat < 2 ^ 64), Nat.shiftLeft_eq, Nat.mod_add_mod]

/-- One symbol keeps the invariant, whether a word goes out or not. -/
theorem Packs.takeBits {hrp : List (BitVec 8)} {syms : List U5} {hu5 : HashU5}
    (hp : Packs hrp syms hu5) (s : U5) : Packs hrp (syms ++ [s]) (takeBits hu5 s 5) := by
  obtain ⟨hnb, hhash, hbuf⟩ := hp
  have hs : s.toNat < 32 := s.isLt
  have hV := symbolsValue_append_singleton syms s
  -- the low `nb + 5` bits of the new buffer are the low bits of the symbols
  have hmod : ((hu5.buf <<< 5) ||| (s >>> (5 - 5)).setWidth 64).toNat % 2 ^ (hu5.numBits + 5) =
      symbolsValue (syms ++ [s]) % 2 ^ (hu5.numBits + 5) := by
    have hdvd : 2 ^ (hu5.numBits + 5) ∣ 2 ^ 64 := Nat.pow_dvd_pow 2 (by omega)
    rw [toNat_shiftIn, Nat.mod_mod_of_dvd _ hdvd, mul_add_mod_two_pow _ hs, hbuf, hV,
      mul_add_mod_two_pow _ hs]
  have hdiv : symbolsValue (syms ++ [s]) / 2 ^ (hu5.numBits + 5) =
      symbolsValue syms / 2 ^ hu5.numBits := by
    rw [hV, mul_add_div_two_pow _ hs]
  have hlen : 5 * (syms ++ [s]).length = 5 * syms.length + 5 := by simp; ring
  unfold Bolt11.takeBits
  dsimp only
  split_ifs with hflush
  · -- a word goes out: the top 32 of the `nb + 5` waiting bits
    have hk : hu5.numBits + 5 - 32 + 32 = hu5.numBits + 5 := by omega
    have hword : ((((hu5.buf <<< 5) ||| (s >>> (5 - 5)).setWidth 64) >>>
        (hu5.numBits + 5 - 32)).setWidth 32).toNat =
        symbolsValue (syms ++ [s]) / 2 ^ (hu5.numBits + 5 - 32) % 2 ^ 32 := by
      rw [BitVec.toNat_setWidth, BitVec.toNat_ushiftRight, Nat.shiftRight_eq_div_pow]
      exact div_mod_eq_of_mod_eq (by rw [hk]; exact hmod)
    have hwords : 4 * (5 * (syms ++ [s]).length / 32) = 4 * (5 * syms.length / 32) + 4 := by
      omega
    refine ⟨by dsimp only; omega, ?_, ?_⟩
    · dsimp only
      rw [hhash, List.append_assoc, hwords, beBytes_add, be32, hword,
        show (2 : Nat) ^ 32 = 256 ^ 4 by norm_num, beBytes_mod, Nat.div_div_eq_div_mul,
        show (256 : Nat) ^ 4 = 2 ^ 32 by norm_num, ← Nat.pow_add, hk, hdiv]
    · dsimp only
      have hdvd : 2 ^ (hu5.numBits + 5 - 32) ∣ 2 ^ (hu5.numBits + 5) :=
        Nat.pow_dvd_pow 2 (by omega)
      rw [← Nat.mod_mod_of_dvd _ hdvd, hmod, Nat.mod_mod_of_dvd _ hdvd]
  · -- the bits wait in the buffer
    have hwords : 5 * (syms ++ [s]).length / 32 = 5 * syms.length / 32 := by omega
    exact ⟨by dsimp only; omega, by dsimp only; rw [hhash, hwords, hdiv], hmod⟩

/-! ## Whole calls -/

/-- With a multiple of five bits, the loop takes each symbol whole: the branch for fewer than
five bits is never reached. -/
theorem hashU5_eq (hu5 : HashU5) (u5 : List U5) :
    hashU5 hu5 u5 = u5.foldl (fun h s => takeBits h s 5) hu5 := by
  unfold hashU5
  induction u5 generalizing hu5 with
  | nil => rfl
  | cons s u5 ih =>
    rw [List.length_cons, Nat.succ_mul, hashU5Loop, List.tail_cons, List.headD_cons, ih]
    rfl

/-- Successive calls are one call on the symbols joined. -/
theorem foldl_hashU5 (chunks : List (List U5)) (hu5 : HashU5) :
    chunks.foldl hashU5 hu5 = hashU5 hu5 chunks.flatten := by
  induction chunks generalizing hu5 with
  | nil => simp [hashU5_eq]
  | cons chunk chunks ih => rw [List.foldl_cons, ih, List.flatten_cons, hashU5_eq, hashU5_eq,
      hashU5_eq, List.foldl_append]

/-- A call keeps the invariant. -/
theorem Packs.hashU5 {hrp : List (BitVec 8)} {syms : List U5} {hu5 : HashU5}
    (hp : Packs hrp syms hu5) (more : List U5) :
    Packs hrp (syms ++ more) (Bolt11.hashU5 hu5 more) := by
  rw [hashU5_eq]
  induction more generalizing syms hu5 with
  | nil => simpa using hp
  | cons s more ih =>
    rw [List.foldl_cons, ← List.singleton_append, ← List.append_assoc]
    exact ih (hp.takeBits s)

/-- The spec split at the last whole word: the words, then the bytes of the bits after them. -/
theorem packSymbols_eq (syms : List U5) :
    packSymbols syms = beBytes (4 * (5 * syms.length / 32))
        (symbolsValue syms / 2 ^ (5 * syms.length % 32)) ++
      beBytes ((5 * syms.length % 32 + 7) / 8)
        (symbolsValue syms % 2 ^ (5 * syms.length % 32) *
          2 ^ (8 * ((5 * syms.length % 32 + 7) / 8) - 5 * syms.length % 32)) := by
  set nb := 5 * syms.length % 32 with hnb
  set c := (nb + 7) / 8 with hc
  have hbytes : (5 * syms.length + 7) / 8 = 4 * (5 * syms.length / 32) + c := by omega
  have hpad : 8 * ((5 * syms.length + 7) / 8) - 5 * syms.length = 8 * c - nb := by omega
  have hsplit : (256 : Nat) ^ c = 2 ^ nb * 2 ^ (8 * c - nb) := by
    rw [← Nat.pow_add, show (256 : Nat) = 2 ^ 8 by norm_num, ← Nat.pow_mul]
    congr 1
    omega
  unfold packSymbols
  rw [hpad, hbytes, beBytes_add, ← beBytes_mod c, hsplit, Nat.mul_mod_mul_right,
    Nat.mul_div_mul_right _ _ (Nat.two_pow_pos _)]

/-- `hash_u5_done` on the packer's state hashes the human-readable part and the packed
symbols. -/
theorem Packs.hashU5Done {δ : Type*} (sha256 : List (BitVec 8) → δ) {hrp : List (BitVec 8)}
    {syms : List U5} {hu5 : HashU5} (hp : Packs hrp syms hu5) :
    Bolt11.hashU5Done sha256 hu5 = sha256 (hrp ++ packSymbols syms) := by
  obtain ⟨hnb, hhash, hbuf⟩ := hp
  rw [packSymbols_eq, ← hnb, ← List.append_assoc, ← hhash]
  unfold Bolt11.hashU5Done
  split_ifs with h0
  · -- the waiting bits, moved to the top of a word, and the bytes that hold them
    have hc : (hu5.numBits + 7) / 8 ≤ 4 := by omega
    have hword : ((hu5.buf <<< (32 - hu5.numBits)).setWidth 32).toNat =
        symbolsValue syms % 2 ^ hu5.numBits * 2 ^ (32 - hu5.numBits) := by
      rw [BitVec.toNat_setWidth, BitVec.toNat_shiftLeft, Nat.shiftLeft_eq,
        Nat.mod_mod_of_dvd _ (Nat.pow_dvd_pow 2 (by omega)),
        show (2 : Nat) ^ 32 = 2 ^ hu5.numBits * 2 ^ (32 - hu5.numBits) by
          rw [← Nat.pow_add]; congr 1; omega,
        Nat.mul_mod_mul_right, hbuf]
    have hshift : (2 : Nat) ^ (32 - hu5.numBits) =
        2 ^ (8 * ((hu5.numBits + 7) / 8) - hu5.numBits) * 256 ^ (4 - (hu5.numBits + 7) / 8) := by
      rw [show (256 : Nat) = 2 ^ 8 by norm_num, ← Nat.pow_mul, ← Nat.pow_add]
      congr 1
      omega
    rw [be32, take_beBytes hc, hword, hshift, ← Nat.mul_assoc,
      Nat.mul_div_cancel _ (Nat.pow_pos (by norm_num))]
  · -- no bits wait: the words are all the bytes
    have h0 : hu5.numBits = 0 := not_not.1 h0
    simp [h0, beBytes]

/-- However the symbols are split among calls of `hash_u5`, `hash_u5_done` hashes the bytes of
the human-readable part followed by the symbols' bits packed big-endian and padded with zero
bits to a byte. -/
theorem hashU5Done_chunks {δ : Type*} (sha256 : List (BitVec 8) → δ) (hrp : List (BitVec 8))
    (chunks : List (List U5)) :
    hashU5Done sha256 (chunks.foldl hashU5 (hashU5Init hrp)) =
      sha256 (hrp ++ packSymbols chunks.flatten) := by
  rw [foldl_hashU5]
  exact ((packs_hashU5Init hrp).hashU5 chunks.flatten).hashU5Done sha256

/-- Seven symbols in two calls: a word goes out in the second, and three bits are left. -/
example : hashU5Done id ([[31, 31, 31], [31, 31, 31, 31]].foldl hashU5 (hashU5Init [0x6c])) =
    [0x6c, 0xff, 0xff, 0xff, 0xff, 0xe0] := by
  decide

end Dexfin.Bolt11
