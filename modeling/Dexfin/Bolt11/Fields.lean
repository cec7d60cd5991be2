import Dexfin.Lib.Regroup
import Dexfin.Lib.StateExcept
import Dexfin.Bolt11.Amount

/-!
# The tagged fields of an invoice

The readers and field decoders of `src/lightning/common/bolt11.c`. They read the 5-bit symbols
that `bech32_decode` returned through a cursor: `pos` is how far `data` has been advanced,
`dataLen` the `size_t` that `data_len` holds, and `hashed` what has gone to `hash_u5` for the
signature. `pull_bits` takes `⌈nbits / 5⌉` symbols, converts them to bytes with
`bech32_convert_bits` and hashes them; `pull_bits_certain` asserts that it succeeded.

A read beyond the decoded data, which the C code does not guard against once `data_len` has
wrapped, ends a run with `Stop.readsPastEnd`; a failed `assert` ends it with
`Stop.assertFails`.
-/

namespace Dexfin.Bolt11

/-- `u5`. -/
abbrev U5 := BitVec 5

/-- `bech32_charset`. -/
def bech32Charset : List Char :=
  ['q', 'p', 'z', 'r', 'y', '9', 'x', '8', 'g', 'f', '2', 't', 'v', 'd', 'w', '0',
   's', '3', 'j', 'n', '5', '4', 'k', 'h', 'c', 'e', '6', 'm', 'u', 'a', '7', 'l']

/-- `bech32_charset[type]`, for a type read from five bits. -/
def charsetAt (type : BitVec 64) : Char := bech32Charset.getD type.toNat 'q'

/-- Bytes read as a big-endian number. -/
def beWord (w : ℕ) (bytes : List (BitVec 8)) : BitVec w :=
  bytes.foldl (fun acc b => (acc <<< 8) ||| b.setWidth w) 0

/-- `route_info`. -/
structure RouteInfo where
  /-- `pubkey`, as its 33 DER bytes. -/
  pubkey : List (BitVec 8)
  /-- `short_channel_id`. -/
  shortChannelId : BitVec 64
  /-- `fee_base_msat`. -/
  feeBaseMsat : BitVec 32
  /-- `fee_proportional_millionths`. -/
  feeProportionalMillionths : BitVec 32
  /-- `cltv_expiry_delta`. -/
  cltvExpiryDelta : BitVec 16
  deriving DecidableEq, Repr

/-- A fallback address, by the script `decode_f` builds for it. -/
inductive Fallback
  /-- `scriptpubkey_p2pkh`. -/
  | p2pkh (pkhash : List (BitVec 8))
  /-- `scriptpubkey_p2sh_hash`. -/
  | p2sh (shash : List (BitVec 8))
  /-- `scriptpubkey_witness_raw`. -/
  | witness (version : BitVec 64) (program : List (BitVec 8))
  deriving DecidableEq, Repr

/-- `bolt11_field`: a field the decoder skipped. -/
structure Field where
  /-- `tag`. -/
  tag : Char
  /-- `data`. -/
  data : List U5
  deriving DecidableEq, Repr

/-- `struct bolt11`: the fields that `bolt11_decode` writes, with public keys and hashes as
their bytes. -/
structure Invoice (Chain : Type) where
  /-- `chain`. -/
  chain : Chain
  /-- `timestamp`. -/
  timestamp : BitVec 64
  /-- `msatoshi`. -/
  msatoshi : Option (BitVec 64)
  /-- `payment_hash`. -/
  paymentHash : List (BitVec 8)
  /-- `receiver_id`. -/
  receiverId : List (BitVec 8)
  /-- `description`. -/
  description : Option (List (BitVec 8))
  /-- `description_hash`. -/
  descriptionHash : Option (List (BitVec 8))
  /-- `expiry`. -/
  expiry : BitVec 64
  /-- `min_final_cltv_expiry`. -/
  minFinalCltvExpiry : BitVec 32
  /-- `fallbacks`. -/
  fallbacks : List Fallback
  /-- `routes`. -/
  routes : List (List RouteInfo)
  /-- `sig`. -/
  sig : List (BitVec 8)
  /-- `extra_fields`. -/
  extraFields : List Field

/-- `new_bolt11`, with the chain `bolt11_decode` sets next: `DEFAULT_X` and `DEFAULT_C`. -/
def newBolt11 {Chain : Type} (chain : Chain) (msatoshi : Option (BitVec 64)) : Invoice Chain :=
  ⟨chain, 0, msatoshi, [], [], none, none, 3600, 9, [], [], [], []⟩

/-- The data part as the decoder has read it. -/
structure Cursor where
  /-- The symbols `bech32_decode` returned. -/
  data : List U5
  /-- How far `data` has been advanced. -/
  pos : ℕ
  /-- `data_len`. -/
  dataLen : BitVec 64
  /-- The symbols given to `hash_u5` after the human-readable part. -/
  hashed : List U5
  deriving DecidableEq, Repr

/-- The state of `bolt11_decode` between reads: the cursor, the invoice so far and the
`have_*` flags. `have_x` and `have_c` are never set, so they are not state. -/
structure DecodeState (Chain : Type) where
  /-- The cursor. -/
  cur : Cursor
  /-- The invoice so far. -/
  b11 : Invoice Chain
  /-- `have_p`. -/
  haveP : Bool
  /-- `have_n`. -/
  haveN : Bool
  /-- `have_d`. -/
  haveD : Bool
  /-- `have_h`. -/
  haveH : Bool

/-- How a run of the decoder ends other than by returning. -/
inductive Stop
  /-- An `assert` fails and the process aborts. -/
  | assertFails
  /-- A read beyond the decoded data. -/
  | readsPastEnd
  /-- A loop of the model ran out of its bound. -/
  | outOfFuel
  deriving DecidableEq, Repr

/-- A step of the decoder. -/
abbrev Decoder (Chain : Type) := StateT (DecodeState Chain) (Except Stop)

/-! ## The cursor -/

/-- The next `n` symbols. -/
def Cursor.window (c : Cursor) (n : ℕ) : List U5 := (c.data.drop c.pos).take n

/-- `*data += n; *data_len -= n`, with `syms` given to `hash_u5`. -/
def Cursor.advance (c : Cursor) (syms : List U5) (n : BitVec 64) : Cursor :=
  { c with pos := c.pos + n.toNat, dataLen := c.dataLen - n, hashed := c.hashed ++ syms }

@[simp] theorem Cursor.advance_data (c : Cursor) (syms : List U5) (n : BitVec 64) :
    (c.advance syms n).data = c.data := rfl

@[simp] theorem Cursor.advance_pos (c : Cursor) (syms : List U5) (n : BitVec 64) :
    (c.advance syms n).pos = c.pos + n.toNat := rfl

@[simp] theorem Cursor.advance_dataLen (c : Cursor) (syms : List U5) (n : BitVec 64) :
    (c.advance syms n).dataLen = c.dataLen - n := rfl

@[simp] theorem Cursor.advance_hashed (c : Cursor) (syms : List U5) (n : BitVec 64) :
    (c.advance syms n).hashed = c.hashed ++ syms := rfl

/-! ## Readers -/

section Readers

variable {Chain : Type}

/-- The next `n` symbols, which the C code reads through `*data`. -/
def readSymbols (n : ℕ) : Decoder Chain (List U5) := do
  let s ← get
  if s.cur.pos + n ≤ s.cur.data.length then pure (s.cur.window n) else throw .readsPastEnd

/-- `n5` of `pull_bits`: `nbits / 5`, and one more for a partial symbol. -/
def symbolCount (nbits : BitVec 64) : BitVec 64 :=
  if nbits % 5 ≠ 0 then nbits / 5 + 1 else nbits / 5

/-- `pull_bits`: `none` when fewer than `n5` symbols are left or the conversion fails, with the
cursor where it was; else the bytes, with the cursor advanced past the `n5` symbols and, when
`hu5` is set, those symbols hashed. -/
def pullBits (hu5 : Bool) (nbits : BitVec 64) (pad : Bool) :
    Decoder Chain (Option (List (BitVec 8))) := do
  let n5 := symbolCount nbits
  if (← get).cur.dataLen < n5 then return none
  let syms ← readSymbols n5.toNat
  match Regroup.convertBits 8 5 pad syms with
  | none => return none
  | some dst =>
    modify fun s => { s with cur := s.cur.advance (if hu5 then syms else []) n5 }
    return some dst

/-- `pull_bits_certain`: `assert(pull_bits(..))`, hashing as at every call. -/
def pullBitsCertain (nbits : BitVec 64) (pad : Bool) : Decoder Chain (List (BitVec 8)) := do
  match ← pullBits true nbits pad with
  | some dst => pure dst
  | none => throw .assertFails

/-- `pull_uint`: `databits` bits read into the top of a big-endian `u64` and shifted down. The
bytes of `be_val` that `pull_bits` does not write are taken as zero: they are shifted out,
but for `databits = 0`, where the C shift by 64 is undefined. -/
def pullUint (databits : BitVec 64) : Decoder Chain (Option (BitVec 64)) := do
  if databits > 64 then return none
  match ← pullBits true databits true with
  | none => return none
  | some bytes =>
    return some (beWord 64 ((bytes ++ List.replicate 8 0).take 8) >>> (64 - databits.toNat))

/-- `num_u8`. -/
def numU8 (numU5 : BitVec 64) : BitVec 64 := (numU5 * 5 + 4) / 8

end Readers

/-! ## Field decoders -/

section Decoders

variable {Chain : Type}

/-- `unknown_field`: the field kept as it is, then `pull_bits_certain` with `length` as the
number of bits, and `length` symbols more skipped. -/
def unknownField (type : Char) (length : BitVec 64) : Decoder Chain Unit := do
  let data ← readSymbols length.toNat
  modify fun s => { s with b11 := { s.b11 with extraFields := s.b11.extraFields ++ [⟨type, data⟩] } }
  let _ ← pullBitsCertain length false
  modify fun s => { s with cur := s.cur.advance [] length }

/-- `decode_p` and `decode_h`: a 256-bit hash in a field of 52 symbols, the first of its
letter; any other is skipped. -/
def decodeHash (letter : Char) (haveField : DecodeState Chain → Bool)
    (store : List (BitVec 8) → DecodeState Chain → DecodeState Chain) (dataLength : BitVec 64) :
    Decoder Chain Unit := do
  if haveField (← get) then unknownField letter dataLength
  else if dataLength ≠ 52 then unknownField letter dataLength
  else
    let hash ← pullBitsCertain 256 false
    modify (store hash)

/-- `decode_p`. -/
def decodeP (dataLength : BitVec 64) : Decoder Chain Unit :=
  decodeHash 'p' (·.haveP)
    (fun hash s => { s with b11 := { s.b11 with paymentHash := hash }, haveP := true }) dataLength

/-- `decode_h`. -/
def decodeH (dataLength : BitVec 64) : Decoder Chain Unit :=
  decodeHash 'h' (·.haveH)
    (fun hash s => { s with b11 := { s.b11 with descriptionHash := some hash }, haveH := true })
    dataLength

/-- `decode_d`. -/
def decodeD (dataLength : BitVec 64) : Decoder Chain Unit := do
  if (← get).haveD then unknownField 'd' dataLength
  else
    let description ← pullBitsCertain (dataLength * 5) false
    modify fun s => { s with b11 := { s.b11 with description := some description }, haveD := true }

/-- `decode_x`; `have_x` is never set by its caller. -/
def decodeX (haveX : Bool) (dataLength : BitVec 64) : Decoder Chain (Option String) := do
  if haveX then
    unknownField 'x' dataLength
    return none
  match ← pullUint (dataLength * 5) with
  | none => return some ("x: length " ++ toString (← get).cur.dataLen.toNat ++ " chars is excessive")
  | some expiry =>
    modify fun s => { s with b11 := { s.b11 with expiry } }
    return none

/-- `decode_c`: as `decode_x`, then the `u64` narrowed to the `u32` field and checked. -/
def decodeC (haveC : Bool) (dataLength : BitVec 64) : Decoder Chain (Option String) := do
  if haveC then
    unknownField 'c' dataLength
    return none
  match ← pullUint (dataLength * 5) with
  | none => return some ("c: length " ++ toString (← get).cur.dataLen.toNat ++ " chars is excessive")
  | some c =>
    modify fun s => { s with b11 := { s.b11 with minFinalCltvExpiry := c.setWidth 32 } }
    if (c.setWidth 32).setWidth 64 ≠ c then return some ("c: " ++ toString c.toNat ++ " is too large")
    return none

/-- `%.*s` of a byte string: its bytes up to the first zero. -/
def bytesText (bytes : List (BitVec 8)) : String :=
  String.ofList ((bytes.takeWhile (· ≠ 0)).map fun b => Char.ofNat b.toNat)

/-- `decode_n`: a public key in a field of 53 symbols, the first one; `pubkeyFromDer` is
`pubkey_from_der`. -/
def decodeN (pubkeyFromDer : List (BitVec 8) → Bool) (dataLength : BitVec 64) :
    Decoder Chain (Option String) := do
  if (← get).haveN then
    unknownField 'n' dataLength
    return none
  if dataLength ≠ 53 then
    unknownField 'n' dataLength
    return none
  let der ← pullBitsCertain (dataLength * 5) false
  if !pubkeyFromDer der then return some ("n: invalid pubkey " ++ bytesText der)
  modify fun s => { s with b11 := { s.b11 with receiverId := der }, haveN := true }
  return none

/-- Append a fallback to `b11->fallbacks`. -/
def addFallback (fallback : Fallback) : Decoder Chain Unit :=
  modify fun s => { s with b11 := { s.b11 with fallbacks := s.b11.fallbacks ++ [fallback] } }

/-- `decode_f`: a 5-bit version, then `data_length - 1` symbols in `size_t`. -/
def decodeF (dataLength : BitVec 64) : Decoder Chain (Option String) := do
  let some version ← pullUint 5
    | return some ("f: data_length " ++ toString dataLength.toNat ++ " short")
  let dataLength := dataLength - 1
  if version = 17 then
    if numU8 dataLength ≠ 20 then
      return some ("f: pkhash length " ++ toString dataLength.toNat)
    let pkhash ← pullBitsCertain (dataLength * 5) false
    addFallback (.p2pkh pkhash)
  else if version = 18 then
    if numU8 dataLength ≠ 20 then
      return some ("f: p2sh length " ++ toString dataLength.toNat)
    let shash ← pullBitsCertain (dataLength * 5) false
    addFallback (.p2sh shash)
  else if version < 17 then
    if version = 0 ∧ dataLength * 5 / 8 ≠ 20 ∧ dataLength * 5 / 8 ≠ 32 then
      return some ("f: witness v0 bad length " ++ toString dataLength.toNat)
    let f ← pullBitsCertain (dataLength * 5) false
    addFallback (.witness version f)
  else
    unknownField 'f' dataLength
    return none
  return none

/-- `fromwire_route_info`: 51 bytes, the first 33 a valid public key. -/
def fromwireRouteInfo (pubkeyFromDer : List (BitVec 8) → Bool) (bytes : List (BitVec 8)) :
    Option (RouteInfo × List (BitVec 8)) :=
  if 51 ≤ bytes.length ∧ pubkeyFromDer (bytes.take 33) then
    some (⟨bytes.take 33, beWord 64 ((bytes.drop 33).take 8), beWord 32 ((bytes.drop 41).take 4),
      beWord 32 ((bytes.drop 45).take 4), beWord 16 ((bytes.drop 49).take 2)⟩, bytes.drop 51)
  else none

/-- The `do … while (rlen)` loop of `decode_r`; `fuel` bounds its rounds, and the length of
the bytes is enough (`decodeHops_fuel`). -/
def decodeHops (pubkeyFromDer : List (BitVec 8) → Bool) :
    ℕ → List (BitVec 8) → Option (List RouteInfo)
  | 0, _ => none
  | fuel + 1, bytes =>
    match fromwireRouteInfo pubkeyFromDer bytes with
    | none => none
    | some (hop, rest) =>
      if rest.length = 0 then some [hop] else (decodeHops pubkeyFromDer fuel rest).map (hop :: ·)

/-- `decode_r`: the whole field converted at once, then read hop by hop. The hop count `n`
in the message is never advanced. -/
def decodeR (pubkeyFromDer : List (BitVec 8) → Bool) (dataLength : BitVec 64) :
    Decoder Chain (Option String) := do
  let rlen := dataLength * 5 / 8
  let n : ℕ := 0
  let r8 ← pullBitsCertain (dataLength * 5) false
  match decodeHops pubkeyFromDer r8.length (r8.take rlen.toNat) with
  | none => return some ("r: hop " ++ toString n ++ " truncated")
  | some r =>
    modify fun s => { s with b11 := { s.b11 with routes := s.b11.routes ++ [r] } }
    return none

end Decoders

/-! ## What a read does to the cursor -/

section Spec

variable {Chain : Type}

open StateExcept

theorem readSymbols_run (n : ℕ) (s : DecodeState Chain) :
    (readSymbols n).run s =
      if s.cur.pos + n ≤ s.cur.data.length then .ok (s.cur.window n, s) else .error .readsPastEnd := by
  simp only [readSymbols, run_bind, run_get]
  split_ifs <;> rfl

theorem pullBits_run (hu5 : Bool) (nbits : BitVec 64) (pad : Bool) (s : DecodeState Chain) :
    (pullBits hu5 nbits pad).run s =
      if s.cur.dataLen < symbolCount nbits then .ok (none, s)
      else if s.cur.pos + (symbolCount nbits).toNat ≤ s.cur.data.length then
        match Regroup.convertBits 8 5 pad (s.cur.window (symbolCount nbits).toNat) with
        | none => .ok (none, s)
        | some dst => .ok (some dst, { s with cur := (s.cur.advance
            (if hu5 then s.cur.window (symbolCount nbits).toNat else []) (symbolCount nbits)) })
      else .error .readsPastEnd := by
  simp only [pullBits, run_bind, run_get]
  by_cases hlen : s.cur.dataLen < symbolCount nbits
  · simp only [if_pos hlen]
    rfl
  · simp only [if_neg hlen, run_bind, readSymbols_run]
    by_cases hend : s.cur.pos + (symbolCount nbits).toNat ≤ s.cur.data.length
    · simp only [if_pos hend]
      cases Regroup.convertBits 8 5 pad (s.cur.window (symbolCount nbits).toNat) <;> rfl
    · simp only [if_neg hend]

/-- `c'` is `c` moved on by `k` symbols, every one of them hashed: what the decoder should do
with each field. -/
structure Cursor.Consumes (c c' : Cursor) (k : ℕ) : Prop where
  data_eq : c'.data = c.data
  pos_eq : c'.pos = c.pos + k
  dataLen_eq : c'.dataLen = c.dataLen - BitVec.ofNat 64 k
  hashed_eq : c'.hashed = c.hashed ++ c.window k

theorem Cursor.consumes_advance (c : Cursor) (n : BitVec 64) :
    c.Consumes (c.advance (c.window n.toNat) n) n.toNat where
  data_eq := rfl
  pos_eq := rfl
  dataLen_eq := by rw [BitVec.ofNat_toNat, BitVec.setWidth_eq]; rfl
  hashed_eq := rfl

theorem Cursor.Consumes.trans {c c₁ c₂ : Cursor} {k m : ℕ} (h₁ : c.Consumes c₁ k)
    (h₂ : c₁.Consumes c₂ m) : c.Consumes c₂ (k + m) where
  data_eq := h₂.data_eq.trans h₁.data_eq
  pos_eq := by rw [h₂.pos_eq, h₁.pos_eq, Nat.add_assoc]
  dataLen_eq := by rw [h₂.dataLen_eq, h₁.dataLen_eq, BitVec.ofNat_add, sub_sub]
  hashed_eq := by
    rw [h₂.hashed_eq, h₁.hashed_eq, List.append_assoc, Cursor.window, Cursor.window, Cursor.window,
      h₁.data_eq, h₁.pos_eq, List.take_add, List.drop_drop]

/-- Consuming no more than was left takes exactly that much off `data_len`. -/
theorem Cursor.Consumes.toNat_dataLen {c c' : Cursor} {k : ℕ} (hcons : c.Consumes c' k)
    (hk : k ≤ c.dataLen.toNat) : c'.dataLen.toNat = c.dataLen.toNat - k := by
  have hk' : k < 2 ^ 64 := lt_of_le_of_lt hk c.dataLen.isLt
  rw [hcons.dataLen_eq, BitVec.toNat_sub_of_le
    (by rw [BitVec.le_def, BitVec.toNat_ofNat, Nat.mod_eq_of_lt hk']; exact hk),
    BitVec.toNat_ofNat, Nat.mod_eq_of_lt hk']

/-- A hashed `pull_bits` that succeeds had its `n5` symbols within the data and within
`data_len`, and consumed them. -/
theorem pullBits_consumes {nbits : BitVec 64} {pad : Bool} {s s' : DecodeState Chain}
    {dst : List (BitVec 8)} (h : (pullBits true nbits pad).run s = .ok (some dst, s')) :
    (symbolCount nbits).toNat ≤ s.cur.dataLen.toNat ∧
      s.cur.pos + (symbolCount nbits).toNat ≤ s.cur.data.length ∧
      s.cur.Consumes s'.cur (symbolCount nbits).toNat ∧ s' = { s with cur := s'.cur } := by
  rw [pullBits_run] at h
  split at h
  · cases h
  · next hlen =>
    split at h
    · next hend =>
      split at h
      · cases h
      · cases h
        exact ⟨BitVec.le_def.mp (BitVec.not_lt.mp hlen), hend, Cursor.consumes_advance _ _, rfl⟩
    · cases h

theorem pullBitsCertain_run (nbits : BitVec 64) (pad : Bool) (s : DecodeState Chain) :
    (pullBitsCertain nbits pad).run s =
      match (pullBits true nbits pad).run s with
      | .ok (some dst, s') => .ok (dst, s')
      | .ok (none, _) => .error .assertFails
      | .error e => .error e := by
  simp only [pullBitsCertain, run_bind]
  match (pullBits true nbits pad).run s with
  | .ok (some dst, s') => rfl
  | .ok (none, s') => rfl
  | .error e => rfl

theorem pullBitsCertain_consumes {nbits : BitVec 64} {pad : Bool} {s s' : DecodeState Chain}
    {dst : List (BitVec 8)} (h : (pullBitsCertain nbits pad).run s = .ok (dst, s')) :
    (symbolCount nbits).toNat ≤ s.cur.dataLen.toNat ∧
      s.cur.pos + (symbolCount nbits).toNat ≤ s.cur.data.length ∧
      s.cur.Consumes s'.cur (symbolCount nbits).toNat ∧ s' = { s with cur := s'.cur } := by
  rw [pullBitsCertain_run] at h
  split at h
  · cases h
    exact pullBits_consumes ‹_›
  · cases h
  · cases h

theorem toNat_shift_lt (x : BitVec 64) {d : ℕ} (hd : d ≤ 64) : (x >>> (64 - d)).toNat < 2 ^ d := by
  rw [BitVec.toNat_ushiftRight, Nat.shiftRight_eq_div_pow, Nat.div_lt_iff_lt_mul (by positivity),
    ← Nat.pow_add, Nat.add_sub_cancel' hd]
  exact x.isLt

/-- A `pull_uint` that succeeds consumed its symbols and read a number of `databits` bits. -/
theorem pullUint_consumes {databits v : BitVec 64} {s s' : DecodeState Chain}
    (h : (pullUint databits).run s = .ok (some v, s')) :
    (symbolCount databits).toNat ≤ s.cur.dataLen.toNat ∧
      s.cur.pos + (symbolCount databits).toNat ≤ s.cur.data.length ∧
      s.cur.Consumes s'.cur (symbolCount databits).toNat ∧ s' = { s with cur := s'.cur } ∧
      v.toNat < 2 ^ databits.toNat := by
  simp only [pullUint] at h
  split_ifs at h with hbits
  · cases h
  · rw [run_bind] at h
    split at h
    · next r s₁ hpull =>
      cases r with
      | none => cases h
      | some bytes =>
        cases h
        obtain ⟨hlen, hend, hcons, hrest⟩ := pullBits_consumes hpull
        exact ⟨hlen, hend, hcons, hrest, toNat_shift_lt _ (by bv_omega)⟩
    · cases h

theorem toNat_mul_five {k : BitVec 64} (hk : k.toNat < 2 ^ 61) : (k * 5).toNat = k.toNat * 5 := by
  simp only [BitVec.toNat_mul, BitVec.reduceToNat]
  omega

/-- `data_length * 5` bits are `data_length` symbols. -/
theorem symbolCount_mul_five {k : BitVec 64} (hk : k.toNat < 2 ^ 61) : symbolCount (k * 5) = k := by
  have hmul := toNat_mul_five hk
  unfold symbolCount
  rw [if_neg]
  · apply BitVec.eq_of_toNat_eq
    simp only [BitVec.toNat_udiv, hmul, BitVec.reduceToNat]
    omega
  · intro h
    apply h
    apply BitVec.eq_of_toNat_eq
    simp only [BitVec.toNat_umod, hmul, BitVec.reduceToNat]
    omega

/-! ## How every decoder moves the state -/

/-- The state of the decoder moves so: the data stays, the cursor does not go back, and
skipped fields are only added. -/
structure Grows (s s' : DecodeState Chain) : Prop where
  data_eq : s'.cur.data = s.cur.data
  pos_le : s.cur.pos ≤ s'.cur.pos
  extra_grows : s.b11.extraFields <+: s'.b11.extraFields

instance : Std.Refl (@Grows Chain) :=
  ⟨fun _ => ⟨rfl, le_rfl, List.prefix_refl _⟩⟩

instance : IsTrans (DecodeState Chain) Grows :=
  ⟨fun _ _ _ h₁ h₂ => ⟨h₂.data_eq.trans h₁.data_eq, h₁.pos_le.trans h₂.pos_le,
    h₁.extra_grows.trans h₂.extra_grows⟩⟩

/-- A write to the invoice that keeps its skipped fields. -/
theorem Grows.of_b11 {s s' : DecodeState Chain} (hcur : s'.cur = s.cur)
    (hextra : s'.b11.extraFields = s.b11.extraFields) : Grows s s' :=
  ⟨by rw [hcur], by rw [hcur], by rw [hextra]⟩

theorem readSymbols_keeps (n : ℕ) : Keeps Grows (readSymbols n : Decoder Chain _) := by
  unfold readSymbols
  exact Keeps.bind Keeps.get fun _ => Keeps.ite (Keeps.pure _) (Keeps.throw _)

theorem pullBits_keeps (hu5 : Bool) (nbits : BitVec 64) (pad : Bool) :
    Keeps Grows (pullBits hu5 nbits pad : Decoder Chain _) := by
  intro s r s' h
  rw [pullBits_run] at h
  split at h
  · cases h
    exact refl_of Grows s
  · split at h
    · split at h
      · cases h
        exact refl_of Grows s
      · cases h
        exact ⟨rfl, Nat.le_add_right _ _, List.prefix_refl _⟩
    · cases h

theorem pullBitsCertain_keeps (nbits : BitVec 64) (pad : Bool) :
    Keeps Grows (pullBitsCertain nbits pad : Decoder Chain _) := by
  unfold pullBitsCertain
  refine Keeps.bind (pullBits_keeps _ _ _) fun r => ?_
  cases r with
  | some dst => exact Keeps.pure _
  | none => exact Keeps.throw _

theorem pullUint_keeps (databits : BitVec 64) : Keeps Grows (pullUint databits : Decoder Chain _) := by
  unfold pullUint
  refine Keeps.ite (Keeps.pure _) (Keeps.bind (pullBits_keeps _ _ _) fun r => ?_)
  cases r with
  | none => exact Keeps.pure _
  | some bytes => exact Keeps.pure _

/-! ## What each field decoder does to the cursor -/

/-- `unknown_field` keeps the field, hashes the `⌈length / 5⌉` symbols that
`pull_bits_certain` takes for `length` bits, and then skips `length` symbols more. -/
theorem unknownField_skips {type : Char} {length : BitVec 64} {s s' : DecodeState Chain}
    (h : (unknownField type length).run s = .ok ((), s')) :
    ∃ c, s.cur.Consumes c (symbolCount length).toNat ∧ s'.cur = c.advance [] length ∧
      s'.b11.extraFields = s.b11.extraFields ++ [⟨type, s.cur.window length.toNat⟩] := by
  obtain ⟨syms, s₁, hread, h⟩ := run_bind_eq_ok.mp h
  rw [readSymbols_run] at hread
  split at hread
  · cases hread
    obtain ⟨_, s₂, hmod, h⟩ := run_bind_eq_ok.mp h
    cases hmod
    obtain ⟨dst, s₃, hpull, h⟩ := run_bind_eq_ok.mp h
    obtain ⟨-, -, hcons, hrest⟩ := pullBitsCertain_consumes hpull
    cases h
    refine ⟨s₃.cur, hcons, rfl, ?_⟩
    rw [hrest]
  · cases hread

theorem unknownField_not_kept {type : Char} {length : BitVec 64} {s s' : DecodeState Chain}
    (h : (unknownField type length).run s = .ok ((), s')) :
    s'.b11.extraFields ≠ s.b11.extraFields := by
  obtain ⟨-, -, -, hextra⟩ := unknownField_skips h
  intro hkept
  have hlen := congrArg List.length (hextra.symm.trans hkept)
  simp at hlen

theorem unknownField_keeps (type : Char) (length : BitVec 64) :
    Keeps Grows (unknownField type length : Decoder Chain _) := by
  unfold unknownField
  refine Keeps.bind (readSymbols_keeps _) fun _ => ?_
  refine Keeps.bind (Keeps.modify fun _ => ⟨rfl, le_rfl, List.prefix_append _ _⟩) fun _ => ?_
  refine Keeps.bind (pullBitsCertain_keeps _ _) fun _ => ?_
  exact Keeps.modify fun _ => ⟨rfl, Nat.le_add_right _ _, List.prefix_refl _⟩

theorem decodeHash_keeps (letter : Char) (haveField : DecodeState Chain → Bool)
    (store : List (BitVec 8) → DecodeState Chain → DecodeState Chain)
    (hstore : ∀ hash s, Grows s (store hash s)) (dataLength : BitVec 64) :
    Keeps Grows (decodeHash letter haveField store dataLength) := by
  unfold decodeHash
  refine Keeps.bind Keeps.get fun _ => Keeps.ite (unknownField_keeps _ _)
    (Keeps.ite (unknownField_keeps _ _) ?_)
  exact Keeps.bind (pullBitsCertain_keeps _ _) fun hash => Keeps.modify (hstore hash)

/-- The first hash field of 52 symbols consumes them; every other is skipped. -/
theorem decodeHash_consumes {letter : Char} {haveField : DecodeState Chain → Bool}
    {store : List (BitVec 8) → DecodeState Chain → DecodeState Chain} {dataLength : BitVec 64}
    {s s' : DecodeState Chain} (hstore : ∀ hash s, (store hash s).cur = s.cur)
    (h : (decodeHash letter haveField store dataLength).run s = .ok ((), s'))
    (hkept : s'.b11.extraFields = s.b11.extraFields) :
    s.cur.Consumes s'.cur dataLength.toNat := by
  obtain ⟨_, s₁, hget, h⟩ := run_bind_eq_ok.mp h
  cases hget
  split at h
  · exact absurd hkept (unknownField_not_kept h)
  · split at h
    · exact absurd hkept (unknownField_not_kept h)
    · next hlength =>
      obtain ⟨hash, s₂, hpull, h⟩ := run_bind_eq_ok.mp h
      obtain ⟨-, -, hcons, -⟩ := pullBitsCertain_consumes hpull
      cases h
      rw [hstore hash s₂]
      have h52 : (symbolCount 256).toNat = (52 : BitVec 64).toNat := by decide
      rw [h52] at hcons
      rwa [not_not.mp hlength]

theorem decodeP_keeps (dataLength : BitVec 64) : Keeps Grows (decodeP dataLength : Decoder Chain _) := by
  unfold decodeP
  refine decodeHash_keeps _ _ _ (fun _ _ => ?_) _
  exact Grows.of_b11 rfl rfl

theorem decodeH_keeps (dataLength : BitVec 64) : Keeps Grows (decodeH dataLength : Decoder Chain _) := by
  unfold decodeH
  refine decodeHash_keeps _ _ _ (fun _ _ => ?_) _
  exact Grows.of_b11 rfl rfl

theorem decodeP_consumes {dataLength : BitVec 64} {s s' : DecodeState Chain}
    (h : (decodeP dataLength).run s = .ok ((), s'))
    (hkept : s'.b11.extraFields = s.b11.extraFields) : s.cur.Consumes s'.cur dataLength.toNat := by
  unfold decodeP at h
  refine decodeHash_consumes (fun _ _ => ?_) h hkept
  rfl

theorem decodeH_consumes {dataLength : BitVec 64} {s s' : DecodeState Chain}
    (h : (decodeH dataLength).run s = .ok ((), s'))
    (hkept : s'.b11.extraFields = s.b11.extraFields) : s.cur.Consumes s'.cur dataLength.toNat := by
  unfold decodeH at h
  refine decodeHash_consumes (fun _ _ => ?_) h hkept
  rfl

theorem decodeD_keeps (dataLength : BitVec 64) : Keeps Grows (decodeD dataLength : Decoder Chain _) := by
  unfold decodeD
  refine Keeps.bind Keeps.get fun _ => Keeps.ite (unknownField_keeps _ _) ?_
  exact Keeps.bind (pullBitsCertain_keeps _ _) fun _ => Keeps.modify fun _ => Grows.of_b11 rfl rfl

/-- The first description consumes its `data_length` symbols. -/
theorem decodeD_consumes {dataLength : BitVec 64} {s s' : DecodeState Chain}
    (hlength : dataLength.toNat < 2 ^ 61) (h : (decodeD dataLength).run s = .ok ((), s'))
    (hkept : s'.b11.extraFields = s.b11.extraFields) :
    s.cur.Consumes s'.cur dataLength.toNat := by
  obtain ⟨_, s₁, hget, h⟩ := run_bind_eq_ok.mp h
  cases hget
  split at h
  · exact absurd hkept (unknownField_not_kept h)
  · obtain ⟨d, s₂, hpull, h⟩ := run_bind_eq_ok.mp h
    obtain ⟨-, -, hcons, -⟩ := pullBitsCertain_consumes hpull
    cases h
    rwa [symbolCount_mul_five hlength] at hcons

theorem decodeX_keeps (haveX : Bool) (dataLength : BitVec 64) :
    Keeps Grows (decodeX haveX dataLength : Decoder Chain _) := by
  unfold decodeX
  refine Keeps.ite (Keeps.bind (unknownField_keeps _ _) fun _ => Keeps.pure _) ?_
  refine Keeps.bind (pullUint_keeps _) fun r => ?_
  cases r with
  | none => exact Keeps.bind Keeps.get fun _ => Keeps.pure _
  | some expiry => exact Keeps.bind (Keeps.modify fun _ => Grows.of_b11 rfl rfl) fun _ => Keeps.pure _

/-- An expiry that is read consumes its `data_length` symbols. -/
theorem decodeX_consumes {haveX : Bool} {dataLength : BitVec 64} {s s' : DecodeState Chain}
    (hlength : dataLength.toNat < 2 ^ 61) (h : (decodeX haveX dataLength).run s = .ok (none, s'))
    (hkept : s'.b11.extraFields = s.b11.extraFields) :
    s.cur.Consumes s'.cur dataLength.toNat := by
  unfold decodeX at h
  split at h
  · obtain ⟨_, s₁, hskip, h⟩ := run_bind_eq_ok.mp h
    cases h
    exact absurd hkept (unknownField_not_kept hskip)
  · obtain ⟨r, s₁, hpull, h⟩ := run_bind_eq_ok.mp h
    cases r with
    | none =>
      obtain ⟨_, _, -, h⟩ := run_bind_eq_ok.mp h
      cases h
    | some expiry =>
      obtain ⟨-, -, hcons, -, -⟩ := pullUint_consumes hpull
      obtain ⟨_, s₂, hmod, h⟩ := run_bind_eq_ok.mp h
      cases hmod
      cases h
      rwa [symbolCount_mul_five hlength] at hcons

theorem decodeC_keeps (haveC : Bool) (dataLength : BitVec 64) :
    Keeps Grows (decodeC haveC dataLength : Decoder Chain _) := by
  unfold decodeC
  refine Keeps.ite (Keeps.bind (unknownField_keeps _ _) fun _ => Keeps.pure _) ?_
  refine Keeps.bind (pullUint_keeps _) fun r => ?_
  cases r with
  | none => exact Keeps.bind Keeps.get fun _ => Keeps.pure _
  | some c =>
    exact Keeps.bind (Keeps.modify fun _ => Grows.of_b11 rfl rfl) fun _ =>
      Keeps.ite (Keeps.pure _) (Keeps.pure _)

/-- A final CLTV expiry that is read and fits consumes its `data_length` symbols. -/
theorem decodeC_consumes {haveC : Bool} {dataLength : BitVec 64} {s s' : DecodeState Chain}
    (hlength : dataLength.toNat < 2 ^ 61) (h : (decodeC haveC dataLength).run s = .ok (none, s'))
    (hkept : s'.b11.extraFields = s.b11.extraFields) :
    s.cur.Consumes s'.cur dataLength.toNat := by
  unfold decodeC at h
  split at h
  · obtain ⟨_, s₁, hskip, h⟩ := run_bind_eq_ok.mp h
    cases h
    exact absurd hkept (unknownField_not_kept hskip)
  · obtain ⟨r, s₁, hpull, h⟩ := run_bind_eq_ok.mp h
    cases r with
    | none =>
      obtain ⟨_, _, -, h⟩ := run_bind_eq_ok.mp h
      cases h
    | some c =>
      obtain ⟨-, -, hcons, -, -⟩ := pullUint_consumes hpull
      obtain ⟨_, s₂, hmod, h⟩ := run_bind_eq_ok.mp h
      cases hmod
      split at h
      · cases h
      · cases h
        rwa [symbolCount_mul_five hlength] at hcons

theorem decodeN_keeps (pubkeyFromDer : List (BitVec 8) → Bool) (dataLength : BitVec 64) :
    Keeps Grows (decodeN pubkeyFromDer dataLength : Decoder Chain _) := by
  unfold decodeN
  refine Keeps.bind Keeps.get fun _ =>
    Keeps.ite (Keeps.bind (unknownField_keeps _ _) fun _ => Keeps.pure _)
      (Keeps.ite (Keeps.bind (unknownField_keeps _ _) fun _ => Keeps.pure _) ?_)
  refine Keeps.bind (pullBitsCertain_keeps _ _) fun _ => Keeps.ite (Keeps.pure _) ?_
  exact Keeps.bind (Keeps.modify fun _ => Grows.of_b11 rfl rfl) fun _ => Keeps.pure _

/-- The first node id of 53 symbols that is a public key consumes them. -/
theorem decodeN_consumes {pubkeyFromDer : List (BitVec 8) → Bool} {dataLength : BitVec 64}
    {s s' : DecodeState Chain} (h : (decodeN pubkeyFromDer dataLength).run s = .ok (none, s'))
    (hkept : s'.b11.extraFields = s.b11.extraFields) :
    s.cur.Consumes s'.cur dataLength.toNat := by
  obtain ⟨_, s₁, hget, h⟩ := run_bind_eq_ok.mp h
  cases hget
  split at h
  · obtain ⟨_, s₂, hskip, h⟩ := run_bind_eq_ok.mp h
    cases h
    exact absurd hkept (unknownField_not_kept hskip)
  · split at h
    · obtain ⟨_, s₂, hskip, h⟩ := run_bind_eq_ok.mp h
      cases h
      exact absurd hkept (unknownField_not_kept hskip)
    · next hlength =>
      obtain ⟨der, s₂, hpull, h⟩ := run_bind_eq_ok.mp h
      obtain ⟨-, -, hcons, -⟩ := pullBitsCertain_consumes hpull
      rw [not_not.mp hlength] at hcons ⊢
      split at h
      · cases h
      · obtain ⟨_, s₃, hmod, h⟩ := run_bind_eq_ok.mp h
        cases hmod
        cases h
        exact hcons

theorem addFallback_keeps (fallback : Fallback) :
    Keeps Grows (addFallback fallback : Decoder Chain _) :=
  Keeps.modify fun _ => Grows.of_b11 rfl rfl

theorem decodeF_keeps (dataLength : BitVec 64) : Keeps Grows (decodeF dataLength : Decoder Chain _) := by
  unfold decodeF
  refine Keeps.bind (pullUint_keeps _) fun r => ?_
  cases r with
  | none => exact Keeps.pure _
  | some version =>
    dsimp only
    refine Keeps.ite (Keeps.ite (Keeps.pure _) ?_) (Keeps.ite (Keeps.ite (Keeps.pure _) ?_)
      (Keeps.ite (Keeps.ite (Keeps.pure _) ?_) (Keeps.bind (unknownField_keeps _ _) fun _ => Keeps.pure _)))
    all_goals exact Keeps.bind (pullBitsCertain_keeps _ _) fun _ =>
      Keeps.bind (addFallback_keeps _) fun _ => Keeps.pure _

/-- The `f` field of length zero wraps `data_length - 1` around `size_t`; as a number of bits it
asks for far more symbols than any data holds. -/
theorem symbolCount_wrapped : 2 ^ 61 < (symbolCount ((0 - 1) * 5)).toNat ∧ numU8 (0 - 1) ≠ 20 := by
  decide

/-- A fallback that is read consumes its version and its `data_length - 1` symbols. -/
theorem decodeF_consumes {dataLength : BitVec 64} {s s' : DecodeState Chain}
    (hdata : s.cur.data.length < 2 ^ 61) (hlength : dataLength.toNat < 2 ^ 61)
    (h : (decodeF dataLength).run s = .ok (none, s'))
    (hkept : s'.b11.extraFields = s.b11.extraFields) :
    s.cur.Consumes s'.cur dataLength.toNat := by
  obtain ⟨r, s₁, hversion, h⟩ := run_bind_eq_ok.mp h
  cases r with
  | none => cases h
  | some version =>
    obtain ⟨-, -, hcons₁, hcur₁, -⟩ := pullUint_consumes hversion
    have h1 : (symbolCount 5).toNat = 1 := by decide
    rw [h1] at hcons₁
    have hextra₁ : s₁.b11.extraFields = s.b11.extraFields := by rw [hcur₁]
    -- the program after the version: one pull of `data_length - 1` symbols, or a skip
    have hrest : ∀ {nbits : BitVec 64} {fallback : List (BitVec 8) → Fallback},
        (do let f ← pullBitsCertain nbits false; addFallback (fallback f); pure none :
          Decoder Chain (Option String)).run s₁ = .ok (none, s') →
        s₁.cur.Consumes s'.cur (symbolCount nbits).toNat ∧
          s₁.cur.pos + (symbolCount nbits).toNat ≤ s₁.cur.data.length := by
      intro nbits fallback hpull
      obtain ⟨f, s₂, hpull, h⟩ := run_bind_eq_ok.mp hpull
      obtain ⟨-, hend, hcons, -⟩ := pullBitsCertain_consumes hpull
      obtain ⟨_, s₃, hmod, h⟩ := run_bind_eq_ok.mp h
      cases hmod
      cases h
      exact ⟨hcons, hend⟩
    -- after the version, the remaining length is `data_length - 1` unless it wrapped
    have hwhole : ∀ {nbits : BitVec 64}, nbits = (dataLength - 1) * 5 →
        s₁.cur.Consumes s'.cur (symbolCount nbits).toNat →
        s₁.cur.pos + (symbolCount nbits).toNat ≤ s₁.cur.data.length →
        s.cur.Consumes s'.cur dataLength.toNat := by
      intro nbits hnbits hcons hend
      by_cases hzero : dataLength = 0
      · subst hzero hnbits
        have hpos := hcons₁.data_eq ▸ hend
        have := symbolCount_wrapped.1
        omega
      · have hpos : 1 ≤ dataLength.toNat := by
          have := BitVec.toNat_ne_iff_ne.mpr hzero
          simp at this
          omega
        have hsub : (dataLength - 1).toNat = dataLength.toNat - 1 := by
          rw [BitVec.toNat_sub_of_le (by simp [BitVec.le_def]; omega)]
          simp
        rw [hnbits, symbolCount_mul_five (by omega), hsub] at hcons
        have htotal := hcons₁.trans hcons
        rwa [show 1 + (dataLength.toNat - 1) = dataLength.toNat by omega] at htotal
    dsimp only at h
    split at h
    · split at h
      · cases h
      · obtain ⟨hcons, hend⟩ := hrest h
        exact hwhole rfl hcons hend
    · split at h
      · split at h
        · cases h
        · obtain ⟨hcons, hend⟩ := hrest h
          exact hwhole rfl hcons hend
      · split at h
        · split at h
          · cases h
          · obtain ⟨hcons, hend⟩ := hrest h
            exact hwhole rfl hcons hend
        · obtain ⟨_, s₂, hskip, h⟩ := run_bind_eq_ok.mp h
          cases h
          exact absurd (hkept.trans hextra₁.symm) (unknownField_not_kept hskip)

theorem fromwireRouteInfo_length {pubkeyFromDer : List (BitVec 8) → Bool}
    {bytes rest : List (BitVec 8)} {hop : RouteInfo}
    (h : fromwireRouteInfo pubkeyFromDer bytes = some (hop, rest)) :
    rest.length + 51 = bytes.length := by
  unfold fromwireRouteInfo at h
  split_ifs at h with hok
  cases h
  rw [List.length_drop]
  omega

/-- The hop loop stops within as many rounds as there are bytes: more fuel gives the same
answer. -/
theorem decodeHops_fuel (pubkeyFromDer : List (BitVec 8) → Bool) {fuel fuel' : ℕ}
    {bytes : List (BitVec 8)} (hfuel : bytes.length ≤ fuel) (hfuel' : bytes.length ≤ fuel') :
    decodeHops pubkeyFromDer fuel bytes = decodeHops pubkeyFromDer fuel' bytes := by
  -- with no fuel there are no bytes, and the first hop cannot be read
  have hempty : ∀ n, decodeHops pubkeyFromDer n [] = none := by
    intro n
    cases n with
    | zero => rfl
    | succ n => simp [decodeHops, fromwireRouteInfo]
  induction fuel generalizing fuel' bytes with
  | zero =>
    rw [List.eq_nil_of_length_eq_zero (Nat.le_zero.mp hfuel), hempty, hempty]
  | succ fuel ih =>
    cases fuel' with
    | zero =>
      rw [List.eq_nil_of_length_eq_zero (Nat.le_zero.mp hfuel'), hempty, hempty]
    | succ fuel' =>
      simp only [decodeHops]
      split
      · rfl
      · next hop rest hread =>
        have hrest := fromwireRouteInfo_length hread
        rw [@ih fuel' _ (by omega) (by omega)]

theorem decodeR_keeps (pubkeyFromDer : List (BitVec 8) → Bool) (dataLength : BitVec 64) :
    Keeps Grows (decodeR pubkeyFromDer dataLength : Decoder Chain _) := by
  unfold decodeR
  refine Keeps.bind (pullBitsCertain_keeps _ _) fun _ => ?_
  split
  · exact Keeps.pure _
  · exact Keeps.bind (Keeps.modify fun _ => Grows.of_b11 rfl rfl) fun _ => Keeps.pure _

/-- A route that is read consumes its `data_length` symbols. -/
theorem decodeR_consumes {pubkeyFromDer : List (BitVec 8) → Bool} {dataLength : BitVec 64}
    {s s' : DecodeState Chain} (hlength : dataLength.toNat < 2 ^ 61)
    (h : (decodeR pubkeyFromDer dataLength).run s = .ok (none, s')) :
    s.cur.Consumes s'.cur dataLength.toNat := by
  obtain ⟨r8, s₁, hpull, h⟩ := run_bind_eq_ok.mp h
  obtain ⟨-, -, hcons, -⟩ := pullBitsCertain_consumes hpull
  rw [symbolCount_mul_five hlength] at hcons
  split at h
  · cases h
  · obtain ⟨_, s₂, hmod, h⟩ := run_bind_eq_ok.mp h
    cases hmod
    cases h
    exact hcons

end Spec

end Dexfin.Bolt11
