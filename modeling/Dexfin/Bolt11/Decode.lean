import Dexfin.Bolt11.Fields

/-!
# Decoding an invoice

`bolt11_decode` of `src/lightning/common/bolt11.c` after `bech32_decode`: the human-readable
part, the 35-bit timestamp, the loop over tagged fields while more than the signature's 104
symbols are left, the checks on `p` and `h`, and the signature.

Each round of the loop reads a type and a 10-bit length and checks the length against what is
left. A field that is read consumes its `3 + data_length` symbols and hashes them
(`fieldStep_consumes`), so over a run that skips no field `data_len` counts exactly the data
left and the hash covers exactly the data read (`fieldLoop_accounted`). A skipped field does
not: `unknown_field` hashes the `⌈data_length / 5⌉` symbols that `pull_bits_certain` takes for
`data_length` bits and then skips `data_length` more (`unknownField_skips`). That conversion
fails for lengths from one to five, where the `assert` aborts, and for longer ones `data_len`
wraps and the next round reads past the data (`bolt11Decode_unsafe`). The loop itself always
ends (`fieldLoop_fuel`): every round that returns moves the cursor by three symbols or more.
-/

namespace Dexfin.Bolt11

open StateExcept

section Loop

variable {Chain : Type}

/-- The `switch` of the tagged-field loop on `bech32_charset[type]`. -/
def decodeField (pubkeyFromDer : List (BitVec 8) → Bool) (letter : Char) (dataLength : BitVec 64) :
    Decoder Chain (Option String) :=
  match letter with
  | 'p' => do decodeP dataLength; return none
  | 'd' => do decodeD dataLength; return none
  | 'h' => do decodeH dataLength; return none
  | 'n' => decodeN pubkeyFromDer dataLength
  | 'x' => decodeX false dataLength
  | 'c' => decodeC false dataLength
  | 'f' => decodeF dataLength
  | 'r' => decodeR pubkeyFromDer dataLength
  | letter => do unknownField letter dataLength; return none

/-- One round of the tagged-field loop: the type, the length, the check that the length does
not exceed what is left, and the field. -/
def fieldStep (pubkeyFromDer : List (BitVec 8) → Bool) : Decoder Chain (Option String) := do
  let some type ← pullUint 5 | return some "Can\x27t get tag and length"
  let some dataLength ← pullUint 10 | return some "Can\x27t get tag and length"
  if dataLength > (← get).cur.dataLen then
    return some (String.singleton (charsetAt type) ++ ": truncated")
  decodeField pubkeyFromDer (charsetAt type) dataLength

/-- `while (data_len > 520 / 5)`: `some` of the problem that ended it, or `some none` when the
loop ends; `none` when `fuel` rounds were not enough, which `fieldLoop_fuel` rules out. -/
def fieldLoop (pubkeyFromDer : List (BitVec 8) → Bool) : ℕ → Decoder Chain (Option (Option String))
  | 0 => do
    if (← get).cur.dataLen ≤ 104 then return some none
    return none
  | fuel + 1 => do
    if (← get).cur.dataLen ≤ 104 then return some none
    match ← fieldStep pubkeyFromDer with
    | some problem => return some (some problem)
    | none => fieldLoop pubkeyFromDer fuel

end Loop

/-- The networks of `networks[]` in `src/lightning/bitcoin/chainparams.c`, in its order. -/
inductive Network
  | bitcoin
  | regtest
  | testnet
  | litecoin
  | litecoinTestnet
  deriving DecidableEq, Repr

/-- `bip173_name`. -/
def Network.bip173Name : Network → List Char
  | .bitcoin => ['b', 'c']
  | .regtest => ['b', 'c', 'r', 't']
  | .testnet => ['t', 'b']
  | .litecoin => ['l', 't', 'c']
  | .litecoinTestnet => ['t', 'l', 't', 'c']

/-- `chainparams_by_bip173`: the first network of that name. -/
def chainparamsByBip173 (bip173Name : List Char) : Option Network :=
  [.bitcoin, .regtest, .testnet, .litecoin, .litecoinTestnet].find? (·.bip173Name = bip173Name)

/-- What `bolt11_decode` calls in other libraries: `pubkey_from_der`, `sha256`, and the
secp256k1 parse, recovery and verification of the signature over the human-readable part and
the hashed symbols. -/
structure Externals where
  /-- `pubkey_from_der`. -/
  pubkeyFromDer : List (BitVec 8) → Bool
  /-- `sha256` of the description. -/
  sha256 : List Char → List (BitVec 8)
  /-- `secp256k1_ecdsa_recoverable_signature_parse_compact`. -/
  signatureParse : List (BitVec 8) → Bool
  /-- `secp256k1_ecdsa_recover`. -/
  signatureRecover : List Char → List U5 → List (BitVec 8) → Option (List (BitVec 8))
  /-- `secp256k1_ecdsa_verify`. -/
  signatureVerify : List Char → List U5 → List (BitVec 8) → List (BitVec 8) → Bool

section Decode

variable {Chain : Type}

/-- The data part of `bolt11_decode`, from the timestamp to the signature. -/
def decodeData (ext : Externals) (hrp : List Char) (description : Option (List Char)) :
    Decoder Chain (Except String (Invoice Chain)) := do
  let some timestamp ← pullUint 35 | return .error "Can\x27t get 35-bit timestamp"
  modify fun s => { s with b11 := { s.b11 with timestamp } }
  let loopResult ← fieldLoop ext.pubkeyFromDer (← get).cur.data.length
  let some loopProblem := loopResult | throw .outOfFuel
  if let some problem := loopProblem then return .error problem
  let s ← get
  if !s.haveP then return .error "No valid \x27p\x27 field found"
  if s.haveH then
    match description with
    | none => return .error "h: no description to check"
    | some d =>
      if s.b11.descriptionHash ≠ some (ext.sha256 d) then
        return .error "h: does not match description"
  let some sigAndRecid ← pullBits false 520 false | return .error "signature truncated"
  if (← get).cur.dataLen ≠ 0 then throw .assertFails
  if !ext.signatureParse sigAndRecid then return .error "signature invalid"
  let b11 := { (← get).b11 with sig := sigAndRecid }
  if !s.haveN then
    match ext.signatureRecover hrp s.cur.hashed sigAndRecid with
    | none => return .error "signature recovery failed"
    | some receiverId => return .ok { b11 with receiverId }
  if !ext.signatureVerify hrp s.cur.hashed sigAndRecid b11.receiverId then
    return .error "invalid signature"
  return .ok b11

/-- `bolt11_decode` on the human-readable part and the data that `bech32_decode` returned. -/
def bolt11Decode (ext : Externals) (errnoRange : Bool) (description : Option (List Char))
    (hrp : List Char) (data : List U5) : Except Stop (Except String (Invoice Network)) :=
  match decodeHrp chainparamsByBip173 errnoRange hrp with
  | .error fail => .ok (.error fail)
  | .ok (chain, msatoshi) =>
    (decodeData ext hrp description).run'
      ⟨⟨data, 0, BitVec.ofNat 64 data.length, []⟩, newBolt11 chain msatoshi, false, false, false, false⟩

end Decode

/-! ## Every round moves on -/

section Rounds

variable {Chain : Type}

theorem decodeField_keeps (pubkeyFromDer : List (BitVec 8) → Bool) (letter : Char)
    (dataLength : BitVec 64) :
    Keeps Grows (decodeField pubkeyFromDer letter dataLength : Decoder Chain _) := by
  unfold decodeField
  split
  · exact Keeps.bind (decodeP_keeps _) fun _ => Keeps.pure _
  · exact Keeps.bind (decodeD_keeps _) fun _ => Keeps.pure _
  · exact Keeps.bind (decodeH_keeps _) fun _ => Keeps.pure _
  · exact decodeN_keeps _ _
  · exact decodeX_keeps _ _
  · exact decodeC_keeps _ _
  · exact decodeF_keeps _
  · exact decodeR_keeps _ _
  · exact Keeps.bind (unknownField_keeps _ _) fun _ => Keeps.pure _

theorem fieldStep_keeps (pubkeyFromDer : List (BitVec 8) → Bool) :
    Keeps Grows (fieldStep pubkeyFromDer : Decoder Chain _) := by
  unfold fieldStep
  refine Keeps.bind (pullUint_keeps _) fun r => ?_
  cases r with
  | none => exact Keeps.pure _
  | some type =>
    refine Keeps.bind (pullUint_keeps _) fun r => ?_
    cases r with
    | none => exact Keeps.pure _
    | some dataLength =>
      exact Keeps.bind Keeps.get fun _ => Keeps.ite (Keeps.pure _) (decodeField_keeps _ _ _)

theorem symbolCount_header : (symbolCount 5).toNat = 1 ∧ (symbolCount 10).toNat = 2 := by
  decide

/-- A round that found no problem read its type within the data, and moved the cursor past
its three header symbols at least. -/
theorem fieldStep_advances {pubkeyFromDer : List (BitVec 8) → Bool} {s s' : DecodeState Chain}
    (h : (fieldStep pubkeyFromDer).run s = .ok (none, s')) :
    s.cur.pos < s.cur.data.length ∧ s.cur.pos + 3 ≤ s'.cur.pos ∧ s'.cur.data = s.cur.data := by
  obtain ⟨r₁, s₁, htype, h⟩ := run_bind_eq_ok.mp h
  cases r₁ with
  | none => cases h
  | some type =>
    obtain ⟨-, hend₁, hcons₁, -, -⟩ := pullUint_consumes htype
    obtain ⟨r₂, s₂, hlength, h⟩ := run_bind_eq_ok.mp h
    cases r₂ with
    | none => cases h
    | some dataLength =>
      obtain ⟨-, -, hcons₂, -, -⟩ := pullUint_consumes hlength
      obtain ⟨_, s₃, hget, h⟩ := run_bind_eq_ok.mp h
      cases hget
      split at h
      · cases h
      · have hgrow := decodeField_keeps pubkeyFromDer _ _ s₂ none s' h
        have hpos₁ := hcons₁.pos_eq
        have hpos₂ := hcons₂.pos_eq
        have hpos := hgrow.pos_le
        rw [symbolCount_header.1] at hend₁ hpos₁
        rw [symbolCount_header.2] at hpos₂
        refine ⟨by omega, by omega, ?_⟩
        rw [hgrow.data_eq, hcons₂.data_eq, hcons₁.data_eq]

theorem fieldLoop_keeps (pubkeyFromDer : List (BitVec 8) → Bool) (fuel : ℕ) :
    Keeps Grows (fieldLoop pubkeyFromDer fuel : Decoder Chain _) := by
  induction fuel with
  | zero =>
    exact Keeps.bind Keeps.get fun _ => Keeps.ite (Keeps.pure _) (Keeps.pure _)
  | succ fuel ih =>
    refine Keeps.bind Keeps.get fun _ =>
      Keeps.ite (Keeps.pure _) (Keeps.bind (fieldStep_keeps _) fun r => ?_)
    cases r with
    | some problem => exact Keeps.pure _
    | none => exact ih

/-- The loop never runs out of fuel once it has more rounds than there are symbols left: each
round that returns moves the cursor past a symbol of the data. -/
theorem fieldLoop_fuel (pubkeyFromDer : List (BitVec 8) → Bool) {fuel : ℕ}
    {s s' : DecodeState Chain} (hpos : 0 < fuel) (hfuel : s.cur.data.length < fuel + s.cur.pos) :
    (fieldLoop pubkeyFromDer fuel).run s ≠ .ok (none, s') := by
  induction fuel generalizing s with
  | zero => omega
  | succ fuel ih =>
    intro h
    obtain ⟨_, s₁, hget, h⟩ := run_bind_eq_ok.mp h
    cases hget
    split at h
    · cases h
    · obtain ⟨r, s₂, hstep, h⟩ := run_bind_eq_ok.mp h
      cases r with
      | some problem => cases h
      | none =>
        obtain ⟨hread, hadvance, hdata⟩ := fieldStep_advances hstep
        exact ih (by omega) (by rw [hdata]; omega) h

end Rounds

/-! ## The accounting of a round -/

section Accounting

variable {Chain : Type}

theorem decodeField_consumes {pubkeyFromDer : List (BitVec 8) → Bool} {letter : Char}
    {dataLength : BitVec 64} {s s' : DecodeState Chain} (hdata : s.cur.data.length < 2 ^ 61)
    (hlength : dataLength.toNat < 2 ^ 61)
    (h : (decodeField pubkeyFromDer letter dataLength).run s = .ok (none, s'))
    (hkept : s'.b11.extraFields = s.b11.extraFields) :
    s.cur.Consumes s'.cur dataLength.toNat := by
  unfold decodeField at h
  split at h
  · obtain ⟨_, s₁, hfield, h⟩ := run_bind_eq_ok.mp h
    cases h
    exact decodeP_consumes hfield hkept
  · obtain ⟨_, s₁, hfield, h⟩ := run_bind_eq_ok.mp h
    cases h
    exact decodeD_consumes hlength hfield hkept
  · obtain ⟨_, s₁, hfield, h⟩ := run_bind_eq_ok.mp h
    cases h
    exact decodeH_consumes hfield hkept
  · exact decodeN_consumes h hkept
  · exact decodeX_consumes hlength h hkept
  · exact decodeC_consumes hlength h hkept
  · exact decodeF_consumes hdata hlength h hkept
  · exact decodeR_consumes hlength h
  · obtain ⟨_, s₁, hskip, h⟩ := run_bind_eq_ok.mp h
    cases h
    exact absurd hkept (unknownField_not_kept hskip)

/-- A round that skips no field consumes its type, its length and its `data_length` symbols,
no more than were left, and hashes exactly them. -/
theorem fieldStep_consumes {pubkeyFromDer : List (BitVec 8) → Bool} {s s' : DecodeState Chain}
    (hdata : s.cur.data.length < 2 ^ 61) (h : (fieldStep pubkeyFromDer).run s = .ok (none, s'))
    (hkept : s'.b11.extraFields = s.b11.extraFields) :
    ∃ dataLength, dataLength + 3 ≤ s.cur.dataLen.toNat ∧ s.cur.Consumes s'.cur (3 + dataLength) := by
  obtain ⟨r₁, s₁, htype, h⟩ := run_bind_eq_ok.mp h
  cases r₁ with
  | none => cases h
  | some type =>
    obtain ⟨hleft₁, -, hcons₁, hcur₁, -⟩ := pullUint_consumes htype
    obtain ⟨r₂, s₂, hlength, h⟩ := run_bind_eq_ok.mp h
    cases r₂ with
    | none => cases h
    | some dataLength =>
      obtain ⟨hleft₂, -, hcons₂, hcur₂, hbound⟩ := pullUint_consumes hlength
      obtain ⟨_, s₃, hget, h⟩ := run_bind_eq_ok.mp h
      cases hget
      split at h
      · cases h
      · next htrunc =>
        have hextra : s₂.b11.extraFields = s.b11.extraFields := by rw [hcur₂, hcur₁]
        have hfield := decodeField_consumes (by rw [hcons₂.data_eq, hcons₁.data_eq]; exact hdata)
          (lt_trans hbound (by decide)) h (hkept.trans hextra.symm)
        rw [symbolCount_header.1] at hcons₁ hleft₁
        rw [symbolCount_header.2] at hcons₂ hleft₂
        -- `data_len` after the header is what was left less three, and bounds the length
        have hleft : dataLength.toNat + 3 ≤ s.cur.dataLen.toNat := by
          have hlen₁ := hcons₁.toNat_dataLen hleft₁
          have hlen₂ := hcons₂.toNat_dataLen hleft₂
          have htrunc' := BitVec.le_def.mp (BitVec.not_lt.mp htrunc)
          omega
        refine ⟨dataLength.toNat, hleft, ?_⟩
        have htotal := (hcons₁.trans hcons₂).trans hfield
        rwa [show 1 + 2 + dataLength.toNat = 3 + dataLength.toNat by omega] at htotal

/-- What the claim asks of the cursor: the hashed symbols are exactly the data read so far,
and `data_len` counts exactly the data left. -/
structure Cursor.Accounted (c : Cursor) : Prop where
  hashed_eq : c.hashed = c.data.take c.pos
  remaining : c.pos + c.dataLen.toNat = c.data.length

theorem Cursor.Accounted.consumes {c c' : Cursor} {k : ℕ} (hacc : c.Accounted)
    (hcons : c.Consumes c' k) (hk : k ≤ c.dataLen.toNat) : c'.Accounted where
  hashed_eq := by
    rw [hcons.hashed_eq, hacc.hashed_eq, hcons.data_eq, hcons.pos_eq, Cursor.window, List.take_add]
  remaining := by
    have hremaining := hacc.remaining
    rw [hcons.pos_eq, hcons.toNat_dataLen hk, hcons.data_eq]
    omega

/-- Over a run of the loop that ends and skips no field, the accounting holds from the first
round to the last: `data_len` never wraps and the hash covers exactly the data read. -/
theorem fieldLoop_accounted (pubkeyFromDer : List (BitVec 8) → Bool) {fuel : ℕ}
    {s s' : DecodeState Chain} (hdata : s.cur.data.length < 2 ^ 61) (hacc : s.cur.Accounted)
    (h : (fieldLoop pubkeyFromDer fuel).run s = .ok (some none, s'))
    (hkept : s'.b11.extraFields = s.b11.extraFields) :
    s'.cur.Accounted := by
  induction fuel generalizing s with
  | zero =>
    obtain ⟨_, s₁, hget, h⟩ := run_bind_eq_ok.mp h
    cases hget
    split at h
    · cases h
      exact hacc
    · cases h
  | succ fuel ih =>
    obtain ⟨_, s₁, hget, h⟩ := run_bind_eq_ok.mp h
    cases hget
    split at h
    · cases h
      exact hacc
    · obtain ⟨r, s₂, hstep, h⟩ := run_bind_eq_ok.mp h
      cases r with
      | some problem => cases h
      | none =>
        -- fields are only ever added, and in the end there are none more: this round added none
        have hextra₁ := (fieldStep_keeps pubkeyFromDer s none s₂ hstep).extra_grows
        have hextra₂ := (fieldLoop_keeps pubkeyFromDer fuel s₂ _ s' h).extra_grows
        have hkept₂ : s₂.b11.extraFields = s.b11.extraFields := by
          refine (hextra₁.eq_of_length ?_).symm
          have := hextra₂.length_le
          rw [hkept] at this
          exact le_antisymm hextra₁.length_le this
        obtain ⟨dataLength, hleft, hcons⟩ := fieldStep_consumes hdata hstep hkept₂
        exact ih (by rw [hcons.data_eq]; exact hdata) (hacc.consumes hcons (by omega)) h
          (hkept.trans hkept₂.symm)

end Accounting

/-! ## Two invoices the decoder does not survive -/

/-- The data of an invoice with no amount whose first field, after a timestamp of zero, has the
unknown type `q` and length one, followed by 105 symbols of zero. -/
def shortUnknownField : List U5 := List.replicate 7 0 ++ [0, 0, 1] ++ List.replicate 105 0

/-- As `shortUnknownField`, with the first field of length 100. -/
def longUnknownField : List U5 := List.replicate 7 0 ++ [0, 3, 4] ++ List.replicate 105 0

theorem decodeHrp_lnbc (errnoRange : Bool) :
    decodeHrp chainparamsByBip173 errnoRange ['l', 'n', 'b', 'c'] = .ok (Network.bitcoin, none) := by
  cases errnoRange <;> decide

set_option maxRecDepth 2000 in
/-- `bolt11_decode` is not safe on hostile input. An unknown field of length one makes
`pull_bits_certain` convert one symbol to bytes without padding, which fails, and the `assert`
aborts. An unknown field of length 100 hashes 20 symbols and then skips 100 more, 120 in all
where 105 were left: `data_len` wraps, and the next round reads past the data. Whatever the
signature library, the description and `errno`. -/
theorem bolt11Decode_unsafe (ext : Externals) (errnoRange : Bool)
    (description : Option (List Char)) :
    bolt11Decode ext errnoRange description ['l', 'n', 'b', 'c'] shortUnknownField =
        .error .assertFails ∧
      bolt11Decode ext errnoRange description ['l', 'n', 'b', 'c'] longUnknownField =
        .error .readsPastEnd := by
  -- each run is a few hundred steps of the model over 115 symbols, evaluated by `rfl`
  constructor <;> rw [bolt11Decode, decodeHrp_lnbc] <;> rfl

end Dexfin.Bolt11
