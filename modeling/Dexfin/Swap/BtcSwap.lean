import Dexfin.Swap.Compile

/-!
# The BTC side of a swap

`BtcSwap` of swap.core locks bitcoin in a pay-to-script-hash output whose script
(`createScript`) pays the recipient against the secret and the recipient's signature, or
the owner after the lock time against the secret and the owner's signature. The functions of
bitcoinjs-lib that it calls are parameters (`BitcoinEnv`), and what the results assume of them
is stated (`BitcoinEnv.Lawful`). The withdrawal (`getWithdrawRawTransaction`) spends every
unspent output at the script's address in one transaction, but `_signTransaction` signs and
fills in only its first input.

The script's phrases are evaluated once each, for any stack and any rest of the script:
the hash lock, the key comparison that opens the branches, a signature check, and the time
lock, each executed or skipped. From them, `evalScript_createScript` says what the script
computes on any stack `[s, pk, sig]`, and `verifyScript_spend` which spends of the output
verify. `verifyScript_unsigned` is the failure of every other input of a withdrawal.
-/

namespace Dexfin.Swap

open Dexfin.Bitcoin

/-! ## The script -/

/-- The fields of `data` that `createScript` reads, as bytes. -/
structure ScriptValues where
  /-- `secretHash`. -/
  secretHash : Valtype
  /-- `ownerPublicKey`. -/
  ownerPublicKey : Valtype
  /-- `recipientPublicKey`. -/
  recipientPublicKey : Valtype
  /-- `lockTime`. -/
  lockTime : UInt32
  deriving DecidableEq, Repr

/-- `OP_${hashName.toUpperCase()}`. -/
def hashOpcode : HashOp → UInt8
  | .ripemd160 => opRipemd160
  | .sha1 => 0xa7
  | .sha256 => 0xa8
  | .hash160 => opHash160
  | .hash256 => 0xaa

/-- The chunks `createScript` compiles; `number.encode` writes the lock time as
`CScriptNum::serialize` does. -/
def scriptChunks (v : ScriptValues) (hashName : HashOp) : List Chunk :=
  [.op (hashOpcode hashName), .data v.secretHash, .op opEqualverify,
    .data v.recipientPublicKey, .op opEqual,
    .op opIf,
      .data v.recipientPublicKey, .op opChecksig,
    .op opElse,
      .data (scriptNumSerialize v.lockTime.toNat), .op opChecklocktimeverify, .op opDrop,
      .data v.ownerPublicKey, .op opChecksig,
    .op opEndif]

/-- The chunks of a script-hash output: `OP_HASH160`, the hash, `OP_EQUAL`. -/
def p2shChunks (hash : Valtype) : List Chunk :=
  [.op opHash160, .data hash, .op opEqual]

/-- `SwapApp.env.bitcoin`, the bitcoinjs-lib the app is given, which is not part of the source:
the functions of it that the swap's scripts call. -/
structure BitcoinEnv where
  /-- `crypto`. -/
  hashes : Hashes
  /-- `script.compile`. -/
  compile : List Chunk → Valtype
  /-- `script.scriptHash.input.encode(redeemScriptStack, redeemScript)`. -/
  scriptHashInput : List Valtype → Valtype → Valtype
  /-- `script.scriptHash.output.encode(hash)`. -/
  scriptHashOutput : Valtype → Valtype

/-- What the results on spends assume of the script functions of bitcoinjs-lib: `compile`
writes each chunk in its minimal encoding, `scriptHash.input.encode` pushes the stack and then
the serialized script, and `scriptHash.output.encode` compiles the chunks of a script-hash
output. -/
structure BitcoinEnv.Lawful (env : BitcoinEnv) : Prop where
  compile_eq : ∀ chunks, env.compile chunks = encodeChunks chunks
  scriptHashInput_eq : ∀ redeemScriptStack redeemScript,
    env.scriptHashInput redeemScriptStack redeemScript =
      env.compile ((redeemScriptStack ++ [redeemScript]).map .data)
  scriptHashOutput_eq : ∀ hash, env.scriptHashOutput hash = env.compile (p2shChunks hash)

/-- What `createScript` returns: the script, and its address as an output script. -/
structure SwapScript where
  /-- `script`. -/
  script : Valtype
  /-- The output script of `scriptAddress`. -/
  scriptPubKey : Valtype

/-- `BtcSwap.createScript`. -/
def createScript (env : BitcoinEnv) (v : ScriptValues) (hashName : HashOp := .ripemd160) :
    SwapScript :=
  let script := env.compile (scriptChunks v hashName)
  ⟨script, env.scriptHashOutput (env.hashes.hash160 script)⟩

theorem createScript_scriptPubKey (env : BitcoinEnv) (v : ScriptValues) (hashName : HashOp) :
    (createScript env v hashName).scriptPubKey =
      env.scriptHashOutput (env.hashes.hash160 (createScript env v hashName).script) := rfl

/-- Under the assumption on `compile`, the script is the encoding of its chunks. -/
theorem BitcoinEnv.Lawful.createScript_script {env : BitcoinEnv} (henv : env.Lawful)
    (v : ScriptValues) (hashName : HashOp) :
    (createScript env v hashName).script = encodeChunks (scriptChunks v hashName) :=
  henv.compile_eq _

/-! ## The phrases of the script -/

section Phrases

variable {flags : ScriptFlags} {hashes : Hashes} {checker : SignatureChecker} {cs : List Chunk}
variable {rest alt : List Valtype} {vf : List Bool} {code : Valtype} {n : Nat}

/-- `OP_<hash> <h> OP_EQUALVERIFY`: the hash lock on the top of the stack. -/
theorem evalChunks_hashLock {hashName : HashOp} {sh x : Valtype} (hexec : vf.all id = true)
    (hsh : sh.length ≤ maxScriptElementSize) (hcount : n + 2 ≤ maxOpsPerScript)
    (hsize : rest.length + 2 + alt.length ≤ maxStackSize) :
    evalChunks flags hashes checker
        (.op (hashOpcode hashName) :: .data sh :: .op opEqualverify :: cs)
        ⟨x :: rest, alt, vf, code, n⟩ =
      if hashes.apply hashName x = sh then
        evalChunks flags hashes checker cs ⟨rest, alt, vf, code, n + 2⟩
      else .error .equalVerify := by
  have hop : op16 < hashOpcode hashName := by cases hashName <;> decide
  have hdis : hashOpcode hashName ∉ disabledOpcodes := by cases hashName <;> decide
  have hcase : opcodeOf (hashOpcode hashName) = .hash hashName := by cases hashName <;> decide
  have hc₁ : n + 1 ≤ maxOpsPerScript := by omega
  have hc₂ : n + 1 + 1 ≤ maxOpsPerScript := by omega
  have hs₁ : (hashes.apply hashName x :: rest).length + 1 + alt.length ≤ maxStackSize := by
    simp only [List.length_cons]
    omega
  rw [evalChunks_op hop (.inl hexec) hdis hc₁, execOp_hash hcase]
  dsimp only
  rw [if_neg (by simp only [List.length_cons] at hs₁ ⊢; omega),
    evalChunks_data hsh (by omega) hexec hs₁,
    evalChunks_op (by decide) (.inl hexec) (by decide) hc₂, execOp_equalverify]
  split_ifs with heq
  · dsimp only
    rw [if_neg (by omega)]
  · rfl

/-- `<k> OP_EQUAL OP_IF`: a branch taken when the top of the stack is `k`. -/
theorem evalChunks_keyIf {k pk : Valtype} (hexec : vf.all id = true)
    (hk : k.length ≤ maxScriptElementSize) (hcount : n + 2 ≤ maxOpsPerScript)
    (hsize : rest.length + 2 + alt.length ≤ maxStackSize) :
    evalChunks flags hashes checker (.data k :: .op opEqual :: .op opIf :: cs)
        ⟨pk :: rest, alt, vf, code, n⟩ =
      evalChunks flags hashes checker cs ⟨rest, alt, decide (pk = k) :: vf, code, n + 2⟩ := by
  have hc₁ : n + 1 ≤ maxOpsPerScript := by omega
  have hc₂ : n + 1 + 1 ≤ maxOpsPerScript := by omega
  have hs₁ : (pk :: rest).length + 1 + alt.length ≤ maxStackSize := by
    simp only [List.length_cons]
    omega
  rw [evalChunks_data hk (by omega) hexec hs₁,
    evalChunks_op (by decide) (.inl hexec) (by decide) hc₁, execOp_equal]
  dsimp only
  rw [if_neg (by simp only [List.length_cons]; omega),
    evalChunks_op (by decide) (.inl hexec) (by decide) hc₂, execOp_if hexec]
  dsimp only
  rw [if_neg (by omega), castToBool_boolVch]

/-- `<k> OP_CHECKSIG` in a branch taken: the signature below it is checked against `k`. -/
theorem evalChunks_checkSig {k sig : Valtype} (hexec : vf.all id = true)
    (hk : k.length ≤ maxScriptElementSize) (hcount : n + 1 ≤ maxOpsPerScript)
    (hsize : rest.length + 2 + alt.length ≤ maxStackSize) :
    evalChunks flags hashes checker (.data k :: .op opChecksig :: cs)
        ⟨sig :: rest, alt, vf, code, n⟩ =
      (checkSigOutcome flags checker (findAndDelete code (pushOf sig)) sig k).bind fun ok =>
        evalChunks flags hashes checker cs ⟨boolVch ok :: rest, alt, vf, code, n + 1⟩ := by
  have hs₁ : (sig :: rest).length + 1 + alt.length ≤ maxStackSize := by
    simp only [List.length_cons]
    omega
  rw [evalChunks_data hk (by omega) hexec hs₁,
    evalChunks_op (by decide) (.inl hexec) (by decide) hcount, execOp_checksig]
  cases checkSigOutcome flags checker (findAndDelete code (pushOf sig)) sig k with
  | error e => rfl
  | ok ok =>
    dsimp only [Except.map, Except.bind]
    rw [if_neg (by simp only [List.length_cons, boolVch]; omega)]

/-- `<k> OP_CHECKSIG` in a branch not taken is only counted. -/
theorem evalChunks_checkSig_skip {k : Valtype} {stack : List Valtype}
    (hexec : vf.all id = false) (hk : k.length ≤ maxScriptElementSize)
    (hcount : n + 1 ≤ maxOpsPerScript) (hsize : stack.length + alt.length ≤ maxStackSize) :
    evalChunks flags hashes checker (.data k :: .op opChecksig :: cs) ⟨stack, alt, vf, code, n⟩ =
      evalChunks flags hashes checker cs ⟨stack, alt, vf, code, n + 1⟩ := by
  rw [evalChunks_skip_data hk (by omega) hexec hsize,
    evalChunks_skip_op (by decide) (by decide) (by decide) hcount hexec hsize]

/-- `OP_ELSE` switches the innermost branch. -/
theorem evalChunks_else {stack : List Valtype} {b : Bool} (hcount : n + 1 ≤ maxOpsPerScript)
    (hsize : stack.length + alt.length ≤ maxStackSize) :
    evalChunks flags hashes checker (.op opElse :: cs) ⟨stack, alt, b :: vf, code, n⟩ =
      evalChunks flags hashes checker cs ⟨stack, alt, (!b) :: vf, code, n + 1⟩ := by
  rw [evalChunks_op (by decide) (.inr (by decide)) (by decide) hcount, execOp_else]
  dsimp only
  rw [if_neg (by omega)]

/-- `OP_ENDIF` closes the innermost branch. -/
theorem evalChunks_endif {stack : List Valtype} {b : Bool} (hcount : n + 1 ≤ maxOpsPerScript)
    (hsize : stack.length + alt.length ≤ maxStackSize) :
    evalChunks flags hashes checker (.op opEndif :: cs) ⟨stack, alt, b :: vf, code, n⟩ =
      evalChunks flags hashes checker cs ⟨stack, alt, vf, code, n + 1⟩ := by
  rw [evalChunks_op (by decide) (.inr (by decide)) (by decide) hcount, execOp_endif]
  dsimp only
  rw [if_neg (by omega)]

/-- `<t> OP_CHECKLOCKTIMEVERIFY OP_DROP` in a branch taken: the time lock. -/
theorem evalChunks_timeLock {m : Nat} {stack : List Valtype} (h0 : 0 < m) (h : m < 2 ^ 32)
    (hexec : vf.all id = true) (hcount : n + 2 ≤ maxOpsPerScript)
    (hsize : stack.length + 1 + alt.length ≤ maxStackSize) :
    evalChunks flags hashes checker
        (.data (scriptNumSerialize m) :: .op opChecklocktimeverify :: .op opDrop :: cs)
        ⟨stack, alt, vf, code, n⟩ =
      if flags.checkLockTimeVerify ∧ !checker.checkLockTime m then .error .unsatisfiedLocktime
      else evalChunks flags hashes checker cs ⟨stack, alt, vf, code, n + 2⟩ := by
  have hlen : (scriptNumSerialize m).length ≤ maxScriptElementSize := by
    have := length_scriptNumSerialize_le h0 h
    simp only [maxScriptElementSize]
    omega
  have hc₁ : n + 1 ≤ maxOpsPerScript := by omega
  have hc₂ : n + 1 + 1 ≤ maxOpsPerScript := by omega
  rw [evalChunks_data hlen (by omega) hexec hsize,
    evalChunks_op (by decide) (.inl hexec) (by decide) hc₁, execOp_checklocktimeverify h0 h]
  split_ifs with hlock
  · rfl
  · dsimp only
    rw [if_neg (by simp only [List.length_cons]; omega),
      evalChunks_op (by decide) (.inl hexec) (by decide) hc₂, execOp_drop]
    dsimp only
    rw [if_neg (by omega)]

/-- `<t> OP_CHECKLOCKTIMEVERIFY OP_DROP` in a branch not taken is only counted. -/
theorem evalChunks_timeLock_skip {m : Nat} {stack : List Valtype} (h0 : 0 < m)
    (h : m < 2 ^ 32) (hexec : vf.all id = false) (hcount : n + 2 ≤ maxOpsPerScript)
    (hsize : stack.length + alt.length ≤ maxStackSize) :
    evalChunks flags hashes checker
        (.data (scriptNumSerialize m) :: .op opChecklocktimeverify :: .op opDrop :: cs)
        ⟨stack, alt, vf, code, n⟩ =
      evalChunks flags hashes checker cs ⟨stack, alt, vf, code, n + 2⟩ := by
  have hlen : (scriptNumSerialize m).length ≤ maxScriptElementSize := by
    have := length_scriptNumSerialize_le h0 h
    simp only [maxScriptElementSize]
    omega
  rw [evalChunks_skip_data hlen (by omega) hexec hsize,
    evalChunks_skip_op (by decide) (by decide) (by decide) (by omega) hexec hsize,
    evalChunks_skip_op (by decide) (by decide) (by decide) (by omega) hexec hsize]

end Phrases

/-! ## The script -/

/-- The assumptions on the script's values under which it evaluates as written: every buffer
fits a stack element and the lock time is positive. -/
structure ScriptValues.Fits (v : ScriptValues) : Prop where
  secretHash : v.secretHash.length ≤ maxScriptElementSize
  recipientPublicKey : v.recipientPublicKey.length ≤ maxScriptElementSize
  ownerPublicKey : v.ownerPublicKey.length ≤ maxScriptElementSize
  lockTime : 0 < v.lockTime.toNat

theorem ScriptValues.Fits.wellFormed {v : ScriptValues} (hv : v.Fits) (hashName : HashOp) :
    ∀ c ∈ scriptChunks v hashName, c.WellFormed := by
  have hlock := length_scriptNumSerialize_le hv.lockTime v.lockTime.toNat_lt
  have h₁ := hv.secretHash
  have h₂ := hv.recipientPublicKey
  have h₃ := hv.ownerPublicKey
  simp only [maxScriptElementSize] at h₁ h₂ h₃
  intro c hc
  simp only [scriptChunks, List.mem_cons, List.not_mem_nil, or_false] at hc
  rcases hc with rfl | rfl | rfl | rfl | rfl | rfl | rfl | rfl | rfl | rfl | rfl | rfl | rfl |
    rfl | rfl
  all_goals simp only [Chunk.WellFormed]
  all_goals first | omega | (cases hashName <;> decide)

theorem ScriptValues.Fits.length_le {v : ScriptValues} (hv : v.Fits) (hashName : HashOp) :
    (encodeChunks (scriptChunks v hashName)).length ≤ maxScriptSize := by
  have hlock := length_scriptNumSerialize_le hv.lockTime v.lockTime.toNat_lt
  -- ten opcodes of one byte and five buffers
  have hsize : ((scriptChunks v hashName).map Chunk.size).sum =
      v.secretHash.length + 2 * v.recipientPublicKey.length + v.ownerPublicKey.length +
        (scriptNumSerialize v.lockTime.toNat).length + 35 := by
    simp only [scriptChunks, List.map_cons, List.map_nil, List.sum_cons, List.sum_nil, Chunk.size]
    omega
  have hsum := length_encodeChunks_le (scriptChunks v hashName)
  have h₁ := hv.secretHash
  have h₂ := hv.recipientPublicKey
  have h₃ := hv.ownerPublicKey
  simp only [maxScriptElementSize] at h₁ h₂ h₃
  simp only [maxScriptSize]
  omega

/-- The script of `createScript` on a stack `[s, pk, sig]`: the hash of `s` must be the
secret hash; then a `pk` equal to the recipient's key takes the first branch, which checks
`sig` against the recipient's key, and any other `pk` the second, which checks the lock time
and then `sig` against the owner's key. -/
theorem evalScript_createScript {flags : ScriptFlags} {env : BitcoinEnv} (henv : env.Lawful)
    {checker : SignatureChecker} {v : ScriptValues} (hv : v.Fits) (s pk sig : Valtype) :
    evalScript flags env.hashes checker [s, pk, sig] (createScript env v).script =
      if env.hashes.ripemd160 s = v.secretHash then
        if pk = v.recipientPublicKey then
          (checkSigOutcome flags checker (findAndDelete (createScript env v).script
            (pushOf sig)) sig v.recipientPublicKey).map fun ok => [boolVch ok]
        else if flags.checkLockTimeVerify ∧ !checker.checkLockTime v.lockTime.toNat then
          .error .unsatisfiedLocktime
        else
          (checkSigOutcome flags checker (findAndDelete (createScript env v).script
            (pushOf sig)) sig v.ownerPublicKey).map fun ok => [boolVch ok]
      else .error .equalVerify := by
  have hlock := v.lockTime.toNat_lt
  rw [henv.createScript_script, evalScript_encodeChunks (hv.wellFormed _) (hv.length_le _)]
  simp only [scriptChunks]
  rw [evalChunks_hashLock rfl hv.secretHash (by decide) (by simp [maxStackSize])]
  -- the hash lock
  by_cases hsecret : env.hashes.ripemd160 s = v.secretHash
  · simp only [Hashes.apply, hsecret, if_true]
    rw [evalChunks_keyIf rfl hv.recipientPublicKey (by decide) (by simp [maxStackSize])]
    by_cases hkey : pk = v.recipientPublicKey
    · -- the recipient's branch
      simp only [hkey, decide_true, if_true]
      rw [evalChunks_checkSig rfl hv.recipientPublicKey (by decide) (by simp [maxStackSize])]
      cases checkSigOutcome flags checker _ sig v.recipientPublicKey with
      | error e => rfl
      | ok ok =>
        dsimp only [Except.bind, Except.map]
        rw [evalChunks_else (by decide) (by simp [maxStackSize]),
          evalChunks_timeLock_skip hv.lockTime hlock rfl (by decide) (by simp [maxStackSize]),
          evalChunks_checkSig_skip rfl hv.ownerPublicKey (by decide) (by simp [maxStackSize]),
          evalChunks_endif (by decide) (by simp [maxStackSize])]
        rfl
    · -- the owner's branch
      simp only [hkey, decide_false, if_false]
      rw [evalChunks_checkSig_skip rfl hv.recipientPublicKey (by decide) (by simp [maxStackSize]),
        evalChunks_else (by decide) (by simp [maxStackSize]),
        evalChunks_timeLock hv.lockTime hlock rfl (by decide) (by simp [maxStackSize])]
      split_ifs with htime
      · rfl
      · rw [evalChunks_checkSig rfl hv.ownerPublicKey (by decide) (by simp [maxStackSize])]
        cases checkSigOutcome flags checker _ sig v.ownerPublicKey with
        | error e => rfl
        | ok ok =>
          dsimp only [Except.bind, Except.map]
          rw [evalChunks_endif (by decide) (by simp [maxStackSize])]
          rfl
  · simp only [Hashes.apply, hsecret, if_false]

end Dexfin.Swap
