import Dexfin.Swap.BtcSwap

/-!
# Spending the swap output

`createScript` pays to a script hash, `OP_HASH160 <hash160 script> OP_EQUAL`, as far as
`scriptHash.output.encode` writes those chunks. `VerifyScript` evaluates the `scriptSig`, then
that output on the stack the `scriptSig` leaves, and then, under `P2SH`, the serialized script
the `scriptSig` pushed last on the rest of that stack (`verifyScript_p2sh`). `_signTransaction`
writes the `scriptSig` with `scriptHash.input.encode`, assumed to push its stack and then the
script.

`verifyScript_spend` says which spends of the swap output verify under `P2SH` and
`CHECKLOCKTIMEVERIFY`: the preimage of the secret hash, and then either the recipient's key
with the recipient's signature, or any other key with the owner's signature on a transaction
whose lock time has reached the script's, from an input that is not final.
`verifyScript_unsigned` is an input whose `scriptSig` is empty: the output's `OP_HASH160`
finds no stack, whatever the flags and the transaction; of bitcoinjs-lib it only assumes how
`scriptHash.output.encode` writes the output.
-/

namespace Dexfin.Swap

open Dexfin.Bitcoin

/-! ## Pushes -/

section Pushes

variable {flags : ScriptFlags} {hashes : Hashes} {checker : SignatureChecker}
variable {stack alt : List Valtype} {vf : List Bool} {code : Valtype} {n : Nat}

/-- Buffers in an executed branch push themselves, the last on top. -/
theorem evalChunks_pushes {bs : List Valtype} (hbs : ∀ b ∈ bs, b.length ≤ maxScriptElementSize)
    (hcount : n ≤ maxOpsPerScript) (hexec : vf.all id = true)
    (hsize : stack.length + bs.length + alt.length ≤ maxStackSize) :
    evalChunks flags hashes checker (bs.map .data) ⟨stack, alt, vf, code, n⟩ =
      .ok ⟨bs.reverse ++ stack, alt, vf, code, n⟩ := by
  induction bs generalizing stack with
  | nil => rfl
  | cons b bs ih =>
    simp only [List.length_cons] at hsize
    rw [List.map_cons, evalChunks_data (hbs b (.head _)) hcount hexec (by omega),
      ih (fun b' hb' => hbs b' (.tail _ hb')) (by simp only [List.length_cons]; omega)]
    simp

/-- A compiled list of buffers is push-only, with any fuel that covers it. -/
theorem isPushOnly_encodeChunks_data {bs : List Valtype} (hbs : ∀ b ∈ bs, b.length < 2 ^ 32)
    {fuel : Nat} (hfuel : (encodeChunks (bs.map .data)).length ≤ fuel) :
    isPushOnly fuel (encodeChunks (bs.map .data)) = true := by
  induction bs generalizing fuel with
  | nil => cases fuel <;> rfl
  | cons b bs ih =>
    have hget := getScriptOp_chunk (c := .data b) (hbs b (.head _)) (encodeChunks (bs.map .data))
    have hne := List.length_pos_iff.2 (Chunk.data b).bytes_ne_nil
    rw [List.map_cons, encodeChunks_cons] at hfuel ⊢
    rw [List.length_append] at hfuel
    obtain ⟨fuel, rfl⟩ : ∃ f, fuel = f + 1 := ⟨fuel - 1, by omega⟩
    rw [isPushOnly_of_getScriptOp hget, ih (fun b' hb' => hbs b' (.tail _ hb')) (by omega)]
    simp [readsAs_data_le b]

/-- `EvalScript` on pushes that fit leaves the buffers on the stack, the last on top. -/
theorem evalScript_pushes {bs : List Valtype} (hbs : ∀ b ∈ bs, b.length ≤ maxScriptElementSize)
    (hsize : bs.length ≤ maxStackSize) (hlen : (encodeChunks (bs.map .data)).length ≤ maxScriptSize) :
    evalScript flags hashes checker [] (encodeChunks (bs.map .data)) = .ok bs.reverse := by
  have hwf : ∀ c ∈ bs.map Chunk.data, c.WellFormed := by
    intro c hc
    obtain ⟨b, hb, rfl⟩ := List.mem_map.1 hc
    have := hbs b hb
    simp only [Chunk.WellFormed, maxScriptElementSize] at this ⊢
    omega
  rw [evalScript_encodeChunks hwf hlen, evalChunks_pushes hbs (Nat.zero_le _) rfl (by simpa using hsize)]
  simp

end Pushes

/-! ## The script-hash output -/

/-- Under the assumptions on bitcoinjs-lib, `scriptHash.output.encode` writes the chunks of a
script-hash output in their minimal encodings. -/
theorem BitcoinEnv.Lawful.scriptHashOutput_encode {env : BitcoinEnv} (henv : env.Lawful)
    (hash : Valtype) : env.scriptHashOutput hash = encodeChunks (p2shChunks hash) := by
  rw [henv.scriptHashOutput_eq, henv.compile_eq]

/-- The output of a 20-byte hash is `OP_HASH160`, the push of the 20 bytes, and `OP_EQUAL`. -/
theorem encodeChunks_p2shChunks {h : Valtype} (hh : h.length = 20) :
    encodeChunks (p2shChunks h) = opHash160 :: 0x14 :: h ++ [opEqual] := by
  have hmin : asMinimalOp h = none := by
    rcases h with _ | ⟨a, _ | ⟨b, t⟩⟩
    · simp at hh
    · simp at hh
    · rfl
  have hpush : pushOf h = 0x14 :: h := by
    simp [pushOf, hh, opPushdata1]
  simp [p2shChunks, Chunk.bytes, hmin, hpush]

theorem length_encodeChunks_p2shChunks {h : Valtype} (hh : h.length = 20) :
    (encodeChunks (p2shChunks h)).length = 23 := by
  simp [encodeChunks_p2shChunks hh, hh]

/-- The output of a 20-byte hash is what `IsPayToScriptHash` recognises. -/
theorem isPayToScriptHash_p2shChunks {h : Valtype} (hh : h.length = 20) :
    isPayToScriptHash (encodeChunks (p2shChunks h)) = true := by
  simp [isPayToScriptHash, encodeChunks_p2shChunks hh, hh]

section Output

variable {flags : ScriptFlags} {hashes : Hashes} {checker : SignatureChecker}

theorem p2shChunks_wellFormed (h : Valtype) (hh : h.length = 20) :
    ∀ c ∈ p2shChunks h, c.WellFormed := by
  intro c hc
  simp only [p2shChunks, List.mem_cons, List.not_mem_nil, or_false] at hc
  rcases hc with rfl | rfl | rfl
  · simp only [Chunk.WellFormed]
    decide
  · simp [Chunk.WellFormed, hh]
  · simp only [Chunk.WellFormed]
    decide

/-- The output on a stack `x :: rest`: whether `x` hashes to the output's hash. -/
theorem evalScript_p2shChunks {h x : Valtype} {rest : List Valtype} (hh : h.length = 20)
    (hsize : rest.length + 2 ≤ maxStackSize) :
    evalScript flags hashes checker (x :: rest) (encodeChunks (p2shChunks h)) =
      .ok (boolVch (hashes.hash160 x = h) :: rest) := by
  have hlen := length_encodeChunks_p2shChunks hh
  rw [evalScript_encodeChunks (p2shChunks_wellFormed h hh) (by rw [hlen]; decide), p2shChunks,
    evalChunks_op (by decide) (.inl rfl) (by decide) (by decide),
    execOp_hash opcodeOf_opHash160]
  dsimp only
  rw [if_neg (by simp only [List.length_cons, List.length_nil]; omega),
    evalChunks_data (by simp [hh, maxScriptElementSize]) (by decide) rfl
      (by simp only [List.length_cons, List.length_nil]; omega),
    evalChunks_op (by decide) (.inl rfl) (by decide) (by decide), execOp_equal]
  dsimp only
  rw [if_neg (by simp only [List.length_cons, List.length_nil]; omega)]
  rfl

/-- The output on an empty stack: `OP_HASH160` has nothing to hash. -/
theorem evalScript_p2shChunks_nil {h : Valtype} (hh : h.length = 20) :
    evalScript flags hashes checker [] (encodeChunks (p2shChunks h)) =
      .error .invalidStackOperation := by
  have hlen := length_encodeChunks_p2shChunks hh
  rw [evalScript_encodeChunks (p2shChunks_wellFormed h hh) (by rw [hlen]; decide), p2shChunks,
    evalChunks_op (by decide) (.inl rfl) (by decide) (by decide),
    execOp_hash_nil opcodeOf_opHash160]

/-- What `VerifyScript` does after the scripts: the top of the stack must be true, and with
`CLEANSTACK` it must be the only element. -/
def finishVerify (flags : ScriptFlags) (stack : List Valtype) : Except ScriptError Unit :=
  if !(stack.head?.map castToBool).getD false then .error .evalFalse
  else if flags.cleanStack ∧ stack.length ≠ 1 then .error .cleanStack else .ok ()

/-- Under `P2SH`, a push-only `scriptSig` whose last push hashes to the output's hash: the
pushed script is evaluated on the rest of the stack. -/
theorem verifyScript_p2sh (hp2sh : flags.p2sh = true) {scriptSig script : Valtype}
    {rest : List Valtype} (hpush : isPushOnly scriptSig.length scriptSig = true)
    (hsig : evalScript flags hashes checker [] scriptSig = .ok (script :: rest))
    (hsize : rest.length + 2 ≤ maxStackSize) :
    verifyScript flags hashes checker scriptSig (encodeChunks (p2shChunks (hashes.hash160 script))) =
      (evalScript flags hashes checker rest script).bind (finishVerify flags) := by
  have hh := hashes.hash160_length script
  unfold verifyScript
  simp only [hpush, hsig, evalScript_p2shChunks hh hsize, hp2sh,
    isPayToScriptHash_p2shChunks hh, decide_true, castToBool_boolVch, Bool.not_true,
    Bool.false_eq_true, and_false, if_false, true_and, Option.map_some, Option.getD_some,
    List.head?_cons, if_true]
  cases evalScript flags hashes checker rest script with
  | error e => rfl
  | ok stack =>
    simp only [Except.bind, finishVerify]
    by_cases htop : (!(stack.head?.map castToBool).getD false) = true
    · simp only [htop, if_true]
    · simp only [htop, Bool.false_eq_true, if_false]

/-- An empty `scriptSig` fails against the swap's output, with any flags and any transaction,
when `scriptHash.output.encode` writes the chunks of a script-hash output. -/
theorem verifyScript_unsigned (flags : ScriptFlags) (env : BitcoinEnv)
    (hout : ∀ hash, env.scriptHashOutput hash = encodeChunks (p2shChunks hash))
    (checker : SignatureChecker) (v : ScriptValues) (hashName : HashOp) :
    verifyScript flags env.hashes checker [] (createScript env v hashName).scriptPubKey =
      .error .invalidStackOperation := by
  have hh := env.hashes.hash160_length (createScript env v hashName).script
  have hpush : isPushOnly ([] : Valtype).length [] = true := rfl
  have hsig : evalScript flags env.hashes checker [] [] = .ok [] := rfl
  unfold verifyScript
  simp only [createScript_scriptPubKey, hout, hpush, Bool.not_true, Bool.false_eq_true, and_false,
    if_false, hsig, evalScript_p2shChunks_nil hh]

/-- After a signature check whose answer is left alone on the stack, `VerifyScript`
succeeds exactly when the check answers true. -/
theorem bind_finishVerify_checkSig {r : Except ScriptError Bool} :
    (r.map fun ok => [boolVch ok]).bind (finishVerify flags) = .ok () ↔ r = .ok true := by
  cases r with
  | error e => simp [Except.map, Except.bind]
  | ok b => cases b <;> simp [Except.map, Except.bind, finishVerify]

end Output

/-! ## Spends of the swap output -/

/-- A spend of the swap output with `scriptSig` pushing `[sig, pk, s]` and the script, under
`P2SH` and `CHECKLOCKTIMEVERIFY`, with a lock time of the time kind, verifies exactly when
`s` is the secret and either `pk` is the recipient's key and `sig` the recipient's signature,
or `pk` is another key, the spending transaction's lock time has reached the script's, the
input is not final, and `sig` is the owner's signature. -/
theorem verifyScript_spend {flags : ScriptFlags} {env : BitcoinEnv} (henv : env.Lawful)
    {checker : SignatureChecker} (hp2sh : flags.p2sh = true)
    (hcltv : flags.checkLockTimeVerify = true)
    {v : ScriptValues} (hv : v.Fits) (hlock : locktimeThreshold ≤ v.lockTime.toNat)
    (hscript : (createScript env v).script.length ≤ maxScriptElementSize)
    {sig pk s : Valtype} (hsig : sig.length ≤ maxScriptElementSize)
    (hpk : pk.length ≤ maxScriptElementSize) (hs : s.length ≤ maxScriptElementSize) :
    verifyScript flags env.hashes checker
        (env.scriptHashInput [sig, pk, s] (createScript env v).script)
        (createScript env v).scriptPubKey = .ok () ↔
      env.hashes.ripemd160 s = v.secretHash ∧
        ((pk = v.recipientPublicKey ∧ checker.encodingOk sig v.recipientPublicKey = true ∧
            checker.checkSig sig v.recipientPublicKey
              (findAndDelete (createScript env v).script (pushOf sig)) = true) ∨
          (pk ≠ v.recipientPublicKey ∧ v.lockTime.toNat ≤ checker.txLockTime.toNat ∧
            checker.sequence ≠ sequenceFinal ∧ checker.encodingOk sig v.ownerPublicKey = true ∧
            checker.checkSig sig v.ownerPublicKey
              (findAndDelete (createScript env v).script (pushOf sig)) = true)) := by
  -- the `scriptSig` leaves the script on top of `[s, pk, sig]`
  have hbs : ∀ b ∈ [sig, pk, s, (createScript env v).script],
      b.length ≤ maxScriptElementSize := by
    intro b hb
    simp only [List.mem_cons, List.not_mem_nil, or_false] at hb
    rcases hb with rfl | rfl | rfl | rfl <;> assumption
  have hinput : env.scriptHashInput [sig, pk, s] (createScript env v).script =
      encodeChunks ([sig, pk, s, (createScript env v).script].map .data) := by
    rw [henv.scriptHashInput_eq, henv.compile_eq]
    rfl
  have hlen : (env.scriptHashInput [sig, pk, s] (createScript env v).script).length ≤
      maxScriptSize := by
    have hsum := length_encodeChunks_le ([sig, pk, s, (createScript env v).script].map .data)
    simp only [List.map_cons, List.map_nil, List.sum_cons, List.sum_nil, Chunk.size] at hsum
    simp only [maxScriptElementSize] at hsig hpk hs hscript
    rw [hinput, maxScriptSize]
    simp only [List.map_cons, List.map_nil]
    omega
  have hpush : isPushOnly (env.scriptHashInput [sig, pk, s] (createScript env v).script).length
      (env.scriptHashInput [sig, pk, s] (createScript env v).script) = true := by
    rw [hinput]
    refine isPushOnly_encodeChunks_data (fun b hb => ?_) le_rfl
    have := hbs b hb
    simp only [maxScriptElementSize] at this
    omega
  have heval : evalScript flags env.hashes checker []
      (env.scriptHashInput [sig, pk, s] (createScript env v).script) =
        .ok [(createScript env v).script, s, pk, sig] := by
    rw [hinput, evalScript_pushes hbs (by simp [maxStackSize]) (hinput ▸ hlen)]
    rfl
  rw [createScript_scriptPubKey, henv.scriptHashOutput_encode,
    verifyScript_p2sh hp2sh hpush heval (by simp [maxStackSize]), evalScript_createScript henv hv]
  -- the hash lock, then the branch the key selects
  by_cases hsecret : env.hashes.ripemd160 s = v.secretHash
  · by_cases hkey : pk = v.recipientPublicKey
    · simp only [hsecret, hkey, if_true, bind_finishVerify_checkSig, checkSigOutcome_eq_ok_true]
      simp
    · simp only [hsecret, hkey, if_true, if_false, hcltv, true_and,
        checker.checkLockTime_of_threshold hlock]
      by_cases htime : v.lockTime.toNat ≤ checker.txLockTime.toNat ∧
          checker.sequence ≠ sequenceFinal
      · simp [htime, bind_finishVerify_checkSig, checkSigOutcome_eq_ok_true, hkey]
      · have hlate : (decide (v.lockTime.toNat ≤ checker.txLockTime.toNat) &&
            decide (checker.sequence ≠ sequenceFinal)) = false := by
          simpa using htime
        simp only [hlate, Bool.not_false, if_true]
        simp only [Except.bind, reduceCtorEq, false_iff, not_or, not_and]
        exact ⟨False.elim, fun _ hle hseq => absurd ⟨hle, hseq⟩ htime⟩
  · simp [hsecret, Except.bind]

end Dexfin.Swap
