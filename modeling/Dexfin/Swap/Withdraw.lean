import Dexfin.Swap.Spend

/-!
# The withdrawal transaction

`getWithdrawRawTransaction` of `BtcSwap` spends every unspent output at the script's address
in one transaction: it adds each to a `TransactionBuilder` as an input with sequence
`0xfffffffe`, and one output that pays the total less the fee to the account's address.
`_signTransaction` then signs input 0 and sets its `scriptSig`, and no other.

The transaction classes of bitcoinjs-lib are not part of the source; they are parameters of
`SwapApp`, and the results name what they assume of them: `buildIncomplete` leaves the
`scriptSig` of every input it builds empty, and `setInputScript` changes only the input at its
index. `withdraw_inputs_unsigned` follows: every input after the first keeps an empty
`scriptSig` and fails against the script's output (`verifyScript_unsigned`), whatever the flags
and the signature checker, so a withdrawal from two or more unspents never verifies.
-/

namespace Dexfin.Swap

open Dexfin.Bitcoin

/-- An unspent output as `fetchUnspents` lists it: the fields the withdrawal reads. -/
structure Unspent where
  /-- `txid`. -/
  txid : Valtype
  /-- `vout`. -/
  vout : Nat
  /-- `satoshis`. -/
  satoshis : Nat
  deriving DecidableEq, Repr

/-- An input of a transaction. -/
structure TxInput where
  /-- The transaction id of the outpoint. -/
  hash : Valtype
  /-- The output index of the outpoint. -/
  index : Nat
  /-- `sequence`. -/
  sequence : UInt32
  /-- `script`, the `scriptSig`. -/
  script : Valtype
  deriving DecidableEq, Repr

/-- An output of a transaction. -/
structure TxOutput where
  /-- The output script of the address. -/
  script : Valtype
  /-- `value`, in satoshis. -/
  value : Nat
  deriving DecidableEq, Repr

/-- A transaction: the fields the withdrawal writes. -/
structure Transaction where
  /-- `locktime`. -/
  lockTime : UInt32
  /-- `ins`. -/
  ins : List TxInput
  /-- `outs`. -/
  outs : List TxOutput
  deriving DecidableEq, Repr

/-- What `getWithdrawRawTransaction` throws. -/
inductive WithdrawError where
  /-- `Total less than fee: ${totalUnspent} < ${feeValue}`. -/
  | totalLessThanFee (totalUnspent feeValue : Nat)
  /-- A `TypeError` of bitcoinjs-lib, such as `setInputScript(0, …)` on a transaction with no
  input. -/
  | noInput
  deriving DecidableEq, Repr

/-- The text of the error the source throws. -/
def WithdrawError.message : WithdrawError → String
  | .totalLessThanFee totalUnspent feeValue =>
    "Total less than fee: " ++ toString totalUnspent ++ " < " ++ toString feeValue
  | .noInput => "TypeError"

/-- The fields of a `BtcSwap` the withdrawal reads; the constructor makes the fee positive. -/
structure BtcSwap where
  /-- `feeValue`, in satoshis. -/
  feeValue : Nat
  feeValue_pos : 0 < feeValue

/-- `new BtcSwap(options)`: `this.feeValue = options.feeValue || 5000`. -/
def BtcSwap.ofOptions : Option Nat → BtcSwap
  | some (feeValue + 1) => ⟨feeValue + 1, Nat.succ_pos feeValue⟩
  | _ => ⟨5000, by decide⟩

/-- `SwapApp.services.auth.accounts.btc`. -/
structure BtcAccount where
  /-- `getAddress()`, as the output script of the address. -/
  address : Valtype
  /-- `getPublicKeyBuffer()`. -/
  publicKey : Valtype
  /-- `sign(hash).toScriptSignature(SIGHASH_ALL)`. -/
  signature : Valtype → Valtype

/-- What the withdrawal uses of `SwapApp`: the script functions and the transaction classes of
`SwapApp.env.bitcoin`, and the account. -/
structure SwapApp where
  /-- The script functions of `SwapApp.env.bitcoin`. -/
  env : BitcoinEnv
  /-- `new TransactionBuilder(network)`, then `setLockTime(lockTime)` when the lock time is
  given, `addInput(txid, vout, sequence)` for each input, `addOutput(address, value)` for each
  output, and `buildIncomplete()`. -/
  buildIncomplete : Option UInt32 → List (Valtype × Nat × UInt32) → List (Valtype × Nat) →
    Transaction
  /-- `Transaction.setInputScript(index, scriptSig)`. -/
  setInputScript : Transaction → Nat → Valtype → Except WithdrawError Transaction
  /-- `Transaction.hashForSignature(inIndex, prevOutScript, SIGHASH_ALL)`. -/
  hashForSignature : Transaction → Nat → Valtype → Valtype
  /-- `SwapApp.services.auth.accounts.btc`. -/
  account : BtcAccount

/-- `_signTransaction({ script, secret, txRaw })`: sign input 0 and set its `scriptSig`. -/
def signTransaction (app : SwapApp) (script secret : Valtype) (txRaw : Transaction) :
    Except WithdrawError Transaction :=
  let signatureHash := app.hashForSignature txRaw 0 script
  let signature := app.account.signature signatureHash
  let scriptSig := app.env.scriptHashInput [signature, app.account.publicKey, secret] script
  app.setInputScript txRaw 0 scriptSig

/-- `unspents.reduce((summ, { satoshis }) => summ + satoshis, 0)`. -/
def totalUnspent (unspents : List Unspent) : Nat :=
  unspents.foldl (fun summ u => summ + u.satoshis) 0

/-- `getWithdrawRawTransaction({ scriptValues, secret }, isRefund, hashName)`, on the
unspents `fetchUnspents` returns for the script's address. -/
def getWithdrawRawTransaction (app : SwapApp) (swap : BtcSwap) (scriptValues : ScriptValues)
    (secret : Valtype) (isRefund : Bool) (hashName : HashOp) (unspents : List Unspent) :
    Except WithdrawError Transaction :=
  let script := (createScript app.env scriptValues hashName).script
  if totalUnspent unspents < swap.feeValue then
    .error (.totalLessThanFee (totalUnspent unspents) swap.feeValue)
  else
    -- `setLockTime` is called for a refund only
    let lockTime := if isRefund then some scriptValues.lockTime else none
    let txRaw := app.buildIncomplete lockTime (unspents.map fun u => (u.txid, u.vout, 0xfffffffe))
      [(app.account.address, totalUnspent unspents - swap.feeValue)]
    signTransaction app script secret txRaw

/-- The signature checker of `VerifyScript` for input `nIn` of a transaction: the encodings,
and whether a signature under a key signs that input with a script code. -/
structure SigScheme where
  /-- `CheckSignatureEncoding` and `CheckPubKeyEncoding`. -/
  encodingOk : Valtype → Valtype → Bool
  /-- `CPubKey::Verify` over `SignatureHash(scriptCode, tx, nIn, …)`. -/
  verify : Valtype → Valtype → Transaction → Nat → Valtype → Bool

/-- `TransactionSignatureChecker(&tx, nIn)`. -/
def SigScheme.checker (scheme : SigScheme) (tx : Transaction) (nIn : Nat) : SignatureChecker where
  encodingOk := scheme.encodingOk
  checkSig vchSig vchPubKey scriptCode := scheme.verify vchSig vchPubKey tx nIn scriptCode
  txLockTime := tx.lockTime
  sequence := (tx.ins[nIn]?.map TxInput.sequence).getD sequenceFinal

/-! ## What the withdrawal builds -/

section Withdraw

variable {app : SwapApp}

/-- The inputs of a withdrawal after the first keep the empty `scriptSig` they were built with,
when `buildIncomplete` builds inputs with empty scripts and `setInputScript` changes only the
input at its index. -/
theorem getWithdrawRawTransaction_input
    (hbuild : ∀ lockTime inputs outputs i, i < inputs.length →
      ((app.buildIncomplete lockTime inputs outputs).ins[i]?).map TxInput.script = some [])
    (hset : ∀ tx index scriptSig tx', app.setInputScript tx index scriptSig = .ok tx' →
      ∀ i, i ≠ index → tx'.ins[i]? = tx.ins[i]?)
    {swap : BtcSwap} {scriptValues : ScriptValues} {secret : Valtype} {isRefund : Bool}
    {hashName : HashOp} {unspents : List Unspent} {tx : Transaction}
    (h : getWithdrawRawTransaction app swap scriptValues secret isRefund hashName unspents =
      .ok tx) {i : Nat} (hi : 1 ≤ i) (hlt : i < unspents.length) :
    (tx.ins[i]?).map TxInput.script = some [] := by
  unfold getWithdrawRawTransaction signTransaction at h
  by_cases hfee : totalUnspent unspents < swap.feeValue
  · simp [hfee] at h
  · simp only [hfee, if_false] at h
    rw [hset _ _ _ _ h i (by omega)]
    exact hbuild _ _ _ i (by simpa using hlt)

/-- Every input of a withdrawal after the first fails against the script's output, with any
flags and any signature checker, when `scriptHash.output.encode` writes the chunks of a
script-hash output, `buildIncomplete` builds inputs with empty scripts, and `setInputScript`
changes only the input at its index. -/
theorem withdraw_inputs_unsigned (flags : ScriptFlags) (scheme : SigScheme)
    (hout : ∀ hash, app.env.scriptHashOutput hash = encodeChunks (p2shChunks hash))
    (hbuild : ∀ lockTime inputs outputs i, i < inputs.length →
      ((app.buildIncomplete lockTime inputs outputs).ins[i]?).map TxInput.script = some [])
    (hset : ∀ tx index scriptSig tx', app.setInputScript tx index scriptSig = .ok tx' →
      ∀ i, i ≠ index → tx'.ins[i]? = tx.ins[i]?)
    {swap : BtcSwap} {scriptValues : ScriptValues} {secret : Valtype} {isRefund : Bool}
    {hashName : HashOp} {unspents : List Unspent} {tx : Transaction}
    (h : getWithdrawRawTransaction app swap scriptValues secret isRefund hashName unspents =
      .ok tx) {i : Nat} (hi : 1 ≤ i) (hlt : i < unspents.length) :
    ∃ input, tx.ins[i]? = some input ∧
      verifyScript flags app.env.hashes (scheme.checker tx i) input.script
        (createScript app.env scriptValues hashName).scriptPubKey =
          .error .invalidStackOperation := by
  obtain ⟨input, hinput, hscript⟩ := Option.map_eq_some_iff.1
    (getWithdrawRawTransaction_input hbuild hset h hi hlt)
  refine ⟨input, hinput, ?_⟩
  rw [hscript]
  exact verifyScript_unsigned flags app.env hout _ scriptValues hashName

end Withdraw

/-! ## Two unspents -/

/-- Digests of zero bytes, of the lengths the hash functions give. -/
def zeroHashes : Hashes where
  ripemd160 _ := List.replicate 20 0
  sha1 _ := List.replicate 20 0
  sha256 _ := List.replicate 32 0
  hash160 _ := List.replicate 20 0
  hash256 _ := List.replicate 32 0
  ripemd160_length _ := List.length_replicate
  sha1_length _ := List.length_replicate
  sha256_length _ := List.length_replicate
  hash160_length _ := List.length_replicate
  hash256_length _ := List.length_replicate

/-- Script functions that meet `BitcoinEnv.Lawful`, over `zeroHashes`. -/
def encodingEnv : BitcoinEnv where
  hashes := zeroHashes
  compile := encodeChunks
  scriptHashInput redeemScriptStack redeemScript :=
    encodeChunks ((redeemScriptStack ++ [redeemScript]).map .data)
  scriptHashOutput hash := encodeChunks (p2shChunks hash)

/-- A transaction builder that writes what it was given, with a lock time of 0 when none was
set and an empty `scriptSig` on every input. -/
def listBuilder (lockTime : Option UInt32) (inputs : List (Valtype × Nat × UInt32))
    (outputs : List (Valtype × Nat)) : Transaction :=
  ⟨lockTime.getD 0, inputs.map fun (txid, vout, sequence) => ⟨txid, vout, sequence, []⟩,
    outputs.map fun (script, value) => ⟨script, value⟩⟩

theorem listBuilder_script (lockTime : Option UInt32) (inputs : List (Valtype × Nat × UInt32))
    (outputs : List (Valtype × Nat)) (i : Nat) (hi : i < inputs.length) :
    ((listBuilder lockTime inputs outputs).ins[i]?).map TxInput.script = some [] := by
  simp [listBuilder, hi]

/-- Setting the script of the input at an index, and a `TypeError` where there is none. -/
def listSetInputScript (tx : Transaction) (index : Nat) (scriptSig : Valtype) :
    Except WithdrawError Transaction :=
  if index < tx.ins.length then
    .ok { tx with ins := tx.ins.modify index fun input => { input with script := scriptSig } }
  else .error .noInput

theorem listSetInputScript_other (tx : Transaction) (index : Nat) (scriptSig : Valtype)
    (tx' : Transaction) (h : listSetInputScript tx index scriptSig = .ok tx') (i : Nat)
    (hi : i ≠ index) : tx'.ins[i]? = tx.ins[i]? := by
  unfold listSetInputScript at h
  split_ifs at h
  cases h
  simp [Ne.symm hi]

/-- The app of the two-unspent withdrawal: the encoding functions, the list builder, and an
account whose signatures are empty. -/
def twoUnspentApp : SwapApp :=
  ⟨encodingEnv, listBuilder, listSetInputScript, fun _ _ _ => [], ⟨[], [2], fun _ => []⟩⟩

/-- A withdrawal of two unspents at the script's address with the default fee: its second
input fails with every flag set, even under a checker that accepts every signature. -/
theorem withdraw_inputs_unsigned_two : ∃ tx input,
    getWithdrawRawTransaction twoUnspentApp (BtcSwap.ofOptions none)
        ⟨List.replicate 20 0, [3], [2], 500000000⟩ [] false .ripemd160
        [⟨[1], 0, 10000⟩, ⟨[1], 1, 10000⟩] = .ok tx ∧
      tx.ins[1]? = some input ∧
      verifyScript ⟨true, true, true, true, true, true, true⟩ zeroHashes
          ((⟨fun _ _ => true, fun _ _ _ _ _ => true⟩ : SigScheme).checker tx 1) input.script
          (createScript encodingEnv ⟨List.replicate 20 0, [3], [2], 500000000⟩
            .ripemd160).scriptPubKey =
        .error .invalidStackOperation := by
  obtain ⟨input, hinput, hfail⟩ := @withdraw_inputs_unsigned twoUnspentApp
    ⟨true, true, true, true, true, true, true⟩ ⟨fun _ _ => true, fun _ _ _ _ _ => true⟩
    (fun _ => rfl) listBuilder_script listSetInputScript_other (BtcSwap.ofOptions none)
    ⟨List.replicate 20 0, [3], [2], 500000000⟩ [] false .ripemd160
    [⟨[1], 0, 10000⟩, ⟨[1], 1, 10000⟩] _ rfl 1 (by decide) (by decide)
  exact ⟨_, input, rfl, hinput, hfail⟩

end Dexfin.Swap
