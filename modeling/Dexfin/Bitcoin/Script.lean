import Dexfin.Lib.Bytes

/-!
# Bitcoin script

The script interpreter of Bitcoin Core (`script/interpreter.cpp`, `script/script.{h,cpp}`)
for the opcodes that spends of hash-locked and time-locked pay-to-script-hash outputs use:
data pushes and small integers, flow control, `OP_VERIFY`, `OP_RETURN`, `OP_DROP`, the
equality and hash opcodes, `OP_CODESEPARATOR`, `OP_CHECKSIG` and `OP_CHECKLOCKTIMEVERIFY`.

A script is its bytes. `evalScript` reads them one operation at a time with `getScriptOp`,
as `EvalScript` does, so a script that does not parse fails where the bad operation is
reached. The other opcodes, which are enabled in Core but not used by the scripts this
development verifies, end evaluation with the separate error `unmodelled`; the hash
functions and the signature check are parameters.

Stacks are lists with the top element first.
-/

namespace Dexfin.Bitcoin

open Bytes

/-- `valtype`: a stack element, or the bytes of a script. -/
abbrev Valtype := List UInt8

/-! ## Limits and opcodes -/

/-- `MAX_SCRIPT_ELEMENT_SIZE`. -/
def maxScriptElementSize : Nat := 520

/-- `MAX_OPS_PER_SCRIPT`. -/
def maxOpsPerScript : Nat := 201

/-- `MAX_SCRIPT_SIZE`. -/
def maxScriptSize : Nat := 10000

/-- `MAX_STACK_SIZE`. -/
def maxStackSize : Nat := 1000

/-- `LOCKTIME_THRESHOLD`: lock times below it are block heights, above it timestamps. -/
def locktimeThreshold : Nat := 500000000

/-- `CTxIn::SEQUENCE_FINAL`. -/
def sequenceFinal : UInt32 := 0xffffffff

/-- `OP_0`. -/
def op0 : UInt8 := 0x00
/-- `OP_PUSHDATA1`. -/
def opPushdata1 : UInt8 := 0x4c
/-- `OP_PUSHDATA2`. -/
def opPushdata2 : UInt8 := 0x4d
/-- `OP_PUSHDATA4`. -/
def opPushdata4 : UInt8 := 0x4e
/-- `OP_1NEGATE`. -/
def op1negate : UInt8 := 0x4f
/-- `OP_1`. -/
def op1 : UInt8 := 0x51
/-- `OP_16`. -/
def op16 : UInt8 := 0x60
/-- `OP_IF`. -/
def opIf : UInt8 := 0x63
/-- `OP_ELSE`. -/
def opElse : UInt8 := 0x67
/-- `OP_ENDIF`. -/
def opEndif : UInt8 := 0x68
/-- `OP_DROP`. -/
def opDrop : UInt8 := 0x75
/-- `OP_EQUAL`. -/
def opEqual : UInt8 := 0x87
/-- `OP_EQUALVERIFY`. -/
def opEqualverify : UInt8 := 0x88
/-- `OP_RIPEMD160`. -/
def opRipemd160 : UInt8 := 0xa6
/-- `OP_HASH160`. -/
def opHash160 : UInt8 := 0xa9
/-- `OP_CHECKSIG`. -/
def opChecksig : UInt8 := 0xac
/-- `OP_CHECKLOCKTIMEVERIFY`. -/
def opChecklocktimeverify : UInt8 := 0xb1

/-- The hash opcodes, one case of `EvalScript`. -/
inductive HashOp where
  | ripemd160
  | sha1
  | sha256
  | hash160
  | hash256
  deriving DecidableEq, Repr

/-- What `EvalScript` does with an opcode: the cases of its `switch`, with the opcodes
that share a case under one constructor. -/
inductive Opcode where
  /-- `OP_0` to `OP_PUSHDATA4`: push the operand. -/
  | push
  /-- `OP_1NEGATE`, `OP_1` to `OP_16`: push the number. -/
  | num (n : Int)
  /-- `OP_NOP`. -/
  | nop
  /-- `OP_IF`, and `OP_NOTIF` when `notIf`. -/
  | branch (notIf : Bool)
  /-- `OP_ELSE`. -/
  | orElse
  /-- `OP_ENDIF`. -/
  | endIf
  /-- `OP_VERIFY`. -/
  | verify
  /-- `OP_RETURN`. -/
  | opReturn
  /-- `OP_DROP`. -/
  | drop
  /-- `OP_EQUAL`, and `OP_EQUALVERIFY` when `andVerify`. -/
  | equal (andVerify : Bool)
  /-- `OP_RIPEMD160`, `OP_SHA1`, `OP_SHA256`, `OP_HASH160`, `OP_HASH256`. -/
  | hash (h : HashOp)
  /-- `OP_CODESEPARATOR`. -/
  | codeSeparator
  /-- `OP_CHECKSIG`, and `OP_CHECKSIGVERIFY` when `andVerify`. -/
  | checkSig (andVerify : Bool)
  /-- `OP_CHECKLOCKTIMEVERIFY`. -/
  | checkLockTimeVerify
  /-- `OP_NOP1`, `OP_NOP4` to `OP_NOP10`. -/
  | upgradableNop
  /-- `OP_CAT`, `OP_SUBSTR` and the other disabled opcodes. -/
  | disabled
  /-- The `default` of the `switch`: `OP_RESERVED`, `OP_VER`, `OP_VERIF`, `OP_VERNOTIF`,
  and bytes past the last opcode. -/
  | bad
  /-- An enabled opcode this model does not execute. -/
  | unmodelled
  deriving DecidableEq, Repr

/-- The disabled opcodes, which fail even in an unexecuted branch. -/
def disabledOpcodes : List UInt8 :=
  [0x7e, 0x7f, 0x80, 0x81, 0x83, 0x84, 0x85, 0x86, 0x8d, 0x8e, 0x95, 0x96, 0x97, 0x98, 0x99]

/-- The case of `EvalScript`'s `switch` that an opcode byte takes. -/
def opcodeOf (op : UInt8) : Opcode :=
  if op ≤ opPushdata4 then .push
  else if op = op1negate then .num (-1)
  else if op1 ≤ op ∧ op ≤ op16 then .num (op.toNat - 0x50)
  else if op = 0x61 then .nop
  else if op = opIf then .branch false
  else if op = 0x64 then .branch true
  else if op = opElse then .orElse
  else if op = opEndif then .endIf
  else if op = 0x69 then .verify
  else if op = 0x6a then .opReturn
  else if op = opDrop then .drop
  else if op = opEqual then .equal false
  else if op = opEqualverify then .equal true
  else if op = opRipemd160 then .hash .ripemd160
  else if op = 0xa7 then .hash .sha1
  else if op = 0xa8 then .hash .sha256
  else if op = opHash160 then .hash .hash160
  else if op = 0xaa then .hash .hash256
  else if op = 0xab then .codeSeparator
  else if op = opChecksig then .checkSig false
  else if op = 0xad then .checkSig true
  else if op = opChecklocktimeverify then .checkLockTimeVerify
  else if op = 0xb0 ∨ (0xb3 ≤ op ∧ op ≤ 0xb9) then .upgradableNop
  else if op ∈ disabledOpcodes then .disabled
  else if op = 0x50 ∨ op = 0x62 ∨ op = 0x65 ∨ op = 0x66 ∨ op = 0x89 ∨ op = 0x8a ∨ 0xba ≤ op then
    .bad
  else .unmodelled

/-! ## Reading a script -/

/-- The `nSize` bytes after `pc`, if there are that many. -/
def readData (nSize : Nat) (pc : List UInt8) : Option (Valtype × List UInt8) :=
  if nSize ≤ pc.length then some (pc.take nSize, pc.drop nSize) else none

/-- `GetScriptOp`: the opcode at `pc`, its operand, and the bytes after them. The sizes of
`OP_PUSHDATA2` and `OP_PUSHDATA4` are read little-endian (`ReadLE16`, `ReadLE32`). -/
def getScriptOp : List UInt8 → Option (UInt8 × Valtype × List UInt8)
  | [] => none
  | opcode :: pc =>
    if opcode < opPushdata1 then
      (readData opcode.toNat pc).map fun (d, rest) => (opcode, d, rest)
    else if opcode = opPushdata1 then
      match pc with
      | n :: pc => (readData n.toNat pc).map fun (d, rest) => (opcode, d, rest)
      | [] => none
    else if opcode = opPushdata2 then
      if 2 ≤ pc.length then
        (readData (leValue (pc.take 2)) (pc.drop 2)).map fun (d, rest) => (opcode, d, rest)
      else none
    else if opcode = opPushdata4 then
      if 4 ≤ pc.length then
        (readData (leValue (pc.take 4)) (pc.drop 4)).map fun (d, rest) => (opcode, d, rest)
      else none
    else some (opcode, [], pc)

/-- `CScript::IsPushOnly`: every operation parses and is at most `OP_16`. -/
def isPushOnly : Nat → List UInt8 → Bool
  | _, [] => true
  | 0, _ :: _ => false
  | fuel + 1, pc =>
    match getScriptOp pc with
    | none => false
    | some (opcode, _, rest) => opcode ≤ op16 && isPushOnly fuel rest

/-- `CScript::IsPayToScriptHash`: `OP_HASH160 <20 bytes> OP_EQUAL`. -/
def isPayToScriptHash (script : Valtype) : Bool :=
  script.length = 23 && script[0]? = some opHash160 && script[1]? = some 0x14 &&
    script[22]? = some opEqual

/-- `CScript() << b`: the push of `b`. -/
def pushOf (b : Valtype) : Valtype :=
  if b.length < opPushdata1.toNat then (b.length.toUInt8 :: b)
  else if b.length ≤ 0xff then opPushdata1 :: b.length.toUInt8 :: b
  else if b.length ≤ 0xffff then
    opPushdata2 :: (b.length % 256).toUInt8 :: (b.length / 256).toUInt8 :: b
  else opPushdata4 :: (b.length % 256).toUInt8 :: (b.length / 256 % 256).toUInt8 ::
    (b.length / 65536 % 256).toUInt8 :: (b.length / 16777216).toUInt8 :: b

/-- Drop the copies of `b` at the start of `pc`, counting them. -/
def dropCopies (b : Valtype) : Nat → List UInt8 → List UInt8 × Nat
  | 0, pc => (pc, 0)
  | fuel + 1, pc =>
    if b ≠ [] ∧ b <+: pc then
      let (rest, n) := dropCopies b fuel (pc.drop b.length)
      (rest, n + 1)
    else (pc, 0)

/-- The loop of `FindAndDelete` from an operation boundary: copies of `b` at each boundary
are removed, and the operations between them kept. -/
def findAndDeleteFrom (b : Valtype) : Nat → List UInt8 → Valtype
  | 0, pc => pc
  | fuel + 1, pc =>
    let pc' := (dropCopies b pc.length pc).1
    match getScriptOp pc' with
    | none => pc'
    | some (_, _, rest) => pc'.take (pc'.length - rest.length) ++ findAndDeleteFrom b fuel rest

/-- `FindAndDelete(script, b)`. -/
def findAndDelete (script b : Valtype) : Valtype :=
  if b = [] then script else findAndDeleteFrom b script.length script

/-! ## Numbers -/

/-- `CScriptNum::set_vch`: little-endian magnitude, with the sign in the top bit of the
last byte. -/
def scriptNumValue (vch : Valtype) : Int :=
  match vch.reverse with
  | [] => 0
  | last :: _ =>
    if last &&& 0x80 ≠ 0 then -((leValue vch : Int) - 0x80 * 256 ^ (vch.length - 1))
    else leValue vch

/-- `CScriptNum(vch, fRequireMinimal, nMaxNumSize)`: `none` where the constructor throws
`scriptnum_error`. -/
def scriptNumOf (vch : Valtype) (fRequireMinimal : Bool) (nMaxNumSize : Nat) : Option Int :=
  if vch.length > nMaxNumSize then none
  else
    match fRequireMinimal, vch.reverse with
    | true, last :: rest =>
      if last &&& 0x7f = 0 ∧ (rest = [] ∨ (rest.headD 0) &&& 0x80 = 0) then none
      else some (scriptNumValue vch)
    | _, _ => some (scriptNumValue vch)

/-- `CScriptNum::serialize`: the bytes of the magnitude of a `uint64_t`, least significant
first, with the sign in the top bit of the last byte. -/
def scriptNumSerialize (value : Int) : Valtype :=
  if value = 0 then []
  else
    let result := leBytes 8 value.natAbs
    match result.reverse with
    | [] => []
    | last :: rest =>
      if last &&& 0x80 ≠ 0 then result ++ [if value < 0 then 0x80 else 0]
      else if value < 0 then rest.reverse ++ [last ||| 0x80]
      else result

/-- `CastToBool`: nonzero, where a last byte `0x80` alone is negative zero. -/
def castToBool : Valtype → Bool
  | [] => false
  | [b] => b != 0 && b != 0x80
  | b :: rest => b != 0 || castToBool rest

/-- `vchTrue` and `vchFalse`. -/
def boolVch (b : Bool) : Valtype := if b then [1] else []

/-- `CheckMinimalPush`. -/
def checkMinimalPush (data : Valtype) (opcode : UInt8) : Bool :=
  if data.length = 0 then opcode = op0
  else if data.length = 1 ∧ 1 ≤ data.headD 0 ∧ data.headD 0 ≤ 16 then false
  else if data.length = 1 ∧ data.headD 0 = 0x81 then false
  else if data.length ≤ 75 then opcode.toNat = data.length
  else if data.length ≤ 255 then opcode = opPushdata1
  else if data.length ≤ 65535 then opcode = opPushdata2
  else true

/-! ## The interpreter -/

/-- The `SCRIPT_VERIFY_*` flags the modelled opcodes read. -/
structure ScriptFlags where
  /-- `SCRIPT_VERIFY_P2SH`. -/
  p2sh : Bool
  /-- `SCRIPT_VERIFY_CHECKLOCKTIMEVERIFY`. -/
  checkLockTimeVerify : Bool
  /-- `SCRIPT_VERIFY_MINIMALDATA`. -/
  minimalData : Bool
  /-- `SCRIPT_VERIFY_NULLFAIL`. -/
  nullFail : Bool
  /-- `SCRIPT_VERIFY_CLEANSTACK`. -/
  cleanStack : Bool
  /-- `SCRIPT_VERIFY_DISCOURAGE_UPGRADABLE_NOPS`. -/
  discourageUpgradableNops : Bool
  /-- `SCRIPT_VERIFY_SIGPUSHONLY`. -/
  sigPushOnly : Bool
  deriving DecidableEq, Repr

/-- The hash functions of the hash opcodes, with the lengths of their digests. -/
structure Hashes where
  /-- `CRIPEMD160`. -/
  ripemd160 : Valtype → Valtype
  /-- `CSHA1`. -/
  sha1 : Valtype → Valtype
  /-- `CSHA256`. -/
  sha256 : Valtype → Valtype
  /-- `CHash160`. -/
  hash160 : Valtype → Valtype
  /-- `CHash256`. -/
  hash256 : Valtype → Valtype
  ripemd160_length : ∀ x, (ripemd160 x).length = 20
  sha1_length : ∀ x, (sha1 x).length = 20
  sha256_length : ∀ x, (sha256 x).length = 32
  hash160_length : ∀ x, (hash160 x).length = 20
  hash256_length : ∀ x, (hash256 x).length = 32

/-- The hash an opcode computes. -/
def Hashes.apply (hashes : Hashes) : HashOp → Valtype → Valtype
  | .ripemd160 => hashes.ripemd160
  | .sha1 => hashes.sha1
  | .sha256 => hashes.sha256
  | .hash160 => hashes.hash160
  | .hash256 => hashes.hash256

/-- `GenericTransactionSignatureChecker` for one input of a transaction. -/
structure SignatureChecker where
  /-- `CheckSignatureEncoding` and `CheckPubKeyEncoding` under the flags. -/
  encodingOk : Valtype → Valtype → Bool
  /-- `CheckSig(vchSig, vchPubKey, scriptCode)`. -/
  checkSig : Valtype → Valtype → Valtype → Bool
  /-- `txTo->nLockTime`. -/
  txLockTime : UInt32
  /-- `txTo->vin[nIn].nSequence`. -/
  sequence : UInt32

/-- `CheckLockTime`: the lock time is of the transaction's kind, not after it, and the input
is not final. -/
def SignatureChecker.checkLockTime (checker : SignatureChecker) (nLockTime : Int) : Bool :=
  if !((checker.txLockTime.toNat < locktimeThreshold ∧ nLockTime < locktimeThreshold) ∨
      (checker.txLockTime.toNat ≥ locktimeThreshold ∧ nLockTime ≥ locktimeThreshold)) then false
  else if nLockTime > checker.txLockTime.toNat then false
  else if checker.sequence = sequenceFinal then false
  else true

/-- The `SCRIPT_ERR_*` codes `EvalScript` and `VerifyScript` return. -/
inductive ScriptError where
  | unknownError
  | evalFalse
  | opReturn
  | scriptSize
  | pushSize
  | opCount
  | stackSize
  | verify
  | equalVerify
  | checkSigVerify
  | invalidStackOperation
  | unbalancedConditional
  | negativeLocktime
  | unsatisfiedLocktime
  | badOpcode
  | disabledOpcode
  | minimalData
  | sigPushOnly
  | sigEncoding
  | sigNullFail
  | cleanStack
  | discourageUpgradableNops
  /-- An enabled opcode this model does not execute. -/
  | unmodelled
  deriving DecidableEq, Repr

/-- The local state of `EvalScript`. -/
structure EvalState where
  /-- `stack`, top first. -/
  stack : List Valtype
  /-- `altstack`. -/
  altstack : List Valtype
  /-- `vfExec`, innermost branch first. -/
  vfExec : List Bool
  /-- The script from `pbegincodehash` to its end. -/
  codeHash : Valtype
  /-- `nOpCount`. -/
  nOpCount : Nat

/-- `fExec`: every enclosing branch is taken. -/
def EvalState.fExec (st : EvalState) : Bool := st.vfExec.all id

/-- Replace the stack. -/
def EvalState.setStack (st : EvalState) (stack : List Valtype) : EvalState :=
  { st with stack := stack }

section Exec

variable (flags : ScriptFlags) (hashes : Hashes) (checker : SignatureChecker)

/-- The `switch` of `EvalScript` for an opcode that is executed, or that is a flow-control
opcode in an unexecuted branch; `pc` is the script after the opcode. -/
def execOp (opcode : UInt8) (pc : List UInt8) (st : EvalState) :
    Except ScriptError EvalState :=
  match opcodeOf opcode, st.stack with
  | .push, _ => .error .badOpcode
  | .num n, stack => .ok (st.setStack (scriptNumSerialize n :: stack))
  | .nop, _ => .ok st
  | .checkLockTimeVerify, stack =>
    if !flags.checkLockTimeVerify then .ok st
    else
      match stack with
      | [] => .error .invalidStackOperation
      | top :: _ =>
        match scriptNumOf top flags.minimalData 5 with
        | none => .error .unknownError
        | some nLockTime =>
          if nLockTime < 0 then .error .negativeLocktime
          else if !checker.checkLockTime nLockTime then .error .unsatisfiedLocktime
          else .ok st
  | .upgradableNop, _ =>
    if flags.discourageUpgradableNops then .error .discourageUpgradableNops else .ok st
  | .branch notIf, stack =>
    if st.fExec then
      match stack with
      | [] => .error .unbalancedConditional
      | top :: rest =>
        .ok { st with stack := rest, vfExec := (castToBool top != notIf) :: st.vfExec }
    else .ok { st with vfExec := false :: st.vfExec }
  | .orElse, _ =>
    match st.vfExec with
    | [] => .error .unbalancedConditional
    | b :: rest => .ok { st with vfExec := (!b) :: rest }
  | .endIf, _ =>
    match st.vfExec with
    | [] => .error .unbalancedConditional
    | _ :: rest => .ok { st with vfExec := rest }
  | .verify, [] => .error .invalidStackOperation
  | .verify, top :: rest => if castToBool top then .ok (st.setStack rest) else .error .verify
  | .opReturn, _ => .error .opReturn
  | .drop, [] => .error .invalidStackOperation
  | .drop, _ :: rest => .ok (st.setStack rest)
  | .equal andVerify, vch2 :: vch1 :: rest =>
    if andVerify then
      if vch1 = vch2 then .ok (st.setStack rest) else .error .equalVerify
    else .ok (st.setStack (boolVch (vch1 = vch2) :: rest))
  | .equal _, _ => .error .invalidStackOperation
  | .hash h, vch :: rest => .ok (st.setStack (hashes.apply h vch :: rest))
  | .hash _, [] => .error .invalidStackOperation
  | .codeSeparator, _ => .ok { st with codeHash := pc }
  | .checkSig andVerify, vchPubKey :: vchSig :: rest =>
    let scriptCode := findAndDelete st.codeHash (pushOf vchSig)
    if !checker.encodingOk vchSig vchPubKey then .error .sigEncoding
    else
      let fSuccess := checker.checkSig vchSig vchPubKey scriptCode
      if !fSuccess && flags.nullFail && vchSig ≠ [] then .error .sigNullFail
      else if andVerify then
        if fSuccess then .ok (st.setStack rest) else .error .checkSigVerify
      else .ok (st.setStack (boolVch fSuccess :: rest))
  | .checkSig _, _ => .error .invalidStackOperation
  | .disabled, _ => .error .disabledOpcode
  | .bad, _ => .error .badOpcode
  | .unmodelled, _ => .error .unmodelled

/-- One pass of the `while (pc < pend)` loop of `EvalScript` on an operation that has been
read: the operand size, the operation count, disabled opcodes, the push or the `switch`,
and the stack size. -/
def stepOp (opcode : UInt8) (vchPushValue : Valtype) (pc : List UInt8) (st : EvalState) :
    Except ScriptError EvalState :=
  if vchPushValue.length > maxScriptElementSize then .error .pushSize
  else
    let nOpCount := if opcode > op16 then st.nOpCount + 1 else st.nOpCount
    if nOpCount > maxOpsPerScript then .error .opCount
    else if opcode ∈ disabledOpcodes then .error .disabledOpcode
    else
      let st := { st with nOpCount := nOpCount }
      let result :=
        if st.fExec ∧ opcode ≤ opPushdata4 then
          if flags.minimalData ∧ !checkMinimalPush vchPushValue opcode then .error .minimalData
          else .ok (st.setStack (vchPushValue :: st.stack))
        else if st.fExec ∨ (opIf ≤ opcode ∧ opcode ≤ opEndif) then execOp flags hashes checker opcode pc st
        else .ok st
      match result with
      | .error e => .error e
      | .ok st =>
        if st.stack.length + st.altstack.length > maxStackSize then .error .stackSize
        else .ok st

/-- The loop of `EvalScript`; `fuel` bounds the number of operations, and the length of the
script is always enough. -/
def evalLoop : Nat → List UInt8 → EvalState → Except ScriptError EvalState
  | _, [], st => .ok st
  | 0, _ :: _, _ => .error .unknownError
  | fuel + 1, pc, st =>
    match getScriptOp pc with
    | none => .error .badOpcode
    | some (opcode, vchPushValue, rest) =>
      match stepOp flags hashes checker opcode vchPushValue rest st with
      | .error e => .error e
      | .ok st => evalLoop fuel rest st

/-- `EvalScript`: the stack a script leaves. -/
def evalScript (stack : List Valtype) (script : Valtype) : Except ScriptError (List Valtype) :=
  if script.length > maxScriptSize then .error .scriptSize
  else
    match evalLoop flags hashes checker script.length script ⟨stack, [], [], script, 0⟩ with
    | .error e => .error e
    | .ok st => if st.vfExec ≠ [] then .error .unbalancedConditional else .ok st.stack

/-- `VerifyScript` without witnesses: the `scriptSig`, then the `scriptPubKey` on the stack
it leaves, then for a pay-to-script-hash output the serialized script it pushed last. -/
def verifyScript (scriptSig scriptPubKey : Valtype) : Except ScriptError Unit :=
  if flags.sigPushOnly ∧ !isPushOnly scriptSig.length scriptSig then .error .sigPushOnly
  else
    match evalScript flags hashes checker [] scriptSig with
    | .error e => .error e
    | .ok stackCopy =>
      match evalScript flags hashes checker stackCopy scriptPubKey with
      | .error e => .error e
      | .ok stack =>
        if !(stack.head?.map castToBool).getD false then .error .evalFalse
        else
          let p2shResult : Except ScriptError (List Valtype) :=
            if flags.p2sh ∧ isPayToScriptHash scriptPubKey then
              if !isPushOnly scriptSig.length scriptSig then .error .sigPushOnly
              else
                match stackCopy with
                | [] => .error .unknownError
                | pubKeySerialized :: rest =>
                  match evalScript flags hashes checker rest pubKeySerialized with
                  | .error e => .error e
                  | .ok stack =>
                    if !(stack.head?.map castToBool).getD false then .error .evalFalse
                    else .ok stack
            else .ok stack
          match p2shResult with
          | .error e => .error e
          | .ok stack =>
            if flags.cleanStack ∧ stack.length ≠ 1 then .error .cleanStack else .ok ()

end Exec

end Dexfin.Bitcoin
