import Dexfin.Bitcoin.Script

/-!
# Evaluating scripts

The rules that evaluate a script one operation at a time: reading an operation consumes
bytes (`getScriptOp_length`), so the length of a script is enough fuel for `evalLoop`, and
with enough fuel an evaluation is its first operation followed by the evaluation of the rest
(`evalLoop_of_getScriptOp`). Then what each modelled kind of operation does to the state:
a data push (`getScriptOp_pushOf`, `stepOp_push`), a skipped operation, and an executed
opcode (`stepOp_exec`); and the round trip of script numbers that lock times rely on
(`scriptNumOf_serialize`).
-/

namespace Dexfin.Bitcoin

open Bytes

/-! ## Reading operations -/

theorem readData_length {n : Nat} {pc d rest : List UInt8}
    (h : readData n pc = some (d, rest)) : rest.length ≤ pc.length := by
  unfold readData at h
  split_ifs at h
  cases h
  simp

/-- Reading an operation consumes at least its opcode byte. -/
theorem getScriptOp_length {pc : List UInt8} {opcode : UInt8} {d rest : List UInt8}
    (h : getScriptOp pc = some (opcode, d, rest)) : rest.length < pc.length := by
  match pc with
  | [] => simp [getScriptOp] at h
  | b :: pc =>
    simp only [getScriptOp] at h
    have hlt : ∀ {pc' : List UInt8} {n : Nat}, pc'.length ≤ pc.length →
        (readData n pc').map (fun x => (b, x.1, x.2)) = some (opcode, d, rest) →
        rest.length < (b :: pc).length := by
      intro pc' n hpc' hread
      obtain ⟨⟨d', rest'⟩, hr, heq⟩ := Option.map_eq_some_iff.1 hread
      cases heq
      have := readData_length hr
      simp only [List.length_cons]
      omega
    split_ifs at h
    · exact hlt le_rfl h
    · cases pc with
      | nil => simp at h
      | cons n pc =>
        simp only at h
        exact hlt (by simp) h
    · exact hlt (by simp) h
    · exact hlt (by simp) h
    · cases h
      simp

/-! ## The loop -/

section Loop

variable {flags : ScriptFlags} {hashes : Hashes} {checker : SignatureChecker}

/-- Any fuel at least the length of the script gives the same evaluation. -/
theorem evalLoop_fuel {n m : Nat} {pc : List UInt8} {st : EvalState} (hn : pc.length ≤ n)
    (hm : pc.length ≤ m) :
    evalLoop flags hashes checker n pc st = evalLoop flags hashes checker m pc st := by
  induction n generalizing m pc st with
  | zero =>
    match pc with
    | [] => cases m <;> rfl
  | succ n ih =>
    match pc, m with
    | [], m => cases m <;> rfl
    | b :: pc, m + 1 =>
      simp only [evalLoop]
      split
      · rfl
      · rename_i opcode d rest hget
        have hlt := getScriptOp_length hget
        split
        · rfl
        · exact ih (by simp at hn hlt; omega) (by simp at hm hlt; omega)

/-- With the script's length as fuel, evaluation runs the first operation and then the
rest. -/
theorem evalLoop_of_getScriptOp {pc rest : List UInt8} {opcode : UInt8} {d : Valtype}
    {st : EvalState} (hget : getScriptOp pc = some (opcode, d, rest)) :
    evalLoop flags hashes checker pc.length pc st =
      match stepOp flags hashes checker opcode d rest st with
      | .error e => .error e
      | .ok st' => evalLoop flags hashes checker rest.length rest st' := by
  have hlt := getScriptOp_length hget
  match pc, hget with
  | b :: pc, hget =>
    simp only [List.length_cons, evalLoop, hget]
    cases stepOp flags hashes checker opcode d rest st with
    | error e => rfl
    | ok st' => exact evalLoop_fuel (n := pc.length) (by simp at hlt; omega) le_rfl

/-- `IsPushOnly` reads the first operation and goes on with the rest. -/
theorem isPushOnly_of_getScriptOp {pc rest : List UInt8} {opcode : UInt8} {d : Valtype}
    (hget : getScriptOp pc = some (opcode, d, rest)) (fuel : Nat) :
    isPushOnly (fuel + 1) pc = (decide (opcode ≤ op16) && isPushOnly fuel rest) := by
  match pc, hget with
  | b :: pc, hget => simp [isPushOnly, hget]

end Loop

/-! ## Pushes -/

theorem readData_append {n : Nat} {d rest : List UInt8} (h : d.length = n) :
    readData n (d ++ rest) = some (d, rest) := by
  subst h
  simp [readData]

/-- `CScript() << b` reads back as a push of `b`. -/
theorem getScriptOp_pushOf {b : Valtype} (rest : List UInt8) (h : b.length < 2 ^ 32) :
    getScriptOp (pushOf b ++ rest) = some ((pushOf b).headD 0, b, rest) := by
  unfold pushOf
  split_ifs with h1 h2 h3
  · have hop : (b.length.toUInt8 : UInt8) < opPushdata1 := by
      rw [UInt8.lt_iff_toNat_lt]
      simp [opPushdata1] at h1 ⊢
      omega
    have hn : (b.length.toUInt8 : UInt8).toNat = b.length := by
      simp [opPushdata1] at h1
      simp
      omega
    simp [getScriptOp, hop, hn, readData_append]
  · have hn : (b.length.toUInt8 : UInt8).toNat = b.length := by simp; omega
    simp [getScriptOp, opPushdata1, hn, readData_append]
  · have hle : leValue [(b.length % 256).toUInt8, (b.length / 256).toUInt8] = b.length := by
      simp only [leValue_cons, leValue_nil]
      simp
      omega
    simp [getScriptOp, opPushdata1, opPushdata2, hle, readData_append]
  · have hle : leValue [(b.length % 256).toUInt8, (b.length / 256 % 256).toUInt8,
        (b.length / 65536 % 256).toUInt8, (b.length / 16777216).toUInt8] = b.length := by
      simp only [leValue_cons, leValue_nil]
      simp
      omega
    simp [getScriptOp, opPushdata1, opPushdata2, opPushdata4, hle, readData_append]

/-- A push starts with a push opcode. -/
theorem headD_pushOf_le (b : Valtype) : (pushOf b).headD 0 ≤ opPushdata4 := by
  unfold pushOf
  split_ifs with h1
  · rw [List.headD_cons, UInt8.le_iff_toNat_le]
    simp [opPushdata1, opPushdata4] at h1 ⊢
    omega
  all_goals simp [opPushdata1, opPushdata2, opPushdata4]

/-- `CScript() << b` is the minimal push of `b`, unless `b` is a single byte that a
small-integer opcode pushes. -/
theorem checkMinimalPush_pushOf {b : Valtype}
    (hsmall : ¬(b.length = 1 ∧ ((1 ≤ b.headD 0 ∧ b.headD 0 ≤ 16) ∨ b.headD 0 = 0x81))) :
    checkMinimalPush b ((pushOf b).headD 0) = true := by
  unfold checkMinimalPush pushOf
  by_cases h0 : b.length = 0
  · simp [h0, opPushdata1, op0]
  · have hsmall' : ¬(b.length = 1 ∧ 1 ≤ b.headD 0 ∧ b.headD 0 ≤ 16) ∧
        ¬(b.length = 1 ∧ b.headD 0 = 0x81) := by
      constructor <;> (intro h; exact hsmall ⟨h.1, by tauto⟩)
    simp only [h0, hsmall'.1, hsmall'.2, if_false]
    split_ifs <;> simp_all [opPushdata1, opPushdata2] <;> omega

/-! ## One operation -/

/-- The disabled opcodes are none of the pushes and small integers. -/
theorem op16_lt_of_mem_disabled {opcode : UInt8} (h : opcode ∈ disabledOpcodes) :
    op16 < opcode := by
  have key : ∀ x ∈ disabledOpcodes, op16 < x := by simp [disabledOpcodes, op16]
  exact key opcode h

section Step

variable {flags : ScriptFlags} {hashes : Hashes} {checker : SignatureChecker}
variable {opcode : UInt8} {d pc : List UInt8}
variable {stack alt : List Valtype} {vf : List Bool} {code : Valtype} {n : Nat}

/-- A push in an executed branch puts its operand on the stack. -/
theorem stepOp_push (hop : opcode ≤ opPushdata4) (hd : d.length ≤ maxScriptElementSize)
    (hcount : n ≤ maxOpsPerScript) (hexec : vf.all id = true)
    (hmin : flags.minimalData = true → checkMinimalPush d opcode = true)
    (hsize : stack.length + 1 + alt.length ≤ maxStackSize) :
    stepOp flags hashes checker opcode d pc ⟨stack, alt, vf, code, n⟩ =
      .ok ⟨d :: stack, alt, vf, code, n⟩ := by
  have hnot : ¬op16 < opcode := by
    rw [UInt8.lt_iff_toNat_lt]
    rw [UInt8.le_iff_toNat_le] at hop
    simp [op16, opPushdata4] at hop ⊢
    omega
  have hdis : opcode ∉ disabledOpcodes := fun h => hnot (op16_lt_of_mem_disabled h)
  have hmin' : ¬(flags.minimalData = true ∧ checkMinimalPush d opcode = false) := by
    rintro ⟨hm, hc⟩
    simp [hmin hm] at hc
  unfold stepOp
  simp [hnot, hdis, hop, hexec, hmin', EvalState.setStack, EvalState.fExec, Nat.not_lt.2 hd,
    Nat.not_lt.2 hcount, Nat.not_lt.2 hsize]

/-- A small-integer opcode in an executed branch pushes its number. -/
theorem stepOp_num {m : Int} (hlo : opPushdata4 < opcode) (hhi : opcode ≤ op16)
    (hnum : opcodeOf opcode = .num m) (hcount : n ≤ maxOpsPerScript)
    (hexec : vf.all id = true) (hsize : stack.length + 1 + alt.length ≤ maxStackSize) :
    stepOp flags hashes checker opcode [] pc ⟨stack, alt, vf, code, n⟩ =
      .ok ⟨scriptNumSerialize m :: stack, alt, vf, code, n⟩ := by
  have hnot : ¬op16 < opcode := by
    rw [UInt8.lt_iff_toNat_lt]
    rw [UInt8.le_iff_toNat_le] at hhi
    omega
  have hdis : opcode ∉ disabledOpcodes := fun h => hnot (op16_lt_of_mem_disabled h)
  have hpush : ¬opcode ≤ opPushdata4 := by
    rw [UInt8.le_iff_toNat_le]
    rw [UInt8.lt_iff_toNat_lt] at hlo
    omega
  unfold stepOp
  simp [hnot, hdis, hpush, hexec, execOp, hnum, EvalState.setStack, EvalState.fExec,
    maxScriptElementSize, Nat.not_lt.2 hcount, Nat.not_lt.2 hsize]

/-- An opcode in a branch that is not taken is only counted, unless it is flow control. -/
theorem stepOp_skip (hexec : vf.all id = false) (hflow : ¬(opIf ≤ opcode ∧ opcode ≤ opEndif))
    (hdis : opcode ∉ disabledOpcodes) (hd : d.length ≤ maxScriptElementSize)
    (hcount : (if op16 < opcode then n + 1 else n) ≤ maxOpsPerScript)
    (hsize : stack.length + alt.length ≤ maxStackSize) :
    stepOp flags hashes checker opcode d pc ⟨stack, alt, vf, code, n⟩ =
      .ok ⟨stack, alt, vf, code, if op16 < opcode then n + 1 else n⟩ := by
  unfold stepOp
  simp only [gt_iff_lt, Nat.not_lt.2 hd, Nat.not_lt.2 hcount, hdis, hexec, hflow,
    EvalState.fExec, if_false]
  simp [Nat.not_lt.2 hsize]

/-- An opcode that is executed, or is flow control in a branch not taken, is counted and
then runs its case of the `switch`. -/
theorem stepOp_exec (hop : op16 < opcode)
    (hrun : vf.all id = true ∨ (opIf ≤ opcode ∧ opcode ≤ opEndif))
    (hdis : opcode ∉ disabledOpcodes) (hcount : n + 1 ≤ maxOpsPerScript) :
    stepOp flags hashes checker opcode [] pc ⟨stack, alt, vf, code, n⟩ =
      match execOp flags hashes checker opcode pc ⟨stack, alt, vf, code, n + 1⟩ with
      | .error e => .error e
      | .ok st' =>
        if st'.stack.length + st'.altstack.length > maxStackSize then .error .stackSize
        else .ok st' := by
  have hpush : ¬opcode ≤ opPushdata4 := by
    rw [UInt8.le_iff_toNat_le]
    rw [UInt8.lt_iff_toNat_lt] at hop
    simp [op16, opPushdata4] at hop ⊢
    omega
  unfold stepOp
  simp only [gt_iff_lt, hop, if_true, List.length_nil, maxScriptElementSize, Nat.not_lt.2 hcount,
    hdis, EvalState.fExec, hpush, and_false, if_false, hrun]
  rfl

end Step

/-! ## Script numbers -/

section Num

variable {n : Nat}

/-- The serialization of a positive number: its bytes, and a zero byte after them when the
top bit of the last one is set. -/
theorem scriptNumSerialize_of_pos (h0 : 0 < n) {last : UInt8} {rest : List UInt8}
    (hrev : (leBytes 8 n).reverse = last :: rest) :
    scriptNumSerialize n = if last &&& 0x80 ≠ 0 then leBytes 8 n ++ [0] else leBytes 8 n := by
  have hn : (n : Int) ≠ 0 := by omega
  have hpos : ¬(n : Int) < 0 := by omega
  simp only [scriptNumSerialize, hn, if_false, Int.natAbs_natCast, hrev, hpos]

/-- A lock time round-trips through `CScriptNum`, minimal and within five bytes. -/
theorem scriptNumOf_serialize (h0 : 0 < n) (h : n < 2 ^ 32) (fRequireMinimal : Bool) :
    scriptNumOf (scriptNumSerialize n) fRequireMinimal 5 = some n := by
  have hval : leValue (leBytes 8 n) = n := leValue_leBytes (by omega)
  have hlen : (leBytes 8 n).length ≤ 4 := length_leBytes_le (by omega)
  have hne : leBytes 8 n ≠ [] := leBytes_ne_nil (by omega) (by omega)
  obtain ⟨last, rest, hrev⟩ : ∃ last rest, (leBytes 8 n).reverse = last :: rest := by
    cases hr : (leBytes 8 n).reverse with
    | nil => simp_all
    | cons last rest => exact ⟨last, rest, rfl⟩
  have hlast : last ≠ 0 := by
    refine @getLast_leBytes_ne_zero 8 n last (by omega) ?_
    rw [← List.head?_reverse, hrev]
    rfl
  rw [scriptNumSerialize_of_pos h0 hrev]
  by_cases htop : last &&& 0x80 = 0
  · -- the bytes themselves: the last one is below `0x80` and not zero
    have hlow : ¬(last &&& 0x7f = 0) := by
      rw [and_0x7f_eq_zero_iff]
      rw [and_0x80_eq_zero_iff] at htop
      have : last.toNat ≠ 0 := fun h => hlast (UInt8.toNat_inj.1 (by simpa using h))
      omega
    simp only [htop, ne_eq, not_true_eq_false, if_false]
    unfold scriptNumOf scriptNumValue
    cases fRequireMinimal <;> simp [hrev, htop, hlow, hval] <;> omega
  · -- a zero byte after them
    have hrev' : (leBytes 8 n ++ [0]).reverse = 0 :: last :: rest := by simp [hrev]
    simp only [htop, ne_eq, not_false_eq_true, if_true]
    unfold scriptNumOf scriptNumValue
    cases fRequireMinimal <;> simp [hrev', htop, hval] <;> omega

/-- A lock time below `2^32` takes at most five bytes. -/
theorem length_scriptNumSerialize_le (h0 : 0 < n) (h : n < 2 ^ 32) :
    (scriptNumSerialize n).length ≤ 5 := by
  have hlen : (leBytes 8 n).length ≤ 4 := length_leBytes_le (by omega)
  have hne : leBytes 8 n ≠ [] := leBytes_ne_nil (by omega) (by omega)
  obtain ⟨last, rest, hrev⟩ : ∃ last rest, (leBytes 8 n).reverse = last :: rest := by
    cases hr : (leBytes 8 n).reverse with
    | nil => simp_all
    | cons last rest => exact ⟨last, rest, rfl⟩
  rw [scriptNumSerialize_of_pos h0 hrev]
  split_ifs <;> simp <;> omega

end Num

/-! ## The cases of the interpreter -/

@[simp] theorem opcodeOf_opRipemd160 : opcodeOf opRipemd160 = .hash .ripemd160 := by decide
@[simp] theorem opcodeOf_opHash160 : opcodeOf opHash160 = .hash .hash160 := by decide
@[simp] theorem opcodeOf_opEqual : opcodeOf opEqual = .equal false := by decide
@[simp] theorem opcodeOf_opEqualverify : opcodeOf opEqualverify = .equal true := by decide
@[simp] theorem opcodeOf_opIf : opcodeOf opIf = .branch false := by decide
@[simp] theorem opcodeOf_opElse : opcodeOf opElse = .orElse := by decide
@[simp] theorem opcodeOf_opEndif : opcodeOf opEndif = .endIf := by decide
@[simp] theorem opcodeOf_opDrop : opcodeOf opDrop = .drop := by decide
@[simp] theorem opcodeOf_opChecksig : opcodeOf opChecksig = .checkSig false := by decide
@[simp] theorem opcodeOf_opChecklocktimeverify :
    opcodeOf opChecklocktimeverify = .checkLockTimeVerify := by decide

@[simp] theorem castToBool_boolVch (b : Bool) : castToBool (boolVch b) = b := by
  cases b <;> rfl

/-- What `OP_CHECKSIG` answers for a signature and a key over a script code, or the error
it stops with: a badly encoded signature or key, or with `NULLFAIL` a failing signature
that is not empty. -/
def checkSigOutcome (flags : ScriptFlags) (checker : SignatureChecker)
    (scriptCode vchSig vchPubKey : Valtype) : Except ScriptError Bool :=
  if !checker.encodingOk vchSig vchPubKey then .error .sigEncoding
  else if !checker.checkSig vchSig vchPubKey scriptCode && flags.nullFail && vchSig ≠ [] then
    .error .sigNullFail
  else .ok (checker.checkSig vchSig vchPubKey scriptCode)

section Cases

variable {flags : ScriptFlags} {hashes : Hashes} {checker : SignatureChecker}
variable {pc : List UInt8} {rest alt : List Valtype} {vf : List Bool} {code : Valtype} {n : Nat}

theorem execOp_hash {opcode : UInt8} {h : HashOp} {x : Valtype}
    (hop : opcodeOf opcode = .hash h) :
    execOp flags hashes checker opcode pc ⟨x :: rest, alt, vf, code, n⟩ =
      .ok ⟨hashes.apply h x :: rest, alt, vf, code, n⟩ := by
  simp [execOp, hop, EvalState.setStack]

/-- A hash opcode on an empty stack. -/
theorem execOp_hash_nil {opcode : UInt8} {h : HashOp} (hop : opcodeOf opcode = .hash h) :
    execOp flags hashes checker opcode pc ⟨[], alt, vf, code, n⟩ = .error .invalidStackOperation := by
  simp [execOp, hop]

theorem execOp_equal {x y : Valtype} :
    execOp flags hashes checker opEqual pc ⟨y :: x :: rest, alt, vf, code, n⟩ =
      .ok ⟨boolVch (x = y) :: rest, alt, vf, code, n⟩ := by
  simp [execOp, EvalState.setStack]

theorem execOp_equalverify {x y : Valtype} :
    execOp flags hashes checker opEqualverify pc ⟨y :: x :: rest, alt, vf, code, n⟩ =
      if x = y then .ok ⟨rest, alt, vf, code, n⟩ else .error .equalVerify := by
  simp [execOp, EvalState.setStack]

/-- `OP_IF` in an executed branch pops the condition and opens a branch taken when it
holds. -/
theorem execOp_if {x : Valtype} (hexec : vf.all id = true) :
    execOp flags hashes checker opIf pc ⟨x :: rest, alt, vf, code, n⟩ =
      .ok ⟨rest, alt, castToBool x :: vf, code, n⟩ := by
  simp [execOp, EvalState.fExec, hexec]

theorem execOp_else {stack : List Valtype} {b : Bool} :
    execOp flags hashes checker opElse pc ⟨stack, alt, b :: vf, code, n⟩ =
      .ok ⟨stack, alt, (!b) :: vf, code, n⟩ := by
  simp [execOp]

theorem execOp_endif {stack : List Valtype} {b : Bool} :
    execOp flags hashes checker opEndif pc ⟨stack, alt, b :: vf, code, n⟩ =
      .ok ⟨stack, alt, vf, code, n⟩ := by
  simp [execOp]

theorem execOp_drop {x : Valtype} :
    execOp flags hashes checker opDrop pc ⟨x :: rest, alt, vf, code, n⟩ =
      .ok ⟨rest, alt, vf, code, n⟩ := by
  simp [execOp, EvalState.setStack]

/-- `OP_CHECKSIG` checks the signature over the script from the last code separator, without
the signature's own pushes. -/
theorem execOp_checksig {vchPubKey vchSig : Valtype} :
    execOp flags hashes checker opChecksig pc ⟨vchPubKey :: vchSig :: rest, alt, vf, code, n⟩ =
      (checkSigOutcome flags checker (findAndDelete code (pushOf vchSig)) vchSig
        vchPubKey).map fun ok => ⟨boolVch ok :: rest, alt, vf, code, n⟩ := by
  simp only [execOp, opcodeOf_opChecksig, checkSigOutcome, Bool.false_eq_true, if_false]
  split_ifs <;> rfl

/-- `OP_CHECKLOCKTIMEVERIFY` on a positive lock time below `2^32`, written minimally. -/
theorem execOp_checklocktimeverify {m : Nat} (h0 : 0 < m) (h : m < 2 ^ 32) :
    execOp flags hashes checker opChecklocktimeverify pc
        ⟨scriptNumSerialize m :: rest, alt, vf, code, n⟩ =
      if flags.checkLockTimeVerify ∧ !checker.checkLockTime m then .error .unsatisfiedLocktime
      else .ok ⟨scriptNumSerialize m :: rest, alt, vf, code, n⟩ := by
  have hnum := scriptNumOf_serialize h0 h flags.minimalData
  have hnn : ¬((m : Int) < 0) := by omega
  cases hf : flags.checkLockTimeVerify <;> simp [execOp, hf, hnum, hnn]

end Cases

/-- A lock time of the time kind is satisfied by a transaction whose lock time is not before
it, on an input that is not final. -/
theorem SignatureChecker.checkLockTime_of_threshold (checker : SignatureChecker) {m : Nat}
    (h : locktimeThreshold ≤ m) :
    checker.checkLockTime m = (decide (m ≤ checker.txLockTime.toNat) &&
      decide (checker.sequence ≠ sequenceFinal)) := by
  unfold SignatureChecker.checkLockTime
  by_cases hle : m ≤ checker.txLockTime.toNat
  · have hkind : checker.txLockTime.toNat ≥ locktimeThreshold := by omega
    simp [hle, hkind, h, Int.not_lt.2 (Int.ofNat_le.2 hle)]
  · simp only [hle, decide_false, Bool.false_and]
    split_ifs with h₁ h₂ <;> first | rfl | omega

/-- `OP_CHECKSIG` succeeds with true exactly when the signature and key are well encoded and
the signature checks. -/
theorem checkSigOutcome_eq_ok_true {flags : ScriptFlags} {checker : SignatureChecker}
    {scriptCode vchSig vchPubKey : Valtype} :
    checkSigOutcome flags checker scriptCode vchSig vchPubKey = .ok true ↔
      checker.encodingOk vchSig vchPubKey = true ∧
        checker.checkSig vchSig vchPubKey scriptCode = true := by
  unfold checkSigOutcome
  split_ifs with h₁ h₂ <;> simp_all

end Dexfin.Bitcoin
