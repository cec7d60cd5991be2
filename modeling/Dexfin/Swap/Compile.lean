import Dexfin.Bitcoin.Eval

/-!
# Compiled scripts

The swap builds its scripts with `bitcoin.script.compile` of bitcoinjs-lib, which is not part
of the source: a list of chunks, each an opcode or a buffer, written as bytes. What the swap's
results assume of it is that it writes each chunk in its minimal encoding, one after another
(`encodeChunks`): a buffer that an opcode pushes by itself (the empty buffer, one byte from 1 to
16, or `0x81`) becomes that opcode, and any other buffer is written with the same push encoding
as `CScript() << b`.

An encoded script reads back chunk by chunk (`getScriptOp_chunk`), so `EvalScript` on it
is `evalChunks`, one step per chunk (`evalLoop_encodeChunks`); a buffer pushes itself in an
executed branch (`evalChunks_data`), and an opcode runs its case of the interpreter
(`evalChunks_op`) or, in a branch not taken, is skipped (`evalChunks_skip_data`,
`evalChunks_skip_op`).
-/

namespace Dexfin.Swap

open Dexfin.Bitcoin

/-- A chunk of `bitcoin.script.compile`. -/
inductive Chunk where
  /-- An opcode. -/
  | op (opcode : UInt8)
  /-- A buffer to push. -/
  | data (buffer : Valtype)
  deriving DecidableEq, Repr

/-- `CheckMinimalPush`'s opcodes that push a buffer by themselves: `OP_0` for the empty buffer,
and `OP_1` to `OP_16` and `OP_1NEGATE` for the byte each pushes. -/
def asMinimalOp : Valtype → Option UInt8
  | [] => some op0
  | [b] => if 1 ≤ b ∧ b ≤ 16 then some (b + 0x50) else if b = 0x81 then some op1negate else none
  | _ => none

/-- The minimal encoding of one chunk. -/
def Chunk.bytes : Chunk → Valtype
  | .op opcode => [opcode]
  | .data buffer =>
    match asMinimalOp buffer with
    | some opcode => [opcode]
    | none => pushOf buffer

/-- The chunks in their minimal encodings, one after another. -/
def encodeChunks (chunks : List Chunk) : Valtype := (chunks.map Chunk.bytes).flatten

@[simp] theorem encodeChunks_nil : encodeChunks [] = [] := rfl

@[simp] theorem encodeChunks_cons (c : Chunk) (cs : List Chunk) :
    encodeChunks (c :: cs) = c.bytes ++ encodeChunks cs := rfl

/-! ## Reading a compiled script -/

/-- The opcode and operand `GetScriptOp` reads from a chunk. -/
def Chunk.readsAs : Chunk → UInt8 × Valtype
  | .op opcode => (opcode, [])
  | .data buffer =>
    match asMinimalOp buffer with
    | some opcode => (opcode, [])
    | none => ((pushOf buffer).headD 0, buffer)

/-- A chunk that reads back as itself: an opcode that is not a push, or a buffer whose
length fits the push encoding. -/
def Chunk.WellFormed : Chunk → Prop
  | .op opcode => opPushdata4 < opcode
  | .data buffer => buffer.length < 2 ^ 32

/-- The minimal opcodes are not pushes with an operand. -/
theorem asMinimalOp_readsAs {buffer : Valtype} {opcode : UInt8}
    (h : asMinimalOp buffer = some opcode) (rest : List UInt8) :
    getScriptOp (opcode :: rest) = some (opcode, [], rest) := by
  match buffer, h with
  | [], h =>
    simp only [asMinimalOp, Option.some.injEq] at h
    subst h
    simp [getScriptOp, op0, opPushdata1, readData]
  | [b], h =>
    simp only [asMinimalOp] at h
    split_ifs at h with h1 h2
    · cases h
      have hb := UInt8.le_iff_toNat_le.1 h1.2
      have hlt : ¬(b + 0x50 < opPushdata1) ∧ b + 0x50 ≠ opPushdata1 ∧ b + 0x50 ≠ opPushdata2 ∧
          b + 0x50 ≠ opPushdata4 := by
        simp only [opPushdata1, opPushdata2, opPushdata4, UInt8.lt_iff_toNat_lt, ne_eq,
          ← UInt8.toNat_inj, UInt8.toNat_add]
        simp at hb ⊢
        omega
      simp [getScriptOp, hlt]
    · cases h
      simp [getScriptOp, op1negate, opPushdata1, opPushdata2, opPushdata4]

/-- A well-formed chunk reads back as its opcode and operand. -/
theorem getScriptOp_chunk {c : Chunk} (hc : c.WellFormed) (rest : List UInt8) :
    getScriptOp (c.bytes ++ rest) = some (c.readsAs.1, c.readsAs.2, rest) := by
  cases c with
  | op opcode =>
    have hlt : ¬(opcode < opPushdata1) ∧ opcode ≠ opPushdata1 ∧ opcode ≠ opPushdata2 ∧
        opcode ≠ opPushdata4 := by
      simp only [Chunk.WellFormed, opPushdata4, UInt8.lt_iff_toNat_lt] at hc
      simp only [opPushdata1, opPushdata2, opPushdata4, UInt8.lt_iff_toNat_lt, ne_eq,
        ← UInt8.toNat_inj]
      simp at hc ⊢
      omega
    simp [Chunk.bytes, Chunk.readsAs, getScriptOp, hlt]
  | data buffer =>
    simp only [Chunk.bytes, Chunk.readsAs]
    cases hmin : asMinimalOp buffer with
    | some opcode => exact asMinimalOp_readsAs hmin rest
    | none => exact getScriptOp_pushOf rest hc

/-- A chunk is written as at least one byte. -/
theorem Chunk.bytes_ne_nil (c : Chunk) : c.bytes ≠ [] := by
  cases c with
  | op opcode => simp [Chunk.bytes]
  | data buffer =>
    simp only [Chunk.bytes]
    split
    · simp
    · unfold pushOf
      split_ifs <;> simp

/-- A bound on the bytes of a chunk: one for an opcode, five more than its length for a
buffer. -/
def Chunk.size : Chunk → Nat
  | .op _ => 1
  | .data buffer => buffer.length + 5

theorem Chunk.length_bytes_le (c : Chunk) : c.bytes.length ≤ c.size := by
  cases c with
  | op opcode => simp [Chunk.bytes, Chunk.size]
  | data buffer =>
    simp only [Chunk.bytes, Chunk.size]
    split
    · simp
    · unfold pushOf
      split_ifs <;> simp

theorem length_encodeChunks_le (cs : List Chunk) :
    (encodeChunks cs).length ≤ (cs.map Chunk.size).sum := by
  induction cs with
  | nil => simp
  | cons c cs ih =>
    have := c.length_bytes_le
    simp only [encodeChunks_cons, List.length_append, List.map_cons, List.sum_cons]
    omega

/-! ## Evaluating a compiled script -/

section Eval

variable (flags : ScriptFlags) (hashes : Hashes) (checker : SignatureChecker)

/-- `EvalScript`'s loop over a compiled script, one chunk at a time. -/
def evalChunks : List Chunk → EvalState → Except ScriptError EvalState
  | [], st => .ok st
  | c :: cs, st =>
    match stepOp flags hashes checker c.readsAs.1 c.readsAs.2 (encodeChunks cs) st with
    | .error e => .error e
    | .ok st' => evalChunks cs st'

variable {flags hashes checker}

/-- Evaluating the bytes of well-formed chunks is evaluating the chunks. -/
theorem evalLoop_encodeChunks {cs : List Chunk} (hcs : ∀ c ∈ cs, c.WellFormed) (st : EvalState) :
    evalLoop flags hashes checker (encodeChunks cs).length (encodeChunks cs) st =
      evalChunks flags hashes checker cs st := by
  induction cs generalizing st with
  | nil => simp [evalLoop, evalChunks]
  | cons c cs ih =>
    have hget := getScriptOp_chunk (hcs c (List.mem_cons_self ..)) (encodeChunks cs)
    rw [encodeChunks_cons, evalLoop_of_getScriptOp hget, evalChunks]
    cases stepOp flags hashes checker c.readsAs.1 c.readsAs.2 (encodeChunks cs) st with
    | error e => rfl
    | ok st' => exact ih (fun c' hc' => hcs c' (List.mem_cons_of_mem _ hc')) st'

/-- `EvalScript` on a compiled script that fits is `evalChunks` from the initial state. -/
theorem evalScript_encodeChunks {cs : List Chunk} (hcs : ∀ c ∈ cs, c.WellFormed)
    (hlen : (encodeChunks cs).length ≤ maxScriptSize) (stack : List Valtype) :
    evalScript flags hashes checker stack (encodeChunks cs) =
      match evalChunks flags hashes checker cs ⟨stack, [], [], encodeChunks cs, 0⟩ with
      | .error e => .error e
      | .ok st => if st.vfExec ≠ [] then .error .unbalancedConditional else .ok st.stack := by
  unfold evalScript
  rewrite [if_neg (Nat.not_lt.2 hlen), evalLoop_encodeChunks hcs]
  rfl

variable {cs : List Chunk} {st : EvalState}
variable {stack alt : List Valtype} {vf : List Bool} {code : Valtype} {n : Nat}

/-- The small integers a minimal opcode pushes are the bytes it stands for. -/
theorem minimal_num : ∀ k : Nat, k < 17 → 1 ≤ k →
    opcodeOf (k.toUInt8 + 0x50) = .num k ∧ scriptNumSerialize k = [k.toUInt8] := by
  decide

/-- The buffers that `asMinimalOP` has no opcode for are pushed minimally. -/
theorem not_small_of_asMinimalOp {buffer : Valtype} (h : asMinimalOp buffer = none) :
    ¬(buffer.length = 1 ∧ ((1 ≤ buffer.headD 0 ∧ buffer.headD 0 ≤ 16) ∨
      buffer.headD 0 = 0x81)) := by
  rcases buffer with _ | ⟨b, _ | ⟨b', bs⟩⟩
  · simp [asMinimalOp] at h
  · simp only [asMinimalOp] at h
    split_ifs at h with h1 h2
    simp only [List.length_singleton, List.headD_cons, true_and]
    tauto
  · simp

/-- A minimal opcode pushes its buffer. -/
theorem stepOp_asMinimalOp {buffer : Valtype} {opcode : UInt8} {pc : List UInt8}
    (hmin : asMinimalOp buffer = some opcode) (hd : buffer.length ≤ maxScriptElementSize)
    (hcount : n ≤ maxOpsPerScript) (hexec : vf.all id = true)
    (hsize : stack.length + 1 + alt.length ≤ maxStackSize) :
    stepOp flags hashes checker opcode [] pc ⟨stack, alt, vf, code, n⟩ =
      .ok ⟨buffer :: stack, alt, vf, code, n⟩ := by
  rcases buffer with _ | ⟨b, _ | ⟨b', bs⟩⟩
  · -- the empty buffer is `OP_0`
    simp only [asMinimalOp, Option.some.injEq] at hmin
    subst hmin
    exact stepOp_push (by decide) hd hcount hexec (fun _ => rfl) hsize
  · simp only [asMinimalOp] at hmin
    split_ifs at hmin with h1 h2
    · -- `OP_1` to `OP_16`
      cases hmin
      have hb := UInt8.le_iff_toNat_le.1 h1.2
      have hb1 := UInt8.le_iff_toNat_le.1 h1.1
      simp at hb hb1
      obtain ⟨hop, hser⟩ := minimal_num b.toNat (by omega) hb1
      have hb' : b.toNat.toUInt8 = b := UInt8.ofNat_toNat
      rw [hb'] at hop hser
      have hlo : opPushdata4 < b + 0x50 := by
        simp only [opPushdata4, UInt8.lt_iff_toNat_lt, UInt8.toNat_add]
        simp
        omega
      have hhi : b + 0x50 ≤ op16 := by
        simp only [op16, UInt8.le_iff_toNat_le, UInt8.toNat_add]
        simp
        omega
      rw [stepOp_num hlo hhi hop hcount hexec hsize, hser]
    · -- `OP_1NEGATE`
      cases hmin
      subst h2
      rw [stepOp_num (m := -1) (show opPushdata4 < op1negate by decide)
        (show op1negate ≤ op16 by decide) (by decide) hcount hexec hsize]
      rfl
  · simp [asMinimalOp] at hmin

/-- A buffer in an executed branch pushes itself. -/
theorem evalChunks_data {buffer : Valtype} (hd : buffer.length ≤ maxScriptElementSize)
    (hcount : n ≤ maxOpsPerScript) (hexec : vf.all id = true)
    (hsize : stack.length + 1 + alt.length ≤ maxStackSize) :
    evalChunks flags hashes checker (.data buffer :: cs) ⟨stack, alt, vf, code, n⟩ =
      evalChunks flags hashes checker cs ⟨buffer :: stack, alt, vf, code, n⟩ := by
  have hstep : stepOp flags hashes checker (Chunk.data buffer).readsAs.1
      (Chunk.data buffer).readsAs.2 (encodeChunks cs) ⟨stack, alt, vf, code, n⟩ =
      .ok ⟨buffer :: stack, alt, vf, code, n⟩ := by
    simp only [Chunk.readsAs]
    cases hmin : asMinimalOp buffer with
    | some opcode => exact stepOp_asMinimalOp hmin hd hcount hexec hsize
    | none =>
      exact stepOp_push (headD_pushOf_le _) hd hcount hexec
        (fun _ => checkMinimalPush_pushOf (not_small_of_asMinimalOp hmin)) hsize
  rw [evalChunks, hstep]

/-- An opcode that runs adds one to the count and runs its case of the interpreter. -/
theorem evalChunks_op {opcode : UInt8} (hop : op16 < opcode)
    (hrun : vf.all id = true ∨ (opIf ≤ opcode ∧ opcode ≤ opEndif))
    (hdis : opcode ∉ disabledOpcodes) (hcount : n + 1 ≤ maxOpsPerScript) :
    evalChunks flags hashes checker (.op opcode :: cs) ⟨stack, alt, vf, code, n⟩ =
      match execOp flags hashes checker opcode (encodeChunks cs) ⟨stack, alt, vf, code, n + 1⟩ with
      | .error e => .error e
      | .ok st' =>
        if st'.stack.length + st'.altstack.length > maxStackSize then .error .stackSize
        else evalChunks flags hashes checker cs st' := by
  rw [evalChunks]
  simp only [Chunk.readsAs]
  rw [stepOp_exec hop hrun hdis hcount]
  cases execOp flags hashes checker opcode (encodeChunks cs) ⟨stack, alt, vf, code, n + 1⟩ with
  | error e => rfl
  | ok st' =>
    simp only
    split_ifs <;> rfl

/-- A buffer is pushed by an opcode no greater than `OP_16`. -/
theorem readsAs_data_le (buffer : Valtype) : (Chunk.data buffer).readsAs.1 ≤ op16 := by
  simp only [Chunk.readsAs]
  cases hmin : asMinimalOp buffer with
  | none =>
    have h := headD_pushOf_le buffer
    simp only [opPushdata4, op16, UInt8.le_iff_toNat_le] at h ⊢
    simp at h ⊢
    omega
  | some opcode =>
    simp only
    rcases buffer with _ | ⟨b, _ | ⟨b', bs⟩⟩
    · simp only [asMinimalOp, Option.some.injEq] at hmin
      subst hmin
      decide
    · simp only [asMinimalOp] at hmin
      split_ifs at hmin with h1 h2
      · cases hmin
        have hb := UInt8.le_iff_toNat_le.1 h1.2
        simp only [op16, UInt8.le_iff_toNat_le, UInt8.toNat_add]
        simp at hb ⊢
        omega
      · cases hmin
        decide
    · simp [asMinimalOp] at hmin

/-- A buffer in a branch not taken is skipped. -/
theorem evalChunks_skip_data {buffer : Valtype} (hd : buffer.length ≤ maxScriptElementSize)
    (hcount : n ≤ maxOpsPerScript) (hexec : vf.all id = false)
    (hsize : stack.length + alt.length ≤ maxStackSize) :
    evalChunks flags hashes checker (.data buffer :: cs) ⟨stack, alt, vf, code, n⟩ =
      evalChunks flags hashes checker cs ⟨stack, alt, vf, code, n⟩ := by
  have hle := readsAs_data_le buffer
  have hnot : ¬op16 < (Chunk.data buffer).readsAs.1 := by
    rw [UInt8.lt_iff_toNat_lt]
    rw [UInt8.le_iff_toNat_le] at hle
    omega
  have hflow : ¬(opIf ≤ (Chunk.data buffer).readsAs.1 ∧ (Chunk.data buffer).readsAs.1 ≤ opEndif) := by
    rintro ⟨h, -⟩
    rw [UInt8.le_iff_toNat_le] at h hle
    simp [opIf, op16] at h hle
    omega
  have hdis : (Chunk.data buffer).readsAs.1 ∉ disabledOpcodes :=
    fun h => hnot (op16_lt_of_mem_disabled h)
  have hd' : (Chunk.data buffer).readsAs.2.length ≤ maxScriptElementSize := by
    simp only [Chunk.readsAs]
    split <;> simp_all
  rw [evalChunks, stepOp_skip hexec hflow hdis hd' (by simpa [hnot] using hcount) hsize]
  simp [hnot]

/-- An opcode in a branch not taken, other than flow control, is only counted. -/
theorem evalChunks_skip_op {opcode : UInt8} (hop : op16 < opcode)
    (hflow : ¬(opIf ≤ opcode ∧ opcode ≤ opEndif)) (hdis : opcode ∉ disabledOpcodes)
    (hcount : n + 1 ≤ maxOpsPerScript) (hexec : vf.all id = false)
    (hsize : stack.length + alt.length ≤ maxStackSize) :
    evalChunks flags hashes checker (.op opcode :: cs) ⟨stack, alt, vf, code, n⟩ =
      evalChunks flags hashes checker cs ⟨stack, alt, vf, code, n + 1⟩ := by
  rw [evalChunks]
  simp only [Chunk.readsAs]
  rw [stepOp_skip hexec hflow hdis (by simp) (by simpa [hop] using hcount) hsize]
  simp [hop]

end Eval

end Dexfin.Swap
