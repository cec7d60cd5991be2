import Dexfin.Lightning.Tx

/-!
# Reading transactions

The readers of `bitcoin/pullpush.c` and `bitcoin/tx.c`. A reader takes the cursor and
`*max` together: the bytes left, or `none` once a read has failed, which sets `*cursor` to
`NULL` and `*max` to 0. A failed read still returns (zeros, or 0), and the readers after it
go on; `pull` of no bytes on a `NULL` cursor fails its `assert(p)`, which is `none` here.

`pull_length` guards a count against the bytes left by `v * mult > *max` in 64 bits; the
product wraps for counts near `2^64 / mult`, so a count of 449920587163647601 inputs passes
with 25 bytes left (`pullLength_wraps`).

`pull_bitcoin_tx` reads back what `linearize_tx` writes for every transaction with an
input whose scripts and witnesses are `NULL` or not empty, and ends at the last byte
(`pullBitcoinTx_linearizeTx`). Each reader has a lemma saying what it reads from the bytes
its writer wrote, followed by anything.
-/

namespace Dexfin.Lightning

open Bytes

/-- The cursor and `*max`: the bytes left, or `none` after a failed read. -/
abbrev Cursor := Option (List UInt8)

/-- A reader: what it read and the cursor after it, or `none` if an `assert` fails. -/
abbrev Pull (α : Type) := StateT Cursor Option α

/-- The zeros a short read copies out. -/
def zeroBytes (n : Nat) : Fixed n := ⟨List.replicate n 0, List.length_replicate⟩

/-- `pull`: `n` bytes. A short read sets the cursor to `NULL` and copies zeros; reading no
bytes from a `NULL` cursor fails `assert(p)`. -/
def pull (n : Nat) : Pull (Fixed n) := fun cursor =>
  match cursor with
  | none => if n = 0 then none else some (zeroBytes n, none)
  | some bs =>
    if h : n ≤ bs.length then some (⟨bs.take n, by simp [h]⟩, some (bs.drop n))
    else some (zeroBytes n, none)

/-- `pull_le32`. -/
def pullLe32 : Pull (BitVec 32) := do
  let b ← pull 4
  pure (BitVec.ofNat 32 (leValue b.bytes))

/-- `pull_le64`. -/
def pullLe64 : Pull (BitVec 64) := do
  let b ← pull 8
  pure (BitVec.ofNat 64 (leValue b.bytes))

/-- `varint_get`: the value and the number of bytes it took, or `none` (a length of 0) when
the bytes run out. -/
def varintGet : List UInt8 → Option (BitVec 64 × Nat)
  | [] => none
  | b :: rest =>
    if b = 0xfd then
      if rest.length < 2 then none else some (BitVec.ofNat 64 (leValue (rest.take 2)), 3)
    else if b = 0xfe then
      if rest.length < 4 then none else some (BitVec.ofNat 64 (leValue (rest.take 4)), 5)
    else if b = 0xff then
      if rest.length < 8 then none else some (BitVec.ofNat 64 (leValue (rest.take 8)), 9)
    else some (BitVec.ofNat 64 b.toNat, 1)

/-- The bytes left, `*max`. -/
def Cursor.max (c : Cursor) : Nat := (c.getD []).length

/-- `pull_varint`. -/
def pullVarint : Pull (BitVec 64) := do
  match varintGet ((← get).getD []) with
  | none =>
    set (none : Cursor)
    pure 0
  | some (v, len) =>
    let _ ← pull len
    pure v

/-- `pull_length`: a count of items of `mult` bytes each, or 0 and a `NULL` cursor when
`v * mult` exceeds the bytes left in 64 bits. -/
def pullLength (mult : Nat) : Pull (BitVec 64) := do
  let v ← pullVarint
  let max := (← get).max
  if v * BitVec.ofNat 64 mult > BitVec.ofNat 64 max then
    set (none : Cursor)
    pure 0
  else pure v

/-- `pull_input`. A script length of 0 leaves the script `NULL`; the witness is read later. -/
def pullInput : Pull TxInput := do
  let txid ← pull 32
  let index ← pullLe32
  let scriptLen ← pullLength 1
  let script ← pull scriptLen.toNat
  let sequenceNumber ← pullLe32
  pure ⟨txid, index, if scriptLen = 0 then none else some script.bytes, sequenceNumber, none⟩

/-- `pull_output`. -/
def pullOutput : Pull TxOutput := do
  let amount ← pullLe64
  let scriptLen ← pullLength 1
  let script ← pull scriptLen.toNat
  pure ⟨amount, script.bytes⟩

/-- `pull_witness_item`. -/
def pullWitnessItem : Pull (List UInt8) := do
  let len ← pullLength 1
  let item ← pull len.toNat
  pure item.bytes

/-- Reading `k` items one after the other: the loops of `pull_bitcoin_tx` over the array it
allocated. -/
def pullMany {α : Type} (p : Pull α) : Nat → Pull (List α)
  | 0 => pure []
  | k + 1 => do
    let a ← p
    let as ← pullMany p k
    pure (a :: as)

/-- `pull_witness`: a count of 0 means no witness. -/
def pullWitness : Pull (Option (List (List UInt8))) := do
  let num ← pullLength 1
  if num = 0 then pure none
  else
    let items ← pullMany pullWitnessItem num.toNat
    pure (some items)

/-- `pull_bitcoin_tx` once the layout is known: the inputs, the outputs, the witnesses when
the flag is set, and the lock time; `NULL` if a read ran short. -/
def pullTxBody (version : BitVec 32) (count : BitVec 64) (segwit : Bool) :
    Pull (Option BitcoinTx) := do
  let inputs ← pullMany pullInput count.toNat
  let outCount ← pullLength 9
  let outputs ← pullMany pullOutput outCount.toNat
  let witnesses ← if segwit then pullMany pullWitness inputs.length
    else pure (inputs.map fun _ => none)
  let lockTime ← pullLe32
  if (← get).isNone then pure none
  else
    let input := List.zipWith (fun i w => { i with witness := w }) inputs witnesses
    pure (some ⟨version, input, outputs, lockTime⟩)

/-- `pull_bitcoin_tx`. An input count of 0 is the BIP144 marker, which must be followed by
the flag `1` and the real count. -/
def pullBitcoinTx : Pull (Option BitcoinTx) := do
  let version ← pullLe32
  let count ← pullLength (32 + 4 + 4 + 1)
  if count = 0 then
    let flag ← pull 1
    if flag.bytes ≠ [1] then pure none
    else
      let count ← pullLength (32 + 4 + 4 + 1)
      pullTxBody version count true
  else pullTxBody version count false

/-! ## Reading what was written -/

section Append

variable (rest : List UInt8)

theorem pull_append {n : Nat} (l : List UInt8) (hl : l.length = n) :
    (pull n).run (some (l ++ rest)) = some (⟨l, hl⟩, some rest) := by
  subst hl
  simp [pull, StateT.run]

theorem pull_one_cons (b : UInt8) : (pull 1).run (some (b :: rest)) = some (⟨[b], rfl⟩, some rest) :=
  pull_append rest [b] rfl

/-- A stored `w`-bit number reads back as itself. -/
theorem ofNat_leValue_leFixed {w k : Nat} (hk : w ≤ 8 * k) (v : BitVec w) :
    BitVec.ofNat w (leValue (leFixed k v.toNat)) = v := by
  have hpow : 2 ^ w ≤ 256 ^ k := by
    rw [show (256 : Nat) = 2 ^ 8 by rfl, ← Nat.pow_mul]
    exact Nat.pow_le_pow_right (by decide) hk
  rw [leValue_leFixed, Nat.mod_eq_of_lt (lt_of_lt_of_le v.isLt hpow)]
  exact BitVec.ofNat_toNat w v |>.trans (BitVec.setWidth_eq v)

@[simp] theorem pullLe32_append (v : BitVec 32) :
    pullLe32.run (some (pushLe32 v ++ rest)) = some (v, some rest) := by
  simp [pullLe32, pushLe32, pull_append rest _ (length_leFixed 4 v.toNat),
    ofNat_leValue_leFixed (by decide : 32 ≤ 8 * 4)]

@[simp] theorem pullLe64_append (v : BitVec 64) :
    pullLe64.run (some (pushLe64 v ++ rest)) = some (v, some rest) := by
  simp [pullLe64, pushLe64, pull_append rest _ (length_leFixed 8 v.toNat),
    ofNat_leValue_leFixed (by decide : 64 ≤ 8 * 8)]

/-- After a marker, `varint_get` reads the `k` bytes that follow. -/
theorem varintGet_marker {m : UInt8} {k len : Nat} {v : BitVec 64}
    (hget : ∀ l : List UInt8, k ≤ l.length →
      varintGet (m :: l) = some (BitVec.ofNat 64 (leValue (l.take k)), len))
    (hv : v.toNat < 256 ^ k) :
    varintGet (m :: (leFixed k v.toNat ++ rest)) = some (v, len) := by
  rw [hget _ (by simp), List.take_left' (length_leFixed k _), leValue_leFixed,
    Nat.mod_eq_of_lt hv, BitVec.ofNat_toNat, BitVec.setWidth_eq]

/-- `varint_get` reads back what `varint_put` wrote, in as many bytes. -/
theorem varintGet_varintPut (v : BitVec 64) :
    varintGet (varintPut v ++ rest) = some (v, (varintPut v).length) := by
  have hv := v.isLt
  unfold varintPut
  split_ifs with h₁ h₂ h₃ <;>
    simp only [BitVec.lt_def, BitVec.le_def, BitVec.ofNat_eq_ofNat, BitVec.toNat_ofNat,
      Nat.reducePow, Nat.reduceMod] at *
  · -- one byte: not a marker
    have hb : (v.toNat.toUInt8).toNat = v.toNat := by simp; omega
    have hne : ∀ m : UInt8, m.toNat ≠ v.toNat → v.toNat.toUInt8 ≠ m := by
      intro m hm h
      rw [← h, hb] at hm
      exact hm rfl
    simp only [List.cons_append, varintGet, hne 0xfd (by simp; omega), hne 0xfe (by simp; omega),
      hne 0xff (by simp; omega), if_false, hb, BitVec.ofNat_toNat, BitVec.setWidth_eq,
      List.length_singleton]
  · exact varintGet_marker rest (fun l hl => by simp [varintGet]; omega) (by simp; omega)
  · exact varintGet_marker rest (fun l hl => by simp [varintGet]; omega) (by simp; omega)
  · exact varintGet_marker rest (fun l hl => by simp [varintGet]; omega) (by simpa using hv)

@[simp] theorem pullVarint_append (v : BitVec 64) :
    pullVarint.run (some (varintPut v ++ rest)) = some (v, some rest) := by
  simp [pullVarint, varintGet_varintPut, pull_append rest _ rfl]

/-- The guard of `pull_length` passes a count whose items fit in the bytes left. -/
theorem not_count_gt {v : BitVec 64} {mult max : Nat} (hv : v.toNat * mult ≤ max)
    (hmax : max < 2 ^ 64) : ¬ v * BitVec.ofNat 64 mult > BitVec.ofNat 64 max := by
  simp only [gt_iff_lt, BitVec.lt_def, BitVec.toNat_mul, BitVec.toNat_ofNat, not_lt]
  rw [Nat.mod_eq_of_lt hmax]
  rcases Nat.eq_zero_or_pos v.toNat with h0 | hpos
  · simp [h0]
  · have hm : mult ≤ max := le_trans (Nat.le_mul_of_pos_left mult hpos) hv
    rw [Nat.mod_eq_of_lt (by omega : mult < 2 ^ 64), Nat.mod_eq_of_lt (by omega)]
    exact hv

/-- `pull_length` reads a count whose items fit in the bytes left. -/
theorem pullLength_append {mult : Nat} (v : BitVec 64) (hv : v.toNat * mult ≤ rest.length)
    (hrest : rest.length < 2 ^ 64) :
    (pullLength mult).run (some (varintPut v ++ rest)) = some (v, some rest) := by
  simp [pullLength, Cursor.max, not_count_gt hv hrest]

/-- A length below `2^64` is its own `size_t`. -/
theorem toNat_ofNat_length {l : List UInt8} (h : l.length < 2 ^ 64) :
    (BitVec.ofNat 64 l.length).toNat = l.length := by
  rw [BitVec.toNat_ofNat, Nat.mod_eq_of_lt h]

/-- What is written first is shorter than everything written. -/
theorem length_lt_of_append {l : List UInt8} (h : (l ++ rest).length < 2 ^ 64) :
    l.length < 2 ^ 64 := by
  rw [List.length_append] at h
  omega

/-- The length of a blob reads back as a count that the blob's bytes back. -/
theorem pullLength_blob (l : List UInt8) (hsize : (l ++ rest).length < 2 ^ 64) :
    (pullLength 1).run (some (pushVarintBlob l ++ rest)) =
      some (BitVec.ofNat 64 l.length, some (l ++ rest)) := by
  have hlen := toNat_ofNat_length (length_lt_of_append rest hsize)
  rw [pushVarintBlob, List.append_assoc]
  exact pullLength_append _ _ (by rw [hlen, Nat.mul_one]; simp) hsize

/-- A blob of `size_t` length is empty exactly when its length is 0. -/
theorem ofNat_length_eq_zero {l : List UInt8} (h : l.length < 2 ^ 64) :
    BitVec.ofNat 64 l.length = 0 ↔ l = [] := by
  constructor
  · intro h0
    have := congrArg BitVec.toNat h0
    rw [toNat_ofNat_length h] at this
    exact List.length_eq_zero_iff.1 this
  · rintro rfl
    rfl

/-- `pull_input` reads back an input whose script is `NULL` or not empty; it leaves the
witness `NULL`. -/
theorem pullInput_append (input : TxInput) (hs : input.script ≠ some [])
    (hsize : (pushTxInput input ++ rest).length < 2 ^ 64) :
    pullInput.run (some (pushTxInput input ++ rest)) =
      some ({ input with witness := none }, some rest) := by
  obtain ⟨txid, index, script, seq, wit⟩ := input
  have hsize' : (script.getD [] ++ (pushLe32 seq ++ rest)).length < 2 ^ 64 := by
    simp only [pushTxInput, pushVarintBlob, List.length_append] at hsize ⊢
    omega
  have hl := length_lt_of_append _ hsize'
  have hlen := toNat_ofNat_length hl
  simp only [pushTxInput, List.append_assoc]
  simp only [pullInput, StateT.run_bind, pull_append _ _ txid.length_eq, pullLe32_append,
    pullLength_blob _ _ hsize', pull_append _ _ hlen.symm, Option.bind_eq_bind, Option.bind_some,
    StateT.run_pure,
    ofNat_length_eq_zero hl]
  -- the script comes back `NULL` exactly when it was
  cases script with
  | none => rfl
  | some s =>
    have hne : s ≠ [] := fun h => hs (by rw [h])
    simp [hne]

/-- `pull_output` reads back an output. -/
theorem pullOutput_append (output : TxOutput)
    (hsize : (pushTxOutput output ++ rest).length < 2 ^ 64) :
    pullOutput.run (some (pushTxOutput output ++ rest)) = some (output, some rest) := by
  obtain ⟨amount, script⟩ := output
  have hsize' : (script ++ rest).length < 2 ^ 64 := by
    simp only [pushTxOutput, pushVarintBlob, List.length_append] at hsize ⊢
    omega
  have hlen := toNat_ofNat_length (length_lt_of_append _ hsize')
  simp only [pushTxOutput, List.append_assoc]
  simp only [pullOutput, StateT.run_bind, pullLe64_append, pullLength_blob _ _ hsize',
    pull_append _ _ hlen.symm, Option.bind_eq_bind, Option.bind_some, StateT.run_pure,
    Option.pure_def]

/-- `pull_witness_item` reads back a stack item. -/
theorem pullWitnessItem_append (item : List UInt8)
    (hsize : (pushVarintBlob item ++ rest).length < 2 ^ 64) :
    pullWitnessItem.run (some (pushVarintBlob item ++ rest)) = some (item, some rest) := by
  have hsize' : (item ++ rest).length < 2 ^ 64 := by
    simp only [pushVarintBlob, List.length_append] at hsize ⊢
    omega
  have hlen := toNat_ofNat_length (length_lt_of_append _ hsize')
  simp only [pullWitnessItem, StateT.run_bind, pullLength_blob _ _ hsize',
    pull_append _ _ hlen.symm, Option.bind_eq_bind, Option.bind_some, StateT.run_pure,
    Option.pure_def]

end Append

/-- `449920587163647601 * 41` is `2^64 + 25` and `2049638230412172402 * 9` is `2^64 + 2`:
with 25 and 2 bytes left, `pull_length` returns these counts of inputs and outputs, which
the bytes left cannot back; `pull_bitcoin_tx` then goes on to read that many inputs. -/
theorem pullLength_wraps :
    (pullLength 41).run (some (varintPut 449920587163647601 ++ List.replicate 25 0)) =
        some (449920587163647601, some (List.replicate 25 0)) ∧
      25 < 449920587163647601 * 41 ∧
    (pullLength 9).run (some (varintPut 2049638230412172402 ++ List.replicate 2 0)) =
        some (2049638230412172402, some (List.replicate 2 0)) ∧
      2 < 2049638230412172402 * 9 ∧
    pullBitcoinTx.run (some (pushLe32 0 ++ varintPut 449920587163647601 ++ List.replicate 25 0)) =
      (pullTxBody 0 449920587163647601 false).run (some (List.replicate 25 0)) := by
  have h41 : (pullLength 41).run (some (varintPut 449920587163647601 ++ List.replicate 25 0)) =
      some (449920587163647601, some (List.replicate 25 0)) := by
    decide
  refine ⟨h41, by decide, by decide, by decide, ?_⟩
  have hne : (449920587163647601 : BitVec 64) ≠ 0 := by decide
  simp only [List.append_assoc, pullBitcoinTx, StateT.run_bind, pullLe32_append,
    Option.bind_eq_bind, Option.bind_some, Nat.reduceAdd, h41, hne, if_false]

/-- Items of at least `k` bytes each take at least `k` bytes per item. -/
theorem mul_le_length_flatMap {β : Type} {enc : β → List UInt8} {k : Nat}
    (h : ∀ x, k ≤ (enc x).length) (xs : List β) : xs.length * k ≤ (xs.flatMap enc).length := by
  induction xs with
  | nil => simp
  | cons x xs ih =>
    simp only [List.length_cons, List.flatMap_cons, List.length_append, Nat.succ_mul]
    have := h x
    omega

/-- Reading `xs.length` items back from their writings, one after the other, when each
reader reads back its own item: the loops of `pull_bitcoin_tx`. -/
theorem pullMany_flatMap {α β : Type} {p : Pull α} {enc : β → List UInt8} {f : β → α}
    {P : β → Prop}
    (hp : ∀ x, P x → ∀ r : List UInt8, (enc x ++ r).length < 2 ^ 64 →
      p.run (some (enc x ++ r)) = some (f x, some r))
    (xs : List β) (hxs : ∀ x ∈ xs, P x) (rest : List UInt8)
    (hsize : (xs.flatMap enc ++ rest).length < 2 ^ 64) :
    (pullMany p xs.length).run (some (xs.flatMap enc ++ rest)) = some (xs.map f, some rest) := by
  induction xs with
  | nil => rfl
  | cons x xs ih =>
    have hsize' : (xs.flatMap enc ++ rest).length < 2 ^ 64 := by
      simp only [List.flatMap_cons, List.length_append] at hsize ⊢
      omega
    have hx : p.run (some (enc x ++ (xs.flatMap enc ++ rest))) = some (f x, some (xs.flatMap enc ++ rest)) :=
      hp x (hxs x (List.mem_cons_self ..)) _ (by simpa [List.append_assoc] using hsize)
    simp only [List.length_cons, pullMany, List.flatMap_cons, List.append_assoc, StateT.run_bind,
      hx, Option.bind_eq_bind, Option.bind_some,
      ih (fun y hy => hxs y (List.mem_cons_of_mem _ hy)) hsize', StateT.run_pure, List.map_cons,
      Option.pure_def]

section Witness

variable (rest : List UInt8)

/-- A blob takes a byte at least. -/
theorem length_pushVarintBlob_pos (l : List UInt8) : 1 ≤ (pushVarintBlob l).length := by
  have := length_varintPut_pos (BitVec.ofNat 64 l.length)
  simp only [pushVarintBlob, List.length_append]
  omega

/-- `pull_witness` reads back a witness that is `NULL` or has an item. -/
theorem pullWitness_append (w : Option (List (List UInt8))) (hw : w ≠ some [])
    (hsize : (pushWitness w ++ rest).length < 2 ^ 64) :
    pullWitness.run (some (pushWitness w ++ rest)) = some (w, some rest) := by
  cases w with
  | none =>
    have hrest : rest.length < 2 ^ 64 := by
      simp only [List.length_append] at hsize
      omega
    simp only [pushWitness, pullWitness, StateT.run_bind, pullLength_append rest 0 (by simp) hrest,
      Option.bind_eq_bind, Option.bind_some, if_true, StateT.run_pure, Option.pure_def]
  | some items =>
    have hne : items ≠ [] := fun h => hw (by rw [h])
    have hsize' : (items.flatMap pushVarintBlob ++ rest).length < 2 ^ 64 := by
      simp only [pushWitness, List.length_append] at hsize ⊢
      omega
    have hk := mul_le_length_flatMap length_pushVarintBlob_pos items
    have hlen : items.length < 2 ^ 64 := by
      simp only [List.length_append] at hsize'
      omega
    have hcount : (BitVec.ofNat 64 items.length).toNat * 1 ≤
        (items.flatMap pushVarintBlob ++ rest).length := by
      rw [BitVec.toNat_ofNat, Nat.mod_eq_of_lt hlen, List.length_append]
      omega
    have hzero : BitVec.ofNat 64 items.length ≠ 0 := by
      intro h0
      have := congrArg BitVec.toNat h0
      rw [BitVec.toNat_ofNat, Nat.mod_eq_of_lt hlen] at this
      exact hne (List.length_eq_zero_iff.1 this)
    have hitems := pullMany_flatMap (P := fun _ => True) (fun item _ r hr =>
      pullWitnessItem_append r item hr) items (fun _ _ => trivial) rest hsize'
    simp only [pushWitness, List.append_assoc, pullWitness, StateT.run_bind,
      pullLength_append _ _ hcount hsize', Option.bind_eq_bind, Option.bind_some, hzero,
      if_false, BitVec.toNat_ofNat, Nat.mod_eq_of_lt hlen, hitems, List.map_id']
    rfl

end Witness


/-! ## The whole transaction -/

/-- Writing the witnesses back into inputs read without them gives the inputs. -/
theorem zipWith_witness (l : List TxInput) :
    List.zipWith (fun i w => { i with witness := w }) (l.map fun i => { i with witness := none })
      (l.map (·.witness)) = l := by
  induction l with
  | nil => rfl
  | cons i l ih => simp only [List.map_cons, List.zipWith_cons_cons, ih]

/-- The inputs of a transaction below `2^64` bytes are fewer than `2^64`. -/
theorem length_input_lt {tx : BitcoinTx} {rest : List UInt8}
    (hsize : (tx.input.flatMap pushTxInput ++ rest).length < 2 ^ 64) : tx.input.length < 2 ^ 64 := by
  have := mul_le_length_flatMap length_pushTxInput tx.input
  rw [List.length_append] at hsize
  omega

/-- The reads after the input count give back the inputs, the outputs, the witnesses when
the flag says so, and the lock time, with no byte left. -/
theorem pullTxBody_append (tx : BitcoinTx) (segwit : Bool)
    (hs : ∀ i ∈ tx.input, i.script ≠ some [])
    (hw : ∀ i ∈ tx.input, if segwit then i.witness ≠ some [] else i.witness = none)
    (hsize : (tx.input.flatMap pushTxInput ++ (varintPut (BitVec.ofNat 64 tx.output.length) ++
      (tx.output.flatMap pushTxOutput ++ ((if segwit then pushWitnesses tx else []) ++
        pushLe32 tx.lockTime)))).length < 2 ^ 64) :
    (pullTxBody tx.version (BitVec.ofNat 64 tx.input.length) segwit).run
      (some (tx.input.flatMap pushTxInput ++ (varintPut (BitVec.ofNat 64 tx.output.length) ++
        (tx.output.flatMap pushTxOutput ++ ((if segwit then pushWitnesses tx else []) ++
          pushLe32 tx.lockTime))))) = some (some tx, some []) := by
  have hin := length_input_lt hsize
  -- the bytes after the inputs, and after the outputs
  set afterOutputs := (if segwit then pushWitnesses tx else []) ++ pushLe32 tx.lockTime
  set afterInputs := varintPut (BitVec.ofNat 64 tx.output.length) ++
    (tx.output.flatMap pushTxOutput ++ afterOutputs)
  have hsizeIn : afterInputs.length < 2 ^ 64 := by
    rw [List.length_append] at hsize
    omega
  have hsizeOut : (tx.output.flatMap pushTxOutput ++ afterOutputs).length < 2 ^ 64 := by
    simp only [afterInputs, List.length_append] at hsizeIn ⊢
    omega
  have hout : tx.output.length < 2 ^ 64 := by
    have := mul_le_length_flatMap length_pushTxOutput tx.output
    rw [List.length_append] at hsizeOut
    omega
  have hcountOut : (BitVec.ofNat 64 tx.output.length).toNat * 9 ≤
      (tx.output.flatMap pushTxOutput ++ afterOutputs).length := by
    have := mul_le_length_flatMap length_pushTxOutput tx.output
    rw [BitVec.toNat_ofNat, Nat.mod_eq_of_lt hout, List.length_append]
    omega
  have hinputs := pullMany_flatMap (P := fun i => i.script ≠ some [])
    (fun i hi r hr => pullInput_append r i hi hr) tx.input hs afterInputs hsize
  have houtputs := pullMany_flatMap (P := fun _ => True)
    (fun o _ r hr => pullOutput_append r o hr) tx.output (fun _ _ => trivial) afterOutputs hsizeOut
  have hlock : pullLe32.run (some (pushLe32 tx.lockTime)) = some (tx.lockTime, some []) := by
    simpa using pullLe32_append [] tx.lockTime
  simp only [pullTxBody, StateT.run_bind, BitVec.toNat_ofNat, Nat.mod_eq_of_lt hin,
    Nat.mod_eq_of_lt hout, hinputs, Option.bind_eq_bind, Option.bind_some, afterInputs,
    pullLength_append _ _ hcountOut hsizeOut, houtputs, afterOutputs]
  cases segwit with
  | false =>
    -- no witness is read, and none was written
    have hnone : (tx.input.map fun i => ({ i with witness := none } : TxInput)).map
        (fun _ => (none : Option (List (List UInt8)))) = tx.input.map (·.witness) := by
      rw [List.map_map]
      exact List.map_congr_left fun i hi => by simpa using (hw i hi).symm
    simp only [Bool.false_eq_true, if_false, List.nil_append, StateT.run_bind, StateT.run_pure,
      Option.pure_def, Option.bind_eq_bind, Option.bind_some, hlock, StateT.run_get,
      Option.isNone_some, hnone, zipWith_witness, List.map_id']
  | true =>
    have hsizeWit : (pushWitnesses tx ++ pushLe32 tx.lockTime).length < 2 ^ 64 := by
      simp only [afterOutputs, if_true, List.length_append] at hsizeOut ⊢
      omega
    have hwit : (pullMany pullWitness tx.input.length).run (some (pushWitnesses tx ++ pushLe32 tx.lockTime)) =
        some (tx.input.map (·.witness), some (pushLe32 tx.lockTime)) :=
      pullMany_flatMap (P := fun i => i.witness ≠ some [])
        (fun i hi r hr => pullWitness_append r i.witness hi hr) tx.input
        (fun i hi => by simpa using hw i hi) _ hsizeWit
    simp only [if_true, List.length_map, StateT.run_bind, hwit,
      Option.pure_def, Option.bind_eq_bind, Option.bind_some, hlock, StateT.run_get,
      Option.isNone_some, zipWith_witness, List.map_id']
    rfl

/-- `pull_bitcoin_tx` reads back what `linearize_tx` writes, to the last byte, for every
transaction with an input, whose scripts and witnesses are `NULL` or not empty, and whose
serialization has a `size_t` length; and `measure_tx_weight` is three times the legacy
length plus the serialized length. -/
theorem pullBitcoinTx_linearizeTx (tx : BitcoinTx) (hin : tx.input ≠ [])
    (hs : ∀ i ∈ tx.input, i.script ≠ some []) (hw : ∀ i ∈ tx.input, i.witness ≠ some [])
    (hsize : (linearizeTx tx).length < 2 ^ 64) :
    pullBitcoinTx.run (some (linearizeTx tx)) = some (some tx, some []) ∧
      measureTxWeight tx =
        BitVec.ofNat 64 (3 * (pushTx tx false).length + (linearizeTx tx).length) := by
  refine ⟨?_, measureTxWeight_eq tx⟩
  obtain ⟨segwit, hseg⟩ : ∃ segwit, usesWitness tx = segwit := ⟨_, rfl⟩
  -- the bytes after the input count
  set body := tx.input.flatMap pushTxInput ++ (varintPut (BitVec.ofNat 64 tx.output.length) ++
    (tx.output.flatMap pushTxOutput ++ ((if segwit then pushWitnesses tx else []) ++
      pushLe32 tx.lockTime)))
  have hbytes : linearizeTx tx = pushLe32 tx.version ++ ((if segwit then [0, 1] else []) ++
      (varintPut (BitVec.ofNat 64 tx.input.length) ++ body)) := by
    simp only [linearizeTx, pushTx, Bool.true_and, hseg, body, List.append_assoc]
  rw [hbytes] at hsize ⊢
  have hbody : body.length < 2 ^ 64 := by
    simp only [List.length_append] at hsize
    omega
  have hn := length_input_lt hbody
  have hcount : (BitVec.ofNat 64 tx.input.length).toNat * (32 + 4 + 4 + 1) ≤ body.length := by
    have := mul_le_length_flatMap length_pushTxInput tx.input
    rw [BitVec.toNat_ofNat, Nat.mod_eq_of_lt hn]
    simp only [body, List.length_append] at this ⊢
    omega
  have hne : BitVec.ofNat 64 tx.input.length ≠ 0 := by
    intro h0
    have := congrArg BitVec.toNat h0
    rw [BitVec.toNat_ofNat, Nat.mod_eq_of_lt hn] at this
    exact hin (List.length_eq_zero_iff.1 this)
  cases segwit with
  | false =>
    -- the legacy layout: the count is not the marker
    have hnone : ∀ i ∈ tx.input, i.witness = none := by
      intro i hi
      simpa using List.any_eq_false.1 hseg i hi
    simp only [if_false, Bool.false_eq_true, List.nil_append, pullBitcoinTx, StateT.run_bind,
      pullLe32_append, Option.bind_eq_bind, Option.bind_some, pullLength_append _ _ hcount hbody,
      hne]
    exact pullTxBody_append tx false hs (fun i hi => by simpa using hnone i hi) hbody
  | true =>
    -- the BIP144 layout: the marker reads as a count of 0, then the flag and the count
    have hmarker : ([0, 1] : List UInt8) ++ (varintPut (BitVec.ofNat 64 tx.input.length) ++ body) =
        varintPut 0 ++ (1 :: (varintPut (BitVec.ofNat 64 tx.input.length) ++ body)) := rfl
    have hrest : (1 :: (varintPut (BitVec.ofNat 64 tx.input.length) ++ body)).length < 2 ^ 64 := by
      simp only [if_true, List.length_append, List.length_cons, List.length_nil] at hsize ⊢
      omega
    simp only [if_true, hmarker, pullBitcoinTx, StateT.run_bind, pullLe32_append,
      Option.bind_eq_bind, Option.bind_some, pullLength_append _ 0 (by simp) hrest,
      pull_one_cons, ne_eq, not_true_eq_false, if_false, pullLength_append _ _ hcount hbody]
    exact pullTxBody_append tx true hs (fun i hi => by simpa using hw i hi) hbody

/-- A version 2 transaction spending one output with a witness of one item, paying 1000
satoshi to a two-byte script. -/
def witnessTx : BitcoinTx :=
  ⟨2, [⟨zeroTxid, 0, none, 0xFFFFFFFF, some [[1, 2]]⟩], [⟨1000, [0, 20]⟩], 0⟩

theorem pullBitcoinTx_linearizeTx_witnessTx :
    witnessTx.input ≠ [] ∧ (∀ i ∈ witnessTx.input, i.script ≠ some []) ∧
      (∀ i ∈ witnessTx.input, i.witness ≠ some []) ∧ (linearizeTx witnessTx).length < 2 ^ 64 ∧
      pullBitcoinTx.run (some (linearizeTx witnessTx)) = some (some witnessTx, some []) ∧
      measureTxWeight witnessTx = BitVec.ofNat 64
        (3 * (pushTx witnessTx false).length + (linearizeTx witnessTx).length) :=
  have hin : witnessTx.input ≠ [] := by decide
  have hs : ∀ i ∈ witnessTx.input, i.script ≠ some [] := by decide
  have hw : ∀ i ∈ witnessTx.input, i.witness ≠ some [] := by decide
  have hsize : (linearizeTx witnessTx).length < 2 ^ 64 := by decide
  ⟨hin, hs, hw, hsize, pullBitcoinTx_linearizeTx witnessTx hin hs hw hsize⟩

end Dexfin.Lightning
