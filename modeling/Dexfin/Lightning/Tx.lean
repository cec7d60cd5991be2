import Dexfin.Lib.Bytes
import Mathlib.Algebra.Group.Nat.Defs

/-!
# Transactions and their serialization

`struct bitcoin_tx` of `src/lightning/bitcoin/tx.h` and the writer of `bitcoin/tx.c`. The
`push_*` functions hand bytes to a callback; here they return the bytes, and the callbacks
that count (`push_measure`) take their length. A `NULL` input script or witness is `none`;
an output script and a witness item are read only through `tal_count`, for which `NULL` is
the empty array.

`push_tx` writes the legacy layout, or with `bip144` and a witness on some input the BIP144
layout: a zero marker and the flag `1` after the version, and the witnesses before the lock
time. The weight counts the legacy bytes four times and the witness bytes, marker and flag
included, once (`measureTxWeight_eq`).
-/

namespace Dexfin.Lightning

open Bytes

/-- `struct bitcoin_txid`: a double SHA256, in memory order. -/
abbrev Txid := Fixed 32

/-- The fields of `struct bitcoin_tx_input` that the transaction functions read. -/
structure TxInput where
  /-- `txid`. -/
  txid : Txid
  /-- `index`: the output spent. -/
  index : BitVec 32
  /-- `script`, or `none` for `NULL`. -/
  script : Option (List UInt8)
  /-- `sequence_number`. -/
  sequenceNumber : BitVec 32
  /-- `witness`: the stack items, or `none` for `NULL`. -/
  witness : Option (List (List UInt8))
  deriving DecidableEq, Repr

/-- `struct bitcoin_tx_output`. -/
structure TxOutput where
  /-- `amount`, in satoshi. -/
  amount : BitVec 64
  /-- `script`. -/
  script : List UInt8
  deriving DecidableEq, Repr

/-- `struct bitcoin_tx`. -/
structure BitcoinTx where
  /-- `version`. -/
  version : BitVec 32
  /-- `input`. -/
  input : List TxInput
  /-- `output`. -/
  output : List TxOutput
  /-- `lock_time`. -/
  lockTime : BitVec 32
  deriving DecidableEq, Repr

/-- The all-zero transaction id that `tal_arrz` leaves. -/
def zeroTxid : Txid := ⟨List.replicate 32 0, List.length_replicate⟩

/-- `bitcoin_tx`: version 2, no lock time, zeroed outputs, and inputs with the final
sequence number and no script or witness. -/
def bitcoinTx (inputCount outputCount : Nat) : BitcoinTx where
  version := 2
  input := List.replicate inputCount ⟨zeroTxid, 0, none, 0xFFFFFFFF, none⟩
  output := List.replicate outputCount ⟨0, []⟩
  lockTime := 0

/-! ## Writing -/

/-- `varint_put`: one byte below `0xfd`, else a marker and two, four or eight bytes. -/
def varintPut (v : BitVec 64) : List UInt8 :=
  if v < 0xfd then [v.toNat.toUInt8]
  else if v ≤ 0xffff then 0xfd :: leFixed 2 v.toNat
  else if v ≤ 0xffffffff then 0xfe :: leFixed 4 v.toNat
  else 0xff :: leFixed 8 v.toNat

/-- `push_le32`. -/
def pushLe32 (v : BitVec 32) : List UInt8 := leFixed 4 v.toNat

/-- `push_le64`. -/
def pushLe64 (v : BitVec 64) : List UInt8 := leFixed 8 v.toNat

/-- `push_varint_blob`: the length as a varint, then the bytes. -/
def pushVarintBlob (blob : List UInt8) : List UInt8 :=
  varintPut (BitVec.ofNat 64 blob.length) ++ blob

/-- `push_tx_input`. -/
def pushTxInput (input : TxInput) : List UInt8 :=
  input.txid.bytes ++ pushLe32 input.index ++ pushVarintBlob (input.script.getD []) ++
    pushLe32 input.sequenceNumber

/-- `push_tx_output`. -/
def pushTxOutput (output : TxOutput) : List UInt8 :=
  pushLe64 output.amount ++ pushVarintBlob output.script

/-- `uses_witness`: some input has a witness. -/
def usesWitness (tx : BitcoinTx) : Bool :=
  tx.input.any fun input => input.witness.isSome

/-- The witness field of one input in `push_witnesses`: the number of items and each item,
or a zero count for an input without a witness. -/
def pushWitness (witness : Option (List (List UInt8))) : List UInt8 :=
  match witness with
  | none => varintPut 0
  | some items => varintPut (BitVec.ofNat 64 items.length) ++ items.flatMap pushVarintBlob

/-- `push_witnesses`. -/
def pushWitnesses (tx : BitcoinTx) : List UInt8 :=
  tx.input.flatMap fun input => pushWitness input.witness

/-- `push_tx`. -/
def pushTx (tx : BitcoinTx) (bip144 : Bool) : List UInt8 :=
  let flag := bip144 && usesWitness tx
  pushLe32 tx.version ++ (if flag then [0, 1] else []) ++
    varintPut (BitVec.ofNat 64 tx.input.length) ++ tx.input.flatMap pushTxInput ++
    varintPut (BitVec.ofNat 64 tx.output.length) ++ tx.output.flatMap pushTxOutput ++
    (if flag then pushWitnesses tx else []) ++ pushLe32 tx.lockTime

/-- `linearize_tx`. -/
def linearizeTx (tx : BitcoinTx) : List UInt8 := pushTx tx true

/-- `measure_tx_weight`, in `size_t`. -/
def measureTxWeight (tx : BitcoinTx) : BitVec 64 :=
  let nonWitnessLen := BitVec.ofNat 64 (pushTx tx false).length
  let witnessLen : BitVec 64 :=
    if usesWitness tx then BitVec.ofNat 64 (pushWitnesses tx).length + 2 else 0
  nonWitnessLen * 4 + witnessLen

/-! ## Lengths -/

/-- A varint takes one, three, five or nine bytes. -/
theorem length_varintPut_pos (v : BitVec 64) : 1 ≤ (varintPut v).length := by
  unfold varintPut
  split_ifs <;> simp

/-- A serialized input takes at least 41 bytes: the outpoint, a script length and the
sequence number. -/
theorem length_pushTxInput (input : TxInput) : 41 ≤ (pushTxInput input).length := by
  have hv := length_varintPut_pos (BitVec.ofNat 64 (input.script.getD []).length)
  simp only [pushTxInput, pushVarintBlob, pushLe32, List.length_append, length_leFixed,
    input.txid.length_eq]
  omega

/-- A serialized output takes at least 9 bytes: the amount and a script length. -/
theorem length_pushTxOutput (output : TxOutput) : 9 ≤ (pushTxOutput output).length := by
  have hv := length_varintPut_pos (BitVec.ofNat 64 output.script.length)
  simp only [pushTxOutput, pushVarintBlob, pushLe64, List.length_append, length_leFixed]
  omega

/-- The BIP144 layout adds the marker, the flag and the witnesses to the legacy one. -/
theorem length_pushTx_true (tx : BitcoinTx) :
    (pushTx tx true).length = (pushTx tx false).length +
      if usesWitness tx then 2 + (pushWitnesses tx).length else 0 := by
  simp only [pushTx, Bool.true_and, Bool.false_and, Bool.false_eq_true, if_false,
    List.append_nil, List.length_append]
  split_ifs
  · simp only [List.length_cons, List.length_nil]
    omega
  · simp

/-- `measure_tx_weight` is three times the legacy length plus the serialized length, in
`size_t`. -/
theorem measureTxWeight_eq (tx : BitcoinTx) :
    measureTxWeight tx =
      BitVec.ofNat 64 (3 * (pushTx tx false).length + (linearizeTx tx).length) := by
  rw [measureTxWeight, linearizeTx, length_pushTx_true]
  apply BitVec.eq_of_toNat_eq
  split_ifs <;> simp only [BitVec.toNat_add, BitVec.toNat_mul, BitVec.toNat_ofNat,
    BitVec.ofNat_eq_ofNat] <;> omega

end Dexfin.Lightning
