import Dexfin.Lightning.Channel
import Dexfin.Lightning.Tx
import Dexfin.Lib.SelectSort
import Mathlib.Algebra.BigOperators.Ring.List
import Mathlib.Algebra.Order.BigOperators.Group.List

/-!
# Commitment transactions

`commit_tx` (`channeld/commit_tx.c`) and `initial_commit_tx` (`common/initial_commit_tx.c`)
build the transaction that spends the funding output to the two sides and to the HTLCs. The
funder pays the base fee with a floor of zero (`try_subtract_fee`); each HTLC that `trim`
keeps gets an output, offered ones first, and each side's amount an output when it reaches
the dust limit. `permute_outputs` then sorts the outputs into BIP69 order, moving the HTLC
map and the cltvs with them.

The scripts come from the keyset and are parameters here (`CommitScripts`), as are the hash
and the key encoding of `commit_number_obscurer`. `commit_tx` leaves the cltv of the two
non-HTLC outputs unassigned; it is a parameter too, and every result holds for every value.

The 48-bit commitment number goes, XORed with the obscurer, 24 bits into the lock time under
the marker `0x20` and 24 bits into the input's sequence number under `0x80`;
`unmask_commit_number` in `onchaind` puts the halves back together and removes the obscurer.
-/

namespace Dexfin.Lightning

open Bytes

/-! ## The outputs -/

/-- The scripts a commitment transaction pays to, for one keyset and `to_self_delay`. -/
structure CommitScripts where
  /-- `scriptpubkey_p2wsh(htlc_offered_wscript(ripemd160(rhash), keyset))`. -/
  offered : Sha256 → List UInt8
  /-- `scriptpubkey_p2wsh(htlc_received_wscript(ripemd160(rhash), &expiry, keyset))`. -/
  received : Sha256 → BitVec 32 → List UInt8
  /-- `scriptpubkey_p2wsh(to_self_wscript(to_self_delay, keyset))`. -/
  toLocal : List UInt8
  /-- `scriptpubkey_p2wpkh(&keyset->other_payment_key)`. -/
  toRemote : List UInt8

/-- `try_subtract_fee`: the funder's amount pays the fee if it can, and is set to zero if it
cannot; with whether it could. -/
def trySubtractFee (funder side : Side) (baseFeeMsat selfMsat otherMsat : BitVec 64) :
    Bool × BitVec 64 × BitVec 64 :=
  if funder = side then
    if selfMsat ≥ baseFeeMsat then (true, selfMsat - baseFeeMsat, otherMsat)
    else (false, 0, otherMsat)
  else
    if otherMsat ≥ baseFeeMsat then (true, selfMsat, otherMsat - baseFeeMsat)
    else (false, selfMsat, 0)

/-- `try_subtract_fee` takes from the two amounts and adds to neither. -/
theorem trySubtractFee_le {funder side : Side} {baseFeeMsat selfMsat otherMsat : BitVec 64}
    {paid : Bool} {selfPay otherPay : BitVec 64}
    (hfee : trySubtractFee funder side baseFeeMsat selfMsat otherMsat = (paid, selfPay, otherPay)) :
    selfPay.toNat + otherPay.toNat ≤ selfMsat.toNat + otherMsat.toNat := by
  unfold trySubtractFee at hfee
  split_ifs at hfee with hfunder hself hother <;> simp only [Prod.mk.injEq] at hfee <;>
    obtain ⟨-, rfl, rfl⟩ := hfee
  · rw [BitVec.toNat_sub_of_le hself]
    omega
  · simp
  · rw [BitVec.toNat_sub_of_le hother]
    omega
  · simp

/-- `add_offered_htlc_out`. -/
def addOfferedHtlcOut (scripts : CommitScripts) (htlc : Htlc) : TxOutput :=
  ⟨htlc.msatoshi / 1000, scripts.offered htlc.rhash⟩

/-- `add_received_htlc_out`. -/
def addReceivedHtlcOut (scripts : CommitScripts) (htlc : Htlc) : TxOutput :=
  ⟨htlc.msatoshi / 1000, scripts.received htlc.rhash htlc.expiry⟩

/-- The output an HTLC gets, offered or received. -/
def htlcOut (scripts : CommitScripts) (offered : Bool) (htlc : Htlc) : TxOutput :=
  if offered then addOfferedHtlcOut scripts htlc else addReceivedHtlcOut scripts htlc

/-- Both kinds of HTLC output pay the HTLC's amount in satoshi, rounded down. -/
@[simp] theorem htlcOut_amount (scripts : CommitScripts) (offered : Bool) (htlc : Htlc) :
    (htlcOut scripts offered htlc).amount = htlc.msatoshi / 1000 := by
  cases offered <;> rfl

/-- An output of `commit_tx` with its cltv and its entry in the HTLC map. -/
abbrev CommitOutput := TxOutput × BitVec 32 × Option Htlc

/-- One of the two HTLC loops of `commit_tx`: the HTLCs offered by `side` (`offered`) or
received by it, that are not trimmed, each with its expiry and itself in the map. `none` if
an expiry is not a block height, where `abs_locktime_to_blocks` asserts. -/
def htlcPass (scripts : CommitScripts) (feeratePerKw : BitVec 32) (dustLimitSatoshis : BitVec 64)
    (side : Side) (offered : Bool) : List Htlc → Option (List CommitOutput)
  | [] => some []
  | htlc :: htlcs =>
    if decide (htlc.owner = side) ≠ offered then
      htlcPass scripts feeratePerKw dustLimitSatoshis side offered htlcs
    else if trim htlc feeratePerKw dustLimitSatoshis side then
      htlcPass scripts feeratePerKw dustLimitSatoshis side offered htlcs
    else if htlc.expiry ≥ 500000000 then none
    else (htlcPass scripts feeratePerKw dustLimitSatoshis side offered htlcs).map
      ((htlcOut scripts offered htlc, htlc.expiry, some htlc) :: ·)

/-- The output paying `amount` msat to `script`, when it reaches the dust limit in satoshi. -/
def payOutput (amountMsat dustLimitSatoshis : BitVec 64) (script : List UInt8) (cltv : BitVec 32) :
    List CommitOutput :=
  if amountMsat / 1000 ≥ dustLimitSatoshis then [(⟨amountMsat / 1000, script⟩, cltv, none)] else []

/-! ## BIP69 order -/

/-- `output_better`: by amount, then script bytes, then script length, then cltv. -/
def outputBetter (a : TxOutput) (cltvA : BitVec 32) (b : TxOutput) (cltvB : BitVec 32) : Bool :=
  if a.amount ≠ b.amount then a.amount < b.amount
  else
    let lena := a.script.length
    let lenb := b.script.length
    match memcmp a.script b.script (min lena lenb) with
    | .lt => true
    | .gt => false
    | .eq => if lena ≠ lenb then lena < lenb else cltvA < cltvB

/-- `permute_outputs`, moving the cltvs and the map with the outputs. -/
def permuteOutputs (outputs : List CommitOutput) : List CommitOutput :=
  SelectSort.sort (fun a b => outputBetter a.1 a.2.1 b.1 b.2.1) outputs

/-- `permute_outputs` moves the outputs and never adds or drops one. -/
theorem permuteOutputs_perm (outputs : List CommitOutput) : (permuteOutputs outputs).Perm outputs :=
  SelectSort.sort_perm _ outputs

/-! ## The transaction -/

/-- The end of `commit_tx` and `initial_commit_tx`: the input spends the funding output,
and the lock time and its sequence number carry the obscured commitment number. -/
def setCommitNumber (tx : BitcoinTx) (fundingTxid : Txid) (fundingTxout : BitVec 32)
    (obscuredCommitmentNumber : BitVec 64) : BitcoinTx :=
  { tx with
    lockTime := (0x20000000 ||| (obscuredCommitmentNumber &&& 0xFFFFFF)).setWidth 32
    input := tx.input.modifyHead fun input =>
      { input with
        txid := fundingTxid
        index := fundingTxout
        sequenceNumber :=
          (0x80000000 ||| ((obscuredCommitmentNumber >>> 24) &&& 0xFFFFFF)).setWidth 32 } }

@[simp] theorem setCommitNumber_output (tx : BitcoinTx) (fundingTxid : Txid)
    (fundingTxout : BitVec 32) (obscuredCommitmentNumber : BitVec 64) :
    (setCommitNumber tx fundingTxid fundingTxout obscuredCommitmentNumber).output = tx.output := rfl

/-- `commit_tx`: the transaction and its HTLC map. `none` if an `assert` fails. -/
def commitTx (scripts : CommitScripts) (fundingTxid : Txid) (fundingTxout : BitVec 32)
    (fundingSatoshis : BitVec 64) (funder : Side) (feeratePerKw : BitVec 32)
    (dustLimitSatoshis selfPayMsat otherPayMsat : BitVec 64) (htlcs : List Htlc)
    (obscuredCommitmentNumber : BitVec 64) (side : Side) (unsetCltv : BitVec 32) :
    Option (BitcoinTx × List (Option Htlc)) :=
  if ¬ selfPayMsat + otherPayMsat ≤ fundingSatoshis * 1000 then none
  else
    let untrimmed := commitTxNumUntrimmed htlcs feeratePerKw dustLimitSatoshis side
    let baseFeeMsat := commitTxBaseFee feeratePerKw untrimmed * 1000
    let (_, selfPay, otherPay) := trySubtractFee funder side baseFeeMsat selfPayMsat otherPayMsat
    match htlcPass scripts feeratePerKw dustLimitSatoshis side true htlcs,
      htlcPass scripts feeratePerKw dustLimitSatoshis side false htlcs with
    | some offered, some received =>
      let outputs := permuteOutputs (offered ++ received ++
        payOutput selfPay dustLimitSatoshis scripts.toLocal unsetCltv ++
        payOutput otherPay dustLimitSatoshis scripts.toRemote unsetCltv)
      let tx := { bitcoinTx 1 (untrimmed.toNat + 2) with output := outputs.map (·.1) }
      some (setCommitNumber tx fundingTxid fundingTxout obscuredCommitmentNumber,
        outputs.map (·.2.2))
    | _, _ => none

/-- `initial_commit_tx`: `some none` when the funder cannot pay the fee, or when neither
amount exceeds the reserve; `none` if the `assert` fails. -/
def initialCommitTx (scripts : CommitScripts) (fundingTxid : Txid) (fundingTxout : BitVec 32)
    (fundingSatoshis : BitVec 64) (funder : Side) (feeratePerKw : BitVec 32)
    (dustLimitSatoshis selfPayMsat otherPayMsat selfReserveMsat : BitVec 64)
    (obscuredCommitmentNumber : BitVec 64) (side : Side) : Option (Option BitcoinTx) :=
  if ¬ selfPayMsat + otherPayMsat ≤ fundingSatoshis * 1000 then none
  else
    let baseFeeMsat := commitTxBaseFee feeratePerKw 0 * 1000
    let (paid, selfPay, otherPay) := trySubtractFee funder side baseFeeMsat selfPayMsat otherPayMsat
    if !paid then some none
    else if selfPay ≤ selfReserveMsat ∧ otherPay ≤ selfReserveMsat then some none
    else
      let outputs := permuteOutputs (payOutput selfPay dustLimitSatoshis scripts.toLocal 0 ++
        payOutput otherPay dustLimitSatoshis scripts.toRemote 0)
      let tx := { bitcoinTx 1 2 with output := outputs.map (·.1) }
      some (some (setCommitNumber tx fundingTxid fundingTxout obscuredCommitmentNumber))

/-! ## The commitment number -/

section Obscurer

variable {Pubkey : Type} (sha256 : List UInt8 → Fixed 32) (pubkeyToDer : Pubkey → Fixed 33)

/-- `commit_number_obscurer`: the lower 48 bits of the SHA256 of the two payment basepoints,
the opener's first. -/
def commitNumberObscurer (openerPaymentBasepoint accepterPaymentBasepoint : Pubkey) :
    BitVec 64 :=
  let sha := sha256 ((pubkeyToDer openerPaymentBasepoint).bytes ++
    (pubkeyToDer accepterPaymentBasepoint).bytes)
  BitVec.ofNat 64 (beValue ([0, 0] ++ sha.bytes.drop 26))

/-- `unmask_commit_number`: the lower halves of the lock time and of the first input's
sequence number, XORed with the obscurer of the funder's basepoint and the other's. `none`
for a transaction without inputs, whose sequence number the C code reads out of bounds. -/
def unmaskCommitNumber (tx : BitcoinTx) (funder : Side)
    (localPaymentBasepoint remotePaymentBasepoint : Pubkey) : Option (BitVec 64) :=
  let keys : Side → Pubkey := fun s => if s = .local then localPaymentBasepoint
    else remotePaymentBasepoint
  let obscurer := commitNumberObscurer sha256 pubkeyToDer (keys funder) (keys funder.other)
  match tx.input with
  | [] => none
  | input :: _ =>
    some (((tx.lockTime &&& 0x00FFFFFF).setWidth 64 |||
      (input.sequenceNumber.setWidth 64 &&& 0x00FFFFFF) <<< 24) ^^^ obscurer)

end Obscurer

/-! ## The halves of the commitment number -/

/-- `y &&& 0xFFFFFF` keeps the low 24 bits. -/
theorem toNat_and_lowMask {w : ℕ} (hw : 24 ≤ w) (y : BitVec w) :
    (y &&& 0xFFFFFF).toNat = y.toNat % 2 ^ 24 := by
  have hlt : 16777215 < 2 ^ w :=
    Nat.lt_of_lt_of_le (by decide : 16777215 < 2 ^ 24) (Nat.pow_le_pow_right (by decide) hw)
  rw [BitVec.toNat_and, BitVec.ofNat_eq_ofNat, BitVec.toNat_ofNat, Nat.mod_eq_of_lt hlt,
    show (16777215 : ℕ) = 2 ^ 24 - 1 by rfl, Nat.and_two_pow_sub_one_eq_mod]

/-- Bits above the low 24 add to them. -/
theorem or_high {a y : ℕ} (hy : y < 2 ^ 24) : 2 ^ 24 * a ||| y = 2 ^ 24 * a + y :=
  (Nat.two_pow_add_eq_or_of_lt hy a).symm

/-- The lock time holds the marker `0x20` over the low half. -/
theorem toNat_lockTime (x : BitVec 64) :
    ((0x20000000 ||| (x &&& 0xFFFFFF)).setWidth 32 : BitVec 32).toNat =
      2 ^ 29 + x.toNat % 2 ^ 24 := by
  rw [BitVec.toNat_setWidth, BitVec.toNat_or, toNat_and_lowMask (by decide),
    BitVec.ofNat_eq_ofNat, BitVec.toNat_ofNat, show 536870912 % 2 ^ 64 = 2 ^ 24 * 32 by rfl,
    or_high (Nat.mod_lt _ (by decide))]
  omega

/-- The sequence number holds the marker `0x80` over the high half of a 48-bit number. -/
theorem toNat_sequence (x : BitVec 64) (hx : x.toNat < 2 ^ 48) :
    ((0x80000000 ||| ((x >>> 24) &&& 0xFFFFFF)).setWidth 32 : BitVec 32).toNat =
      2 ^ 31 + x.toNat / 2 ^ 24 := by
  rw [BitVec.toNat_setWidth, BitVec.toNat_or, toNat_and_lowMask (by decide),
    BitVec.toNat_ushiftRight, Nat.shiftRight_eq_div_pow]
  simp only [BitVec.natCast_eq_ofNat, BitVec.toNat_ofNat]
  rw [show 2147483648 % 2 ^ 64 = 2 ^ 24 * 128 by rfl, or_high (Nat.mod_lt _ (by decide))]
  omega

/-- `unmask_commit_number` puts the low halves of the two fields together. -/
theorem toNat_recombine (lockTime sequence : BitVec 32) :
    ((lockTime &&& 0x00FFFFFF).setWidth 64 ||| (sequence.setWidth 64 &&& 0x00FFFFFF) <<< 24).toNat =
      2 ^ 24 * (sequence.toNat % 2 ^ 24) + lockTime.toNat % 2 ^ 24 := by
  have hhi : sequence.toNat % 2 ^ 24 * 2 ^ 24 < 2 ^ 64 := by omega
  have hs : sequence.toNat % 2 ^ 64 = sequence.toNat :=
    Nat.mod_eq_of_lt (Nat.lt_of_lt_of_le sequence.isLt (by decide))
  have hlo : lockTime.toNat % 2 ^ 24 % 2 ^ 64 = lockTime.toNat % 2 ^ 24 :=
    Nat.mod_eq_of_lt (by omega)
  rw [BitVec.toNat_or, BitVec.toNat_setWidth, toNat_and_lowMask (by decide),
    BitVec.toNat_shiftLeft, toNat_and_lowMask (by decide), BitVec.toNat_setWidth, hs, hlo,
    Nat.shiftLeft_eq, Nat.mod_eq_of_lt hhi, Nat.or_comm, Nat.mul_comm,
    or_high (Nat.mod_lt _ (by decide))]

/-- The fields `setCommitNumber` writes give back, once put together and XORed with the
obscurer, the 48-bit number that was obscured. -/
theorem unmask_obscured {n obscurer : BitVec 64} (hn : n.toNat < 2 ^ 48)
    (ho : obscurer.toNat < 2 ^ 48) :
    (((0x20000000 ||| ((n ^^^ obscurer) &&& 0xFFFFFF)).setWidth 32 &&& 0x00FFFFFF).setWidth 64 |||
      (((0x80000000 ||| (((n ^^^ obscurer) >>> 24) &&& 0xFFFFFF)).setWidth 32).setWidth 64 &&&
        0x00FFFFFF) <<< 24) ^^^ obscurer = n := by
  have hx : (n ^^^ obscurer).toNat < 2 ^ 48 := by
    rw [BitVec.toNat_xor]
    exact Nat.xor_lt_two_pow hn ho
  -- the two halves put together are the obscured number
  have hhalves : ((((0x20000000 ||| ((n ^^^ obscurer) &&& 0xFFFFFF)).setWidth 32 &&&
      0x00FFFFFF).setWidth 64 ||| (((0x80000000 ||| (((n ^^^ obscurer) >>> 24) &&&
        0xFFFFFF)).setWidth 32).setWidth 64 &&& 0x00FFFFFF) <<< 24) : BitVec 64) =
      n ^^^ obscurer := by
    apply BitVec.eq_of_toNat_eq
    rw [toNat_recombine, toNat_lockTime, toNat_sequence _ hx]
    omega
  rw [hhalves, BitVec.xor_assoc, BitVec.xor_self, BitVec.xor_zero]

section Carries

variable {Pubkey : Type} (sha256 : List UInt8 → Fixed 32) (pubkeyToDer : Pubkey → Fixed 33)

/-- The obscurer has 48 bits. -/
theorem commitNumberObscurer_lt (opener accepter : Pubkey) :
    (commitNumberObscurer sha256 pubkeyToDer opener accepter).toNat < 2 ^ 48 := by
  unfold commitNumberObscurer
  set sha := sha256 ((pubkeyToDer opener).bytes ++ (pubkeyToDer accepter).bytes)
  have hlen : (sha.bytes.drop 26).length = 6 := by simp [sha.length_eq]
  -- the two leading zero bytes add nothing
  have hval : beValue ([0, 0] ++ sha.bytes.drop 26) = beValue (sha.bytes.drop 26) := by
    simp [beValue_cons]
  have hlt := beValue_lt (sha.bytes.drop 26)
  rw [hlen] at hlt
  rw [BitVec.toNat_ofNat, hval, Nat.mod_eq_of_lt (by omega)]
  exact lt_of_lt_of_eq hlt (by norm_num)

/-- What a commitment transaction keeps of its number `n`: `unmask_commit_number` with the
local and remote basepoints and the funder gives `n` back, and the lock time and the first
input's sequence number start with the markers `0x20` and `0x80`. -/
def CarriesCommitNumber (localBasepoint remoteBasepoint : Pubkey) (funder : Side) (n : BitVec 64)
    (tx : BitcoinTx) : Prop :=
  unmaskCommitNumber sha256 pubkeyToDer tx funder localBasepoint remoteBasepoint = some n ∧
    tx.lockTime >>> 24 = 0x20 ∧
    ∃ input, tx.input.head? = some input ∧ input.sequenceNumber >>> 24 = 0x80

/-- Setting the number obscured by the funder's basepoint and the other's into any
transaction with an input, `unmask_commit_number` recovers it. -/
theorem setCommitNumber_carries (basepoint : Side → Pubkey) (funder : Side) {n : BitVec 64}
    (hn : n.toNat < 2 ^ 48) {tx : BitcoinTx} (hin : tx.input ≠ []) (fundingTxid : Txid)
    (fundingTxout : BitVec 32) :
    CarriesCommitNumber sha256 pubkeyToDer (basepoint .local) (basepoint .remote) funder n
      (setCommitNumber tx fundingTxid fundingTxout
        (n ^^^ commitNumberObscurer sha256 pubkeyToDer (basepoint funder) (basepoint funder.other))) := by
  set obscurer := commitNumberObscurer sha256 pubkeyToDer (basepoint funder) (basepoint funder.other)
  have ho : obscurer.toNat < 2 ^ 48 := commitNumberObscurer_lt sha256 pubkeyToDer _ _
  have hx : (n ^^^ obscurer).toNat < 2 ^ 48 := by
    rw [BitVec.toNat_xor]
    exact Nat.xor_lt_two_pow hn ho
  -- `keys[funder]` and `keys[!funder]` of `onchaind` are the channel's basepoints
  have hkeys : ∀ s : Side, (if s = .local then basepoint .local else basepoint .remote) = basepoint s := by
    intro s
    cases s <;> rfl
  obtain ⟨version, txInputs, outputs, lockTime⟩ := tx
  obtain ⟨input, inputs, rfl⟩ := List.exists_cons_of_ne_nil hin
  refine ⟨?_, ?_, _, rfl, ?_⟩
  · simp only [unmaskCommitNumber, setCommitNumber, List.modifyHead_cons, hkeys]
    exact congrArg some (unmask_obscured hn ho)
  · apply BitVec.eq_of_toNat_eq
    simp only [setCommitNumber, BitVec.toNat_ushiftRight, Nat.shiftRight_eq_div_pow,
      toNat_lockTime]
    simp only [BitVec.ofNat_eq_ofNat, BitVec.toNat_ofNat]
    omega
  · apply BitVec.eq_of_toNat_eq
    simp only [BitVec.toNat_ushiftRight, Nat.shiftRight_eq_div_pow, toNat_sequence _ hx]
    simp only [BitVec.ofNat_eq_ofNat, BitVec.toNat_ofNat]
    omega

end Carries

/-! ## What `commit_tx` builds -/

section Build

variable (scripts : CommitScripts) (feeratePerKw : BitVec 32) (dustLimitSatoshis : BitVec 64)
  (side : Side)

/-- The HTLCs that one loop of `commit_tx` gives an output: offered by `side` or not, as
`offered` says, and not trimmed. -/
def passKeeps (offered : Bool) (htlc : Htlc) : Bool :=
  (decide (htlc.owner = side) == offered) && !trim htlc feeratePerKw dustLimitSatoshis side

/-- The entries one loop of `commit_tx` writes. -/
def htlcEntries (offered : Bool) (htlcs : List Htlc) : List CommitOutput :=
  (htlcs.filter (passKeeps feeratePerKw dustLimitSatoshis side offered)).map fun htlc =>
    (htlcOut scripts offered htlc, htlc.expiry, some htlc)

/-- One loop of `commit_tx`: the entries of the HTLCs it keeps, unless the expiry of one of
them is not a block height. -/
theorem htlcPass_spec (offered : Bool) (htlcs : List Htlc) :
    htlcPass scripts feeratePerKw dustLimitSatoshis side offered htlcs =
      if ∀ h ∈ htlcs.filter (passKeeps feeratePerKw dustLimitSatoshis side offered),
          h.expiry < 500000000 then
        some (htlcEntries scripts feeratePerKw dustLimitSatoshis side offered htlcs)
      else none := by
  induction htlcs with
  | nil => simp [htlcPass, htlcEntries]
  | cons htlc htlcs ih =>
    -- the loop skips, or keeps, the HTLC exactly as the filter does
    by_cases hown : decide (htlc.owner = side) = offered
    · by_cases htrim : trim htlc feeratePerKw dustLimitSatoshis side = true
      · simp [htlcPass, htlcEntries, passKeeps, hown, htrim, ih]
      · by_cases hlt : htlc.expiry < 500000000#32
        · have hkeep : passKeeps feeratePerKw dustLimitSatoshis side offered htlc = true := by
            simp [passKeeps, hown, htrim]
          rw [htlcPass, if_neg (by simpa using hown), if_neg htrim, if_neg (by simpa using hlt), ih,
            htlcEntries, htlcEntries, List.filter_cons_of_pos hkeep]
          -- the entry goes in front of the others exactly when the rest is written too
          simp [hlt]
        · simp [htlcPass, passKeeps, hown, htrim, hlt]
    · have hne : (decide (htlc.owner = side) == offered) = false := by simpa using hown
      simp [htlcPass, htlcEntries, passKeeps, hown, hne, ih]

/-- With every expiry a block height, each loop writes the entries of the HTLCs it keeps. -/
theorem htlcPass_eq {htlcs : List Htlc} (hexpiry : ∀ h ∈ htlcs, h.expiry < 500000000)
    (offered : Bool) :
    htlcPass scripts feeratePerKw dustLimitSatoshis side offered htlcs =
      some (htlcEntries scripts feeratePerKw dustLimitSatoshis side offered htlcs) := by
  rw [htlcPass_spec, if_pos fun h hh => hexpiry h (List.mem_of_mem_filter hh)]

/-- What a loop returns is the entries of the HTLCs it keeps. -/
theorem htlcPass_eq_some {offered : Bool} {htlcs : List Htlc} {entries : List CommitOutput}
    (h : htlcPass scripts feeratePerKw dustLimitSatoshis side offered htlcs = some entries) :
    entries = htlcEntries scripts feeratePerKw dustLimitSatoshis side offered htlcs := by
  rw [htlcPass_spec] at h
  split_ifs at h
  exact (Option.some.inj h).symm

/-- The outputs `commit_tx` writes before it sorts them. -/
def commitOutputs (selfPay otherPay : BitVec 64) (unsetCltv : BitVec 32) (htlcs : List Htlc) :
    List CommitOutput :=
  htlcEntries scripts feeratePerKw dustLimitSatoshis side true htlcs ++
    htlcEntries scripts feeratePerKw dustLimitSatoshis side false htlcs ++
    payOutput selfPay dustLimitSatoshis scripts.toLocal unsetCltv ++
    payOutput otherPay dustLimitSatoshis scripts.toRemote unsetCltv

/-- `base_fee_msat` of `commit_tx`. -/
def commitBaseFeeMsat (htlcs : List Htlc) : BitVec 64 :=
  commitTxBaseFee feeratePerKw (commitTxNumUntrimmed htlcs feeratePerKw dustLimitSatoshis side) * 1000

/-- An entry of a loop pays the HTLC it names, which is offered by `side` or not as the loop
is. -/
theorem mem_htlcEntries {offered : Bool} {htlcs : List Htlc} {x : CommitOutput}
    (hx : x ∈ htlcEntries scripts feeratePerKw dustLimitSatoshis side offered htlcs) :
    ∃ h, x = (htlcOut scripts offered h, h.expiry, some h) ∧ decide (h.owner = side) = offered := by
  obtain ⟨h, hh, rfl⟩ := List.mem_map.mp hx
  have hkeep := (List.mem_filter.mp hh).2
  simp only [passKeeps, Bool.and_eq_true, beq_iff_eq] at hkeep
  exact ⟨h, rfl, hkeep.1⟩

/-- The outputs of the two sides name no HTLC. -/
theorem mem_payOutput {amountMsat : BitVec 64} {script : List UInt8} {cltv : BitVec 32}
    {x : CommitOutput} (hx : x ∈ payOutput amountMsat dustLimitSatoshis script cltv) :
    x.2.2 = none := by
  unfold payOutput at hx
  split_ifs at hx
  · rw [List.mem_singleton.mp hx]
  · simp at hx

/-- The map of a loop lists the HTLCs it keeps. -/
theorem filterMap_htlcEntries (offered : Bool) (htlcs : List Htlc) :
    (htlcEntries scripts feeratePerKw dustLimitSatoshis side offered htlcs).filterMap (·.2.2) =
      htlcs.filter (passKeeps feeratePerKw dustLimitSatoshis side offered) := by
  simp [htlcEntries, List.filterMap_map]

/-- The map of the sides' outputs is empty. -/
theorem filterMap_payOutput (amountMsat : BitVec 64) (script : List UInt8) (cltv : BitVec 32) :
    (payOutput amountMsat dustLimitSatoshis script cltv).filterMap (·.2.2) = [] :=
  List.filterMap_eq_nil_iff.mpr fun _ hx => mem_payOutput dustLimitSatoshis hx

/-- The two loops together keep each HTLC that `trim` keeps, once: the offered ones, then the
received ones. -/
theorem passKeeps_perm (htlcs : List Htlc) :
    (htlcs.filter (passKeeps feeratePerKw dustLimitSatoshis side true) ++
      htlcs.filter (passKeeps feeratePerKw dustLimitSatoshis side false)).Perm
      (htlcs.filter fun h => !trim h feeratePerKw dustLimitSatoshis side) := by
  have hsplit := List.filter_append_perm (fun h => decide (h.owner = side))
    (htlcs.filter fun h => !trim h feeratePerKw dustLimitSatoshis side)
  rw [List.filter_filter, List.filter_filter] at hsplit
  have hoffered : htlcs.filter (passKeeps feeratePerKw dustLimitSatoshis side true) =
      htlcs.filter fun h => decide (h.owner = side) && !trim h feeratePerKw dustLimitSatoshis side :=
    List.filter_congr fun h _ => by simp [passKeeps]
  have hreceived : htlcs.filter (passKeeps feeratePerKw dustLimitSatoshis side false) =
      htlcs.filter fun h => !decide (h.owner = side) && !trim h feeratePerKw dustLimitSatoshis side :=
    List.filter_congr fun h _ => by simp [passKeeps]
  rw [hoffered, hreceived]
  exact hsplit

/-- The map of `commit_tx` before the sort: the HTLCs of the offered loop, then those of the
received one. -/
theorem filterMap_commitOutputs (selfPay otherPay : BitVec 64) (unsetCltv : BitVec 32)
    (htlcs : List Htlc) :
    (commitOutputs scripts feeratePerKw dustLimitSatoshis side selfPay otherPay unsetCltv
        htlcs).filterMap (·.2.2) =
      htlcs.filter (passKeeps feeratePerKw dustLimitSatoshis side true) ++
        htlcs.filter (passKeeps feeratePerKw dustLimitSatoshis side false) := by
  simp only [commitOutputs, List.filterMap_append, filterMap_htlcEntries, filterMap_payOutput,
    List.append_nil]

/-- The outputs of `commit_tx` that name no HTLC: `to_local` and `to_remote`, each when its
amount reaches the dust limit. -/
theorem sides_commitOutputs (selfPay otherPay : BitVec 64) (unsetCltv : BitVec 32)
    (htlcs : List Htlc) :
    ((commitOutputs scripts feeratePerKw dustLimitSatoshis side selfPay otherPay unsetCltv
        htlcs).filter fun x => x.2.2.isNone).map (·.1) =
      (if selfPay / 1000 ≥ dustLimitSatoshis then [⟨selfPay / 1000, scripts.toLocal⟩] else []) ++
        (if otherPay / 1000 ≥ dustLimitSatoshis then [⟨otherPay / 1000, scripts.toRemote⟩]
          else []) := by
  -- the HTLC entries all name their HTLC, and the sides' outputs none
  have hentries : ∀ offered, (htlcEntries scripts feeratePerKw dustLimitSatoshis side offered
      htlcs).filter (fun x => x.2.2.isNone) = [] := fun offered =>
    List.filter_eq_nil_iff.mpr fun x hx => by
      obtain ⟨h, rfl, -⟩ := mem_htlcEntries scripts feeratePerKw dustLimitSatoshis side hx
      simp
  have hsides : ∀ amountMsat script, (payOutput amountMsat dustLimitSatoshis script
      unsetCltv).filter (fun x => x.2.2.isNone) = payOutput amountMsat dustLimitSatoshis script
        unsetCltv := fun amountMsat script =>
    List.filter_eq_self.mpr fun x hx => by simp [mem_payOutput dustLimitSatoshis hx]
  simp only [commitOutputs, List.filter_append, hentries, hsides, List.nil_append, List.map_append]
  unfold payOutput
  split_ifs <;> rfl

/-- An output of `commit_tx` that names an HTLC pays it, offered or received as its owner
is. -/
theorem htlcOut_of_mem_commitOutputs {selfPay otherPay : BitVec 64} {unsetCltv : BitVec 32}
    {htlcs : List Htlc} {x : CommitOutput} {h : Htlc}
    (hx : x ∈ commitOutputs scripts feeratePerKw dustLimitSatoshis side selfPay otherPay unsetCltv
      htlcs)
    (hh : x.2.2 = some h) : x.1 = htlcOut scripts (decide (h.owner = side)) h := by
  have hentry : ∀ offered,
      x ∈ htlcEntries scripts feeratePerKw dustLimitSatoshis side offered htlcs →
        x.1 = htlcOut scripts (decide (h.owner = side)) h := by
    intro offered hx
    obtain ⟨h', rfl, hown⟩ := mem_htlcEntries scripts feeratePerKw dustLimitSatoshis side hx
    obtain rfl := Option.some.inj hh
    rw [hown]
  simp only [commitOutputs, List.mem_append] at hx
  rcases hx with ((hx | hx) | hx) | hx
  · exact hentry true hx
  · exact hentry false hx
  · simp [mem_payOutput dustLimitSatoshis hx] at hh
  · simp [mem_payOutput dustLimitSatoshis hx] at hh

/-- The satoshi amounts of some msat amounts, rounded down, make at most a thousandth of
their sum. -/
theorem sum_div_le {ι : Type*} (l : List ι) (f : ι → BitVec 64) :
    1000 * (l.map fun i => (f i / 1000).toNat).sum ≤ (l.map fun i => (f i).toNat).sum := by
  rw [← List.sum_map_mul_left]
  refine List.sum_le_sum fun i _ => ?_
  simpa [BitVec.toNat_udiv] using Nat.mul_div_le (f i).toNat 1000

/-- The outputs of a loop hold at most the amounts of the HTLCs it keeps. -/
theorem amount_htlcEntries (offered : Bool) (htlcs : List Htlc) :
    1000 * ((htlcEntries scripts feeratePerKw dustLimitSatoshis side offered htlcs).map
        fun x => x.1.amount.toNat).sum ≤
      ((htlcs.filter (passKeeps feeratePerKw dustLimitSatoshis side offered)).map
        fun h => h.msatoshi.toNat).sum := by
  simp only [htlcEntries, List.map_map, Function.comp_def, htlcOut_amount]
  exact sum_div_le _ _

/-- A side's output holds at most its amount. -/
theorem amount_payOutput (amountMsat : BitVec 64) (script : List UInt8) (cltv : BitVec 32) :
    1000 * ((payOutput amountMsat dustLimitSatoshis script cltv).map
      fun x => x.1.amount.toNat).sum ≤ amountMsat.toNat := by
  unfold payOutput
  split_ifs
  · simpa [BitVec.toNat_udiv] using Nat.mul_div_le amountMsat.toNat 1000
  · simp

/-- The outputs of `commit_tx` hold at most the amounts of the HTLCs that `trim` keeps and of
the two sides. -/
theorem amount_commitOutputs (selfPay otherPay : BitVec 64) (unsetCltv : BitVec 32)
    (htlcs : List Htlc) :
    1000 * ((commitOutputs scripts feeratePerKw dustLimitSatoshis side selfPay otherPay unsetCltv
        htlcs).map fun x => x.1.amount.toNat).sum ≤
      ((htlcs.filter fun h => !trim h feeratePerKw dustLimitSatoshis side).map
        fun h => h.msatoshi.toNat).sum + selfPay.toNat + otherPay.toNat := by
  have hoffered := amount_htlcEntries scripts feeratePerKw dustLimitSatoshis side true htlcs
  have hreceived := amount_htlcEntries scripts feeratePerKw dustLimitSatoshis side false htlcs
  have hself := amount_payOutput dustLimitSatoshis selfPay scripts.toLocal unsetCltv
  have hother := amount_payOutput dustLimitSatoshis otherPay scripts.toRemote unsetCltv
  -- the two loops' HTLCs are those `trim` keeps
  have hkept : ((htlcs.filter (passKeeps feeratePerKw dustLimitSatoshis side true)).map
        fun h => h.msatoshi.toNat).sum +
      ((htlcs.filter (passKeeps feeratePerKw dustLimitSatoshis side false)).map
        fun h => h.msatoshi.toNat).sum =
      ((htlcs.filter fun h => !trim h feeratePerKw dustLimitSatoshis side).map
        fun h => h.msatoshi.toNat).sum := by
    rw [← List.sum_append, ← List.map_append]
    exact ((passKeeps_perm feeratePerKw dustLimitSatoshis side htlcs).map _).sum_eq
  simp only [commitOutputs, List.map_append, List.sum_append]
  omega

end Build

/-- What the outputs of a commitment transaction and its HTLC map are, for the HTLCs of the
channel and the two amounts after the fee: one entry per output; in the map each HTLC that
`trim` keeps, once; each output that names an HTLC paying it; and the outputs that name none
the `to_local` and `to_remote` outputs, each present when its amount reaches the dust limit. -/
structure IsCommitOutputs (scripts : CommitScripts) (feeratePerKw : BitVec 32)
    (dustLimitSatoshis : BitVec 64) (side : Side) (htlcs : List Htlc) (selfPay otherPay : BitVec 64)
    (tx : BitcoinTx) (htlcmap : List (Option Htlc)) : Prop where
  /-- `tal_resize` leaves the outputs and the map of one length. -/
  length_eq : tx.output.length = htlcmap.length
  /-- The map names the HTLCs that `trim` keeps, each once. -/
  htlcs_perm : (htlcmap.filterMap id).Perm
    (htlcs.filter fun h => !trim h feeratePerKw dustLimitSatoshis side)
  /-- An output whose entry names an HTLC pays it, offered or received as its owner is. -/
  pays_htlc : ∀ o h, (o, some h) ∈ tx.output.zip htlcmap →
    o = htlcOut scripts (decide (h.owner = side)) h
  /-- The outputs with a `NULL` entry are `to_local` and `to_remote`. -/
  sides_perm : (((tx.output.zip htlcmap).filter fun p => p.2.isNone).map (·.1)).Perm
    ((if selfPay / 1000 ≥ dustLimitSatoshis then [⟨selfPay / 1000, scripts.toLocal⟩] else []) ++
      (if otherPay / 1000 ≥ dustLimitSatoshis then [⟨otherPay / 1000, scripts.toRemote⟩] else []))

/-! ## What `commit_tx` returns -/

section Result

variable {scripts : CommitScripts} {fundingTxid : Txid} {fundingTxout : BitVec 32}
  {fundingSatoshis : BitVec 64} {funder : Side} {feeratePerKw : BitVec 32}
  {dustLimitSatoshis selfPayMsat otherPayMsat : BitVec 64} {htlcs : List Htlc}
  {obscuredCommitmentNumber : BitVec 64} {side : Side} {unsetCltv : BitVec 32}

/-- What `commit_tx` returns: the outputs in BIP69 order and their map, in a transaction with
one input that `setCommitNumber` finishes. -/
theorem commitTx_eq_some {paid : Bool} {selfPay otherPay : BitVec 64} {tx : BitcoinTx}
    {htlcmap : List (Option Htlc)}
    (hfee : trySubtractFee funder side (commitBaseFeeMsat feeratePerKw dustLimitSatoshis side htlcs)
      selfPayMsat otherPayMsat = (paid, selfPay, otherPay))
    (h : commitTx scripts fundingTxid fundingTxout fundingSatoshis funder feeratePerKw
      dustLimitSatoshis selfPayMsat otherPayMsat htlcs obscuredCommitmentNumber side unsetCltv =
        some (tx, htlcmap)) :
    tx = setCommitNumber
        { bitcoinTx 1 ((commitTxNumUntrimmed htlcs feeratePerKw dustLimitSatoshis side).toNat + 2) with
          output := (permuteOutputs (commitOutputs scripts feeratePerKw dustLimitSatoshis side
            selfPay otherPay unsetCltv htlcs)).map (·.1) }
        fundingTxid fundingTxout obscuredCommitmentNumber ∧
      htlcmap = (permuteOutputs (commitOutputs scripts feeratePerKw dustLimitSatoshis side
        selfPay otherPay unsetCltv htlcs)).map (·.2.2) := by
  rw [commitBaseFeeMsat] at hfee
  unfold commitTx at h
  split_ifs at h
  simp only [hfee] at h
  -- both loops returned, so each wrote the entries of the HTLCs it keeps
  cases hoff : htlcPass scripts feeratePerKw dustLimitSatoshis side true htlcs with
  | none => simp [hoff] at h
  | some offered =>
    cases hrec : htlcPass scripts feeratePerKw dustLimitSatoshis side false htlcs with
    | none => simp [hoff, hrec] at h
    | some received =>
      simp only [hoff, hrec, Option.some.injEq, Prod.mk.injEq] at h
      obtain ⟨rfl, rfl⟩ := h
      rw [htlcPass_eq_some _ _ _ _ hoff, htlcPass_eq_some _ _ _ _ hrec]
      exact ⟨rfl, rfl⟩

/-- When its `assert`s hold, `commit_tx` returns a transaction. -/
theorem commitTx_exists (hpay : selfPayMsat + otherPayMsat ≤ fundingSatoshis * 1000)
    (hexpiry : ∀ h ∈ htlcs, h.expiry < 500000000) :
    ∃ tx htlcmap, commitTx scripts fundingTxid fundingTxout fundingSatoshis funder feeratePerKw
      dustLimitSatoshis selfPayMsat otherPayMsat htlcs obscuredCommitmentNumber side unsetCltv =
        some (tx, htlcmap) := by
  simp only [commitTx, hpay, not_true_eq_false, if_false, htlcPass_eq _ _ _ _ hexpiry]
  exact ⟨_, _, rfl⟩

/-- The first `assert` of `commit_tx` holds when the amounts add up to at most the funding
and the funding in msat fits in a `u64`, as `new_initial_channel` checks. -/
theorem pay_le_funding (hfunding : fundingSatoshis.toNat * 1000 < 2 ^ 64)
    (hpay : selfPayMsat.toNat + otherPayMsat.toNat ≤ fundingSatoshis.toNat * 1000) :
    selfPayMsat + otherPayMsat ≤ fundingSatoshis * 1000 := by
  bv_omega

/-- Whatever `commit_tx` returns is a transaction with an input that `setCommitNumber`
finished. -/
theorem commitTx_setCommitNumber {tx : BitcoinTx} {htlcmap : List (Option Htlc)}
    (h : commitTx scripts fundingTxid fundingTxout fundingSatoshis funder feeratePerKw
      dustLimitSatoshis selfPayMsat otherPayMsat htlcs obscuredCommitmentNumber side unsetCltv =
        some (tx, htlcmap)) :
    ∃ tx₀ : BitcoinTx, tx₀.input ≠ [] ∧
      tx = setCommitNumber tx₀ fundingTxid fundingTxout obscuredCommitmentNumber := by
  generalize hfee : trySubtractFee funder side
    (commitBaseFeeMsat feeratePerKw dustLimitSatoshis side htlcs) selfPayMsat otherPayMsat = r
  obtain ⟨paid, selfPay, otherPay⟩ := r
  exact ⟨_, by simp [bitcoinTx], (commitTx_eq_some hfee h).1⟩

/-- Whatever transaction `initial_commit_tx` returns has an input and was finished by
`setCommitNumber`. -/
theorem initialCommitTx_setCommitNumber {selfReserveMsat : BitVec 64} {tx : BitcoinTx}
    (h : initialCommitTx scripts fundingTxid fundingTxout fundingSatoshis funder feeratePerKw
      dustLimitSatoshis selfPayMsat otherPayMsat selfReserveMsat obscuredCommitmentNumber side =
        some (some tx)) :
    ∃ tx₀ : BitcoinTx, tx₀.input ≠ [] ∧
      tx = setCommitNumber tx₀ fundingTxid fundingTxout obscuredCommitmentNumber := by
  unfold initialCommitTx at h
  split_ifs at h
  -- past the `assert` and the two early returns the transaction is built
  simp only at h
  split_ifs at h <;> simp only [Option.some.injEq, reduceCtorEq] at h
  exact ⟨_, by simp [bitcoinTx], h.symm⟩

/-- `initial_commit_tx` builds a transaction when its `assert` holds, the funder pays the base
fee, and one side keeps more than the reserve. -/
theorem initialCommitTx_exists {selfReserveMsat selfPay otherPay : BitVec 64}
    (hpay : selfPayMsat + otherPayMsat ≤ fundingSatoshis * 1000)
    (hfee : trySubtractFee funder side (commitTxBaseFee feeratePerKw 0 * 1000) selfPayMsat
      otherPayMsat = (true, selfPay, otherPay))
    (hreserve : ¬ (selfPay ≤ selfReserveMsat ∧ otherPay ≤ selfReserveMsat)) :
    ∃ tx, initialCommitTx scripts fundingTxid fundingTxout fundingSatoshis funder feeratePerKw
      dustLimitSatoshis selfPayMsat otherPayMsat selfReserveMsat obscuredCommitmentNumber side =
        some (some tx) := by
  simp only [initialCommitTx, hpay, not_true_eq_false, if_false, hfee, Bool.not_true,
    Bool.false_eq_true, hreserve]
  exact ⟨_, rfl⟩

/-- `commit_tx` with amounts and HTLCs that the funding covers: it returns a transaction
when the funding in msat fits in a `u64` and every expiry is a block height, as in every
channel that `new_initial_channel` and the HTLC calls reach; and whatever it returns has the
outputs of `IsCommitOutputs`, whose amounts add up to at most the funding. -/
theorem commitTx_outputs {paid : Bool} {selfPay otherPay : BitVec 64}
    (hsum : selfPayMsat.toNat + otherPayMsat.toNat + (htlcs.map fun h => h.msatoshi.toNat).sum ≤
      fundingSatoshis.toNat * 1000)
    (hfee : trySubtractFee funder side (commitBaseFeeMsat feeratePerKw dustLimitSatoshis side htlcs)
      selfPayMsat otherPayMsat = (paid, selfPay, otherPay)) :
    (fundingSatoshis.toNat * 1000 < 2 ^ 64 → (∀ h ∈ htlcs, h.expiry < 500000000) →
      ∃ tx htlcmap, commitTx scripts fundingTxid fundingTxout fundingSatoshis funder feeratePerKw
        dustLimitSatoshis selfPayMsat otherPayMsat htlcs obscuredCommitmentNumber side unsetCltv =
          some (tx, htlcmap)) ∧
    ∀ tx htlcmap, commitTx scripts fundingTxid fundingTxout fundingSatoshis funder feeratePerKw
        dustLimitSatoshis selfPayMsat otherPayMsat htlcs obscuredCommitmentNumber side unsetCltv =
          some (tx, htlcmap) →
      IsCommitOutputs scripts feeratePerKw dustLimitSatoshis side htlcs selfPay otherPay tx htlcmap ∧
        (tx.output.map fun o => o.amount.toNat).sum ≤ fundingSatoshis.toNat := by
  refine ⟨fun hfunding hexpiry => commitTx_exists (pay_le_funding hfunding (by omega)) hexpiry,
    fun tx htlcmap h => ?_⟩
  obtain ⟨rfl, rfl⟩ := commitTx_eq_some hfee h
  set outputs := commitOutputs scripts feeratePerKw dustLimitSatoshis side selfPay otherPay
    unsetCltv htlcs
  have hperm : (permuteOutputs outputs).Perm outputs := permuteOutputs_perm outputs
  -- the outputs and the map are read off the sorted entries
  have hzip : (((permuteOutputs outputs).map (·.1)).zip ((permuteOutputs outputs).map (·.2.2))) =
      (permuteOutputs outputs).map fun x => (x.1, x.2.2) := List.zip_map'
  refine ⟨⟨?_, ?_, ?_, ?_⟩, ?_⟩
  · simp
  · calc ((permuteOutputs outputs).map (·.2.2)).filterMap id
        = (permuteOutputs outputs).filterMap (·.2.2) := by rw [List.filterMap_map]; rfl
      List.Perm _ (outputs.filterMap (·.2.2)) := hperm.filterMap _
      _ = htlcs.filter (passKeeps feeratePerKw dustLimitSatoshis side true) ++
          htlcs.filter (passKeeps feeratePerKw dustLimitSatoshis side false) :=
        filterMap_commitOutputs scripts feeratePerKw dustLimitSatoshis side _ _ _ _
      List.Perm _ _ := passKeeps_perm feeratePerKw dustLimitSatoshis side htlcs
  · intro o h hmem
    simp only [setCommitNumber_output] at hmem
    rw [hzip] at hmem
    obtain ⟨x, hx, hxe⟩ := List.mem_map.mp hmem
    simp only [Prod.mk.injEq] at hxe
    obtain ⟨rfl, hh⟩ := hxe
    exact htlcOut_of_mem_commitOutputs scripts feeratePerKw dustLimitSatoshis side
      (hperm.subset hx) hh
  · simp only [setCommitNumber_output]
    calc _ = ((permuteOutputs outputs).filter fun x => x.2.2.isNone).map (·.1) := by
          rw [hzip, List.filter_map, List.map_map]
          rfl
      List.Perm _ ((outputs.filter fun x => x.2.2.isNone).map (·.1)) := (hperm.filter _).map _
      _ = _ := sides_commitOutputs scripts feeratePerKw dustLimitSatoshis side _ _ _ _
  · -- a thousandth of what the HTLCs and the sides hold, and the sort moves no amount
    have hsorted : (((permuteOutputs outputs).map (·.1)).map fun o => o.amount.toNat).sum =
        (outputs.map fun x => x.1.amount.toNat).sum := by
      rw [List.map_map]
      exact (hperm.map _).sum_eq
    have hbound : 1000 * (outputs.map fun x => x.1.amount.toNat).sum ≤
        ((htlcs.filter fun h => !trim h feeratePerKw dustLimitSatoshis side).map
          fun h => h.msatoshi.toNat).sum + selfPay.toNat + otherPay.toNat :=
      amount_commitOutputs scripts feeratePerKw dustLimitSatoshis side selfPay otherPay unsetCltv htlcs
    have hkept : ((htlcs.filter fun h => !trim h feeratePerKw dustLimitSatoshis side).map
        fun h => h.msatoshi.toNat).sum ≤ (htlcs.map fun h => h.msatoshi.toNat).sum :=
      (List.filter_sublist.map _).sum_le_sum fun _ _ => Nat.zero_le _
    have hpaid := trySubtractFee_le hfee
    simp only [setCommitNumber_output]
    rw [hsorted]
    omega

end Result

/-- Scripts of one byte each, which no result depends on. -/
def byteScripts : CommitScripts := ⟨fun _ => [0], fun _ _ => [1], [2], [3]⟩

/-- An HTLC of 2000 satoshi offered by the local side. -/
def offeredHtlc : Htlc := ⟨.sentAddHtlc, 0, 2000000, 100, 0, none, none, 0⟩

theorem commitTx_outputs_offeredHtlc :
    (5000000 : BitVec 64).toNat + (3000000 : BitVec 64).toNat +
        ([offeredHtlc].map fun h => h.msatoshi.toNat).sum ≤ (10000 : BitVec 64).toNat * 1000 ∧
      trySubtractFee .local .local (commitBaseFeeMsat 1000 546 .local [offeredHtlc]) 5000000 3000000 =
        (true, 4104000, 3000000) ∧
      (((10000 : BitVec 64).toNat * 1000 < 2 ^ 64 → (∀ h ∈ [offeredHtlc], h.expiry < 500000000) →
        ∃ tx htlcmap, commitTx byteScripts zeroTxid 0 10000 .local 1000 546 5000000 3000000
          [offeredHtlc] 7 .local 0 = some (tx, htlcmap)) ∧
      ∀ tx htlcmap, commitTx byteScripts zeroTxid 0 10000 .local 1000 546 5000000 3000000
          [offeredHtlc] 7 .local 0 = some (tx, htlcmap) →
        IsCommitOutputs byteScripts 1000 546 .local [offeredHtlc] 4104000 3000000 tx htlcmap ∧
          (tx.output.map fun o => o.amount.toNat).sum ≤ (10000 : BitVec 64).toNat) :=
  have hsum : (5000000 : BitVec 64).toNat + (3000000 : BitVec 64).toNat +
      ([offeredHtlc].map fun h => h.msatoshi.toNat).sum ≤ (10000 : BitVec 64).toNat * 1000 := by
    decide
  have hfee : trySubtractFee .local .local (commitBaseFeeMsat 1000 546 .local [offeredHtlc])
      5000000 3000000 = (true, 4104000, 3000000) := by decide
  ⟨hsum, hfee, commitTx_outputs hsum hfee⟩


/-! ## The commitment number of what the builders return -/

section CommitNumber

variable {Pubkey : Type} (sha256 : List UInt8 → Fixed 32) (pubkeyToDer : Pubkey → Fixed 33)

/-- A commitment number below `2^48`, obscured with the funder's basepoint and the other's as
`channel_txs` and `initial_commit_tx`'s callers do, is recovered by `unmask_commit_number`
from every transaction that `commit_tx` or `initial_commit_tx` builds, under the markers; and
each builder does build one when its `assert`s hold (and, for `initial_commit_tx`, the funder
pays the base fee and one side keeps more than the reserve). -/
theorem commitTx_commitNumber (basepoint : Side → Pubkey) (funder : Side) {n : BitVec 64}
    (hn : n.toNat < 2 ^ 48) :
    (∀ scripts fundingTxid fundingTxout fundingSatoshis feeratePerKw dustLimitSatoshis selfPayMsat
        otherPayMsat htlcs side unsetCltv,
      selfPayMsat + otherPayMsat ≤ fundingSatoshis * 1000 → (∀ h ∈ htlcs, h.expiry < 500000000) →
      ∃ tx htlcmap, commitTx scripts fundingTxid fundingTxout fundingSatoshis funder feeratePerKw
          dustLimitSatoshis selfPayMsat otherPayMsat htlcs
          (n ^^^ commitNumberObscurer sha256 pubkeyToDer (basepoint funder) (basepoint funder.other))
          side unsetCltv = some (tx, htlcmap)) ∧
    (∀ scripts fundingTxid fundingTxout fundingSatoshis feeratePerKw dustLimitSatoshis selfPayMsat
        otherPayMsat htlcs side unsetCltv tx htlcmap,
      commitTx scripts fundingTxid fundingTxout fundingSatoshis funder feeratePerKw
          dustLimitSatoshis selfPayMsat otherPayMsat htlcs
          (n ^^^ commitNumberObscurer sha256 pubkeyToDer (basepoint funder) (basepoint funder.other))
          side unsetCltv = some (tx, htlcmap) →
        CarriesCommitNumber sha256 pubkeyToDer (basepoint .local) (basepoint .remote) funder n tx) ∧
    (∀ scripts fundingTxid fundingTxout fundingSatoshis feeratePerKw dustLimitSatoshis selfPayMsat
        otherPayMsat selfReserveMsat side selfPay otherPay,
      selfPayMsat + otherPayMsat ≤ fundingSatoshis * 1000 →
      trySubtractFee funder side (commitTxBaseFee feeratePerKw 0 * 1000) selfPayMsat otherPayMsat =
        (true, selfPay, otherPay) →
      ¬ (selfPay ≤ selfReserveMsat ∧ otherPay ≤ selfReserveMsat) →
      ∃ tx, initialCommitTx scripts fundingTxid fundingTxout fundingSatoshis funder feeratePerKw
          dustLimitSatoshis selfPayMsat otherPayMsat selfReserveMsat
          (n ^^^ commitNumberObscurer sha256 pubkeyToDer (basepoint funder) (basepoint funder.other))
          side = some (some tx)) ∧
    (∀ scripts fundingTxid fundingTxout fundingSatoshis feeratePerKw dustLimitSatoshis selfPayMsat
        otherPayMsat selfReserveMsat side tx,
      initialCommitTx scripts fundingTxid fundingTxout fundingSatoshis funder feeratePerKw
          dustLimitSatoshis selfPayMsat otherPayMsat selfReserveMsat
          (n ^^^ commitNumberObscurer sha256 pubkeyToDer (basepoint funder) (basepoint funder.other))
          side = some (some tx) →
        CarriesCommitNumber sha256 pubkeyToDer (basepoint .local) (basepoint .remote) funder n tx) := by
  refine ⟨?_, ?_, ?_, ?_⟩
  · intro scripts fundingTxid fundingTxout fundingSatoshis feeratePerKw dustLimitSatoshis
      selfPayMsat otherPayMsat htlcs side unsetCltv hpay hexpiry
    exact commitTx_exists hpay hexpiry
  · intro scripts fundingTxid fundingTxout fundingSatoshis feeratePerKw dustLimitSatoshis
      selfPayMsat otherPayMsat htlcs side unsetCltv tx htlcmap h
    obtain ⟨tx₀, hin, rfl⟩ := commitTx_setCommitNumber h
    exact setCommitNumber_carries sha256 pubkeyToDer basepoint funder hn hin fundingTxid fundingTxout
  · intro scripts fundingTxid fundingTxout fundingSatoshis feeratePerKw dustLimitSatoshis
      selfPayMsat otherPayMsat selfReserveMsat side selfPay otherPay hpay hfee hreserve
    exact initialCommitTx_exists hpay hfee hreserve
  · intro scripts fundingTxid fundingTxout fundingSatoshis feeratePerKw dustLimitSatoshis
      selfPayMsat otherPayMsat selfReserveMsat side tx h
    obtain ⟨tx₀, hin, rfl⟩ := initialCommitTx_setCommitNumber h
    exact setCommitNumber_carries sha256 pubkeyToDer basepoint funder hn hin fundingTxid fundingTxout

end CommitNumber

/-- A stand-in for SHA256 that keeps only the length of its input. -/
def lengthHash (bytes : List UInt8) : Fixed 32 :=
  ⟨List.replicate 31 0 ++ [bytes.length.toUInt8], by simp⟩

/-- A stand-in for `pubkey_to_der`, one key per side. -/
def sideDer (s : Side) : Fixed 33 :=
  ⟨List.replicate 33 (if s = .local then 2 else 3), List.length_replicate⟩

/-- With the remote side funding, both builders make a transaction from the amounts and the
HTLC of `commitTx_outputs_offered`, and number 5 is read back from each. -/
theorem commitTx_commitNumber_remoteFunder :
    (5 : BitVec 64).toNat < 2 ^ 48 ∧
    (∃ tx htlcmap, commitTx byteScripts zeroTxid 0 10000 .remote 1000 546 5000000 3000000
        [offeredHtlc] (5 ^^^ commitNumberObscurer lengthHash sideDer .remote .local) .local 0 =
          some (tx, htlcmap) ∧
      CarriesCommitNumber lengthHash sideDer .local .remote .remote 5 tx) ∧
    (∃ tx, initialCommitTx byteScripts zeroTxid 0 10000 .remote 1000 546 5000000 3000000 10000
        (5 ^^^ commitNumberObscurer lengthHash sideDer .remote .local) .local = some (some tx) ∧
      CarriesCommitNumber lengthHash sideDer .local .remote .remote 5 tx) := by
  obtain ⟨hexists, hcarries, hinitialExists, hinitialCarries⟩ :=
    commitTx_commitNumber lengthHash sideDer id .remote (n := 5) (by decide)
  obtain ⟨tx, htlcmap, htx⟩ := hexists byteScripts zeroTxid 0 10000 1000 546 5000000 3000000
    [offeredHtlc] .local 0 (by decide) (by decide)
  obtain ⟨itx, hitx⟩ := hinitialExists byteScripts zeroTxid 0 10000 1000 546 5000000 3000000 10000
    .local 5000000 2276000 (by decide) (by decide) (by decide)
  exact ⟨by decide, ⟨tx, htlcmap, htx, hcarries _ _ _ _ _ _ _ _ _ _ _ _ _ htx⟩,
    ⟨itx, hitx, hinitialCarries _ _ _ _ _ _ _ _ _ _ _ hitx⟩⟩

end Dexfin.Lightning
