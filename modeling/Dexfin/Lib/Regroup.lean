import Mathlib.Data.BitVec

/-!
# Regrouping bits

`bech32_convert_bits`: a string of `inbits`-bit groups read into `outbits`-bit groups through
a 32-bit accumulator. Every complete output group is written as soon as it is there; what is
left at the end is padded into one more group when `pad` is set, and must otherwise be fewer
than `inbits` bits, all zero. Only the padded conversion always succeeds
(`convertBits_pad_isSome`); without padding, an input whose bit count leaves `inbits` or more
bits over fails whatever its values (`convertBits_eq_none_of_le`).
-/

namespace Regroup

/-- The inner loop: while `bits ≥ outbits`, write the top `outbits` of the `bits` low bits of
`val`. `fuel` bounds the rounds; `bits` of it are enough once `outbits` is positive. -/
def emitGroups (outbits : ℕ) (maxv val : BitVec 32) : ℕ → ℕ → List (BitVec 8) → ℕ × List (BitVec 8)
  | 0, bits, out => (bits, out)
  | fuel + 1, bits, out =>
    if outbits ≤ bits then
      emitGroups outbits maxv val fuel (bits - outbits)
        (out ++ [((val >>> (bits - outbits)) &&& maxv).setWidth 8])
    else (bits, out)

/-- One input group: shifted into the accumulator, then every complete output group
written. -/
def step (outbits inbits : ℕ) {w : ℕ} (acc : BitVec 32 × ℕ × List (BitVec 8)) (x : BitVec w) :
    BitVec 32 × ℕ × List (BitVec 8) :=
  let maxv : BitVec 32 := (1 <<< outbits) - 1
  let val := (acc.1 <<< inbits) ||| x.setWidth 32
  let emitted := emitGroups outbits maxv val (acc.2.1 + inbits) (acc.2.1 + inbits) acc.2.2
  (val, emitted)

/-- `bech32_convert_bits`. -/
def convertBits (outbits inbits : ℕ) (pad : Bool) {w : ℕ} (input : List (BitVec w)) :
    Option (List (BitVec 8)) :=
  let maxv : BitVec 32 := (1 <<< outbits) - 1
  let (val, bits, out) := input.foldl (step outbits inbits) (0, 0, [])
  if pad then
    if bits ≠ 0 then some (out ++ [((val <<< (outbits - bits)) &&& maxv).setWidth 8])
    else some out
  else if ((val <<< (outbits - bits)) &&& maxv) ≠ 0 ∨ inbits ≤ bits then none
  else some out

/-- The padded conversion never fails. -/
theorem convertBits_pad_isSome (outbits inbits : ℕ) {w : ℕ} (input : List (BitVec w)) :
    (convertBits outbits inbits true input).isSome := by
  unfold convertBits
  obtain ⟨val, bits, out⟩ := input.foldl (step outbits inbits) (0, 0, [])
  simp only [if_true]
  split_ifs <;> rfl

/-- The unpadded conversion fails when `inbits` or more bits are left over. -/
theorem convertBits_eq_none_of_le (outbits inbits : ℕ) {w : ℕ} (input : List (BitVec w))
    (hleft : inbits ≤ (input.foldl (step outbits inbits) (0, 0, [])).2.1) :
    convertBits outbits inbits false input = none := by
  unfold convertBits
  generalize input.foldl (step outbits inbits) (0, 0, []) = acc at hleft
  obtain ⟨val, bits, out⟩ := acc
  simp only [Bool.false_eq_true, if_false]
  exact if_pos (Or.inr hleft)

end Regroup
