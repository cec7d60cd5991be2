import Mathlib.Data.BitVec
import Mathlib.Data.List.Find
import Dexfin.Lib.BitTree
import Dexfin.Lib.Bytes
import Dexfin.Lib.LowBits

/-!
# The shachain of lnd

`src/lnd/shachain`: secrets indexed by 48-bit numbers, each derived from any index it lies
below in a binary tree by flipping bits and hashing (`element.derive`), handed out from
`startIndex = 2 ^ 48 - 1` down. `RevocationStore` keeps one element per trailing-zero count
(`AddNextEntry`), checks each new one against the lower buckets, and derives old secrets from
them (`LookUp`). `sha256` is a parameter: every result holds for any hash function.

An index is a `uint64` and a count or a bit position a `uint8`; the bytes of a hash are
`UInt8`. The derivation is `BitTree.derive` at height `48` (`Element.derive_eq`), with
`countTrailingZeros` the tree's trailing zeros and `getPrefix` its clearing of low bits.
What a call returns beside the Go `error` is the store after it; a Go panic (an array index
out of range) is `Panic`.
-/

namespace Dexfin.Lnd.Shachain

/-- `index`. -/
abbrev Index := BitVec 64

/-- `chainhash.Hash`. -/
abbrev Hash := Vector UInt8 32

/-- `maxHeight`. -/
def maxHeight : BitVec 8 := 48

/-- `rootIndex`. -/
def rootIndex : Index := 0

/-- `startIndex`. -/
def startIndex : Index := (1 <<< maxHeight.toNat) - 1

/-- `newIndex`. -/
def newIndex (v : BitVec 64) : Index := startIndex - v

/-- `getBit`. -/
def getBit (index : Index) (position : BitVec 8) : BitVec 8 :=
  ((index >>> position.toNat) &&& 1).setWidth 8

/-- `getPrefix`: `index` with its bits below `position` cleared. -/
def getPrefix (index : Index) (position : BitVec 8) : BitVec 64 :=
  let zero : BitVec 64 := 0
  let mask := (zero - 1) - (((1 : BitVec 64) <<< position.toNat) - 1)
  index &&& mask

/-- `countTrailingZeros`: the first set bit below `maxHeight`, or `maxHeight`. -/
def countTrailingZeros (index : Index) : BitVec 8 :=
  BitVec.ofNat 8 (((List.range maxHeight.toNat).find? fun zeros =>
    getBit index (BitVec.ofNat 8 zeros) != 0).getD maxHeight.toNat)

/-- `changeBit`: bit `position % 8` of byte `position / 8`. A `uint8` position names a byte
of the 32. -/
def changeBit (hash : Hash) (position : BitVec 8) : Hash :=
  hash.set (position.toNat / 8)
    (hash.get ⟨position.toNat / 8, by have := position.isLt; omega⟩ ^^^
      ((1 : UInt8) <<< (position.toNat % 8).toUInt8)) (by have := position.isLt; omega)

/-- The errors of the package. -/
inductive ShachainError
  /-- "prefixes are different - indexes aren't derivable" -/
  | prefixesDiffer
  /-- "hash isn't derivable from previous ones" -/
  | notDerivable
  /-- "unable to derive hash #%v" -/
  | unableToDerive (ind : Index)
  deriving DecidableEq, Repr

/-- A Go run-time panic: here an index out of the range of an array. -/
inductive Panic
  | indexOutOfRange
  deriving DecidableEq, Repr

/-- The loop of `deriveBitTransformations`: the positions from `position` down to `0` where
`toIndex` has a set bit. -/
def collectPositions (toIndex : Index) (position : ℕ) : List (BitVec 8) :=
  (if getBit toIndex (BitVec.ofNat 8 position) = 1 then [BitVec.ofNat 8 position] else []) ++
    match position with
    | 0 => []
    | position + 1 => collectPositions toIndex position

/-- `deriveBitTransformations`. -/
def deriveBitTransformations (fromIndex toIndex : Index) :
    Except ShachainError (List (BitVec 8)) :=
  if fromIndex = toIndex then .ok []
  else
    let zeros := countTrailingZeros fromIndex
    if fromIndex ≠ getPrefix toIndex zeros then .error .prefixesDiffer
    else .ok (collectPositions toIndex (zeros - 1).toNat)

/-- `element`. -/
structure Element where
  index : Index
  hash : Hash
  deriving DecidableEq, Repr

/-- The zero `element` that a fresh array holds. -/
def zeroElement : Element := ⟨0, Vector.replicate 32 0⟩

section Hashing

variable (sha256 : List UInt8 → Hash)

/-- `element.derive`: a bit flip and a hash for each position. The loop flips the bit as
`changeBit` does. `chainhash.NewHash` cannot fail on the 32 bytes of a hash. -/
def Element.derive (e : Element) (toIndex : Index) : Except ShachainError Element := do
  let positions ← deriveBitTransformations e.index toIndex
  let buf := positions.foldl (fun buf position => sha256 (changeBit buf position).toList) e.hash
  return { index := toIndex, hash := buf }

/-- `element.isEqual`. -/
def Element.isEqual (e e2 : Element) : Bool := e.index == e2.index && e.hash == e2.hash

/-- `RevocationStore`. `NewRevocationStoreFromBytes` panics before it has more than
`maxHeight` buckets, so none has. -/
structure RevocationStore where
  lenBuckets : BitVec 8
  buckets : Vector Element 48
  index : Index
  lenBuckets_le : lenBuckets.toNat ≤ 48

/-- `NewRevocationStore`. -/
def newRevocationStore : RevocationStore :=
  ⟨0, Vector.replicate 48 zeroElement, startIndex, by decide⟩

/-- The loop of `LookUp` over the active buckets: the first that derives `ind`. -/
def lookUpIn (ind : Index) : List Element → Except ShachainError Hash
  | [] => .error (.unableToDerive ind)
  | bucket :: buckets =>
    match bucket.derive sha256 ind with
    | .ok element => .ok element.hash
    | .error _ => lookUpIn ind buckets

/-- `RevocationStore.LookUp`. -/
def RevocationStore.lookUp (store : RevocationStore) (v : BitVec 64) :
    Except ShachainError Hash :=
  lookUpIn sha256 (newIndex v) (store.buckets.toList.take store.lenBuckets.toNat)

/-- The loop of `AddNextEntry` over the buckets below the new one: each must be derived from
the new element. -/
def checkBuckets (newElement : Element) : List Element → Option ShachainError
  | [] => none
  | bucket :: buckets =>
    match newElement.derive sha256 bucket.index with
    | .error err => some err
    | .ok e => if e.isEqual bucket then checkBuckets newElement buckets else some .notDerivable

/-- The writes of `AddNextEntry` once its checks pass. -/
def RevocationStore.put (store : RevocationStore) (bucket : BitVec 8) (e : Element)
    (hb : bucket.toNat < 48) : RevocationStore where
  lenBuckets := if bucket + 1 > store.lenBuckets then bucket + 1 else store.lenBuckets
  buckets := store.buckets.set bucket.toNat e hb
  index := store.index - 1
  lenBuckets_le := by
    have hone : (1 : BitVec 8).toNat = 1 := rfl
    split
    · rw [BitVec.toNat_add_of_lt (by rw [hone]; omega), hone]
      exact hb
    · exact store.lenBuckets_le

/-- `RevocationStore.AddNextEntry`: the `error` it returns and the store after it. Storing in
bucket `maxHeight` indexes past the array. -/
def RevocationStore.addNextEntry (store : RevocationStore) (hash : Hash) :
    Except Panic (Option ShachainError × RevocationStore) :=
  let newElement : Element := { index := store.index, hash := hash }
  let bucket := countTrailingZeros newElement.index
  match checkBuckets sha256 newElement (store.buckets.toList.take bucket.toNat) with
  | some err => .ok (some err, store)
  | none =>
    if hb : bucket.toNat < 48 then .ok (none, store.put bucket newElement hb)
    else .error .indexOutOfRange

/-- `RevocationProducer.AtIndex` for the producer of `root`. -/
def RevocationProducer.atIndex (root : Hash) (v : BitVec 64) : Except ShachainError Hash := do
  let element ← (Element.mk rootIndex root).derive sha256 (newIndex v)
  return element.hash

end Hashing

/-! ## Indices as nodes of the tree -/

@[simp] theorem toNat_maxHeight : maxHeight.toNat = 48 := rfl

theorem toNat_startIndex : startIndex.toNat = 2 ^ 48 - 1 := by decide

/-- Below `2 ^ 48` the `v`-th index is `2 ^ 48 - 1 - v`. -/
theorem toNat_newIndex {v : BitVec 64} (hv : v.toNat < 2 ^ 48) :
    (newIndex v).toNat = 2 ^ 48 - 1 - v.toNat := by
  unfold newIndex
  rw [BitVec.toNat_sub_of_le (by rw [BitVec.le_def, toNat_startIndex]; omega), toNat_startIndex]

/-- From `2 ^ 48` on the index wraps around to `2 ^ 48` or more. -/
theorem two_pow_le_toNat_newIndex {v : BitVec 64} (hv : 2 ^ 48 ≤ v.toNat) :
    2 ^ 48 ≤ (newIndex v).toNat := by
  have hlt := v.isLt
  unfold newIndex
  rw [BitVec.toNat_sub, toNat_startIndex, Nat.mod_eq_of_lt (by omega)]
  omega

theorem toNat_getBit (index : Index) (position : BitVec 8) :
    (getBit index position).toNat = index.toNat / 2 ^ position.toNat % 2 := by
  simp [getBit, BitVec.toNat_and, BitVec.toNat_ushiftRight, Nat.shiftRight_eq_div_pow]

theorem getBit_eq_one_iff (index : Index) (position : BitVec 8) :
    getBit index position = 1 ↔ index.toNat.testBit position.toNat := by
  rw [← BitVec.toNat_inj, toNat_getBit, Nat.testBit_eq_decide_div_mod_eq]
  simp

theorem getBit_ne_zero_iff (index : Index) (position : BitVec 8) :
    getBit index position ≠ 0 ↔ index.toNat.testBit position.toNat := by
  rw [← getBit_eq_one_iff, ← BitVec.toNat_ne_iff_ne, ← BitVec.toNat_inj, toNat_getBit]
  simp

/-- `getPrefix` clears the low bits of the tree. -/
theorem toNat_getPrefix (index : Index) {position : BitVec 8} (hp : position.toNat ≤ 63) :
    (getPrefix index position).toNat = BitTree.clearBelow index.toNat position.toNat := by
  have hpow : ((1 : BitVec 64) <<< position.toNat).toNat = 2 ^ position.toNat := by
    have hone : (1 : BitVec 64).toNat = 1 := rfl
    rw [BitVec.toNat_shiftLeft, hone, Nat.shiftLeft_eq, Nat.one_mul]
    exact Nat.mod_eq_of_lt (Nat.pow_lt_pow_right (by decide) (by omega))
  have hpos := Nat.two_pow_pos position.toNat
  have hlow : (((1 : BitVec 64) <<< position.toNat) - 1).toNat = 2 ^ position.toNat - 1 := by
    rw [BitVec.toNat_sub_of_le (by rw [BitVec.le_def, hpow]; simp; omega), hpow]
    simp
  have hones : ((0 : BitVec 64) - 1).toNat = 2 ^ 64 - 1 := by decide
  -- the mask is the bits from `position` to `63`
  have hmask : ((0 : BitVec 64) - 1 - (((1 : BitVec 64) <<< position.toNat) - 1)).toNat =
      2 ^ 64 - 2 ^ position.toNat := by
    rw [BitVec.toNat_sub_of_le (by rw [BitVec.le_def, hones, hlow]; omega), hones, hlow]
    have : 2 ^ position.toNat ≤ 2 ^ 64 := Nat.pow_le_pow_right (by decide) (by omega)
    omega
  simp only [getPrefix, BitVec.toNat_and, hmask]
  exact LowBits.land_two_pow_sub_two_pow index.isLt (by omega)

/-- `countTrailingZeros` counts the trailing zeros of the tree of height `48`. -/
theorem toNat_countTrailingZeros (index : Index) :
    (countTrailingZeros index).toNat = BitTree.trailingZeros 48 index.toNat := by
  have hfind : ((List.range 48).find? fun zeros => getBit index (BitVec.ofNat 8 zeros) != 0) =
      (List.range 48).find? index.toNat.testBit := by
    apply List.find?_congr
    intro zeros hzeros
    have hz : (BitVec.ofNat 8 zeros).toNat = zeros := by
      rw [BitVec.toNat_ofNat]
      have := List.mem_range.mp hzeros
      omega
    have := getBit_ne_zero_iff index (BitVec.ofNat 8 zeros)
    rw [hz] at this
    exact Bool.eq_iff_iff.mpr (by rw [bne_iff_ne]; exact this)
  have hle := BitTree.trailingZeros_le 48 index.toNat
  unfold countTrailingZeros
  rw [toNat_maxHeight, hfind, BitVec.toNat_ofNat]
  exact Nat.mod_eq_of_lt (by unfold BitTree.trailingZeros at hle; omega)

theorem countTrailingZeros_le (index : Index) : (countTrailingZeros index).toNat ≤ 48 := by
  rw [toNat_countTrailingZeros]
  exact BitTree.trailingZeros_le 48 index.toNat

/-- The positions of `deriveBitTransformations` are the steps of the tree, from the top
down. -/
theorem collectPositions_eq (toIndex : Index) {position : ℕ} (hp : position < 256) :
    collectPositions toIndex position =
      (BitTree.setBitsBelow toIndex.toNat (position + 1)).map (BitVec.ofNat 8) := by
  induction position with
  | zero =>
    have := getBit_eq_one_iff toIndex 0
    simp only [collectPositions, BitTree.setBitsBelow, List.append_nil]
    by_cases hbit : toIndex.toNat.testBit 0 <;> simp_all
  | succ position ih =>
    have hbit := getBit_eq_one_iff toIndex (BitVec.ofNat 8 (position + 1))
    rw [BitVec.toNat_ofNat, Nat.mod_eq_of_lt hp] at hbit
    rw [collectPositions, ih (by omega), BitTree.setBitsBelow.eq_2 _ (position + 1),
      List.map_append]
    by_cases htest : toIndex.toNat.testBit (position + 1) <;> simp_all

/-- `deriveBitTransformations` succeeds exactly when `toIndex` is below `fromIndex` in the
tree, with the tree's steps. -/
theorem deriveBitTransformations_eq (fromIndex toIndex : Index) :
    deriveBitTransformations fromIndex toIndex =
      if BitTree.Derives 48 fromIndex.toNat toIndex.toNat then
        .ok ((BitTree.setBitsBelow toIndex.toNat
          (BitTree.trailingZeros 48 fromIndex.toNat)).map (BitVec.ofNat 8))
      else .error .prefixesDiffer := by
  unfold deriveBitTransformations
  by_cases heq : fromIndex = toIndex
  · -- a node derives itself in no steps
    subst heq
    rw [if_pos rfl, if_pos (BitTree.derives_refl _), BitTree.setBitsBelow_trailingZeros]
    rfl
  · have hz := toNat_countTrailingZeros fromIndex
    have hzle := countTrailingZeros_le fromIndex
    have hclear : fromIndex = getPrefix toIndex (countTrailingZeros fromIndex) ↔
        BitTree.Derives 48 fromIndex.toNat toIndex.toNat := by
      rw [← BitVec.toNat_inj, toNat_getPrefix toIndex (by omega), hz, BitTree.Derives, eq_comm]
    simp only [if_neg heq, ne_eq]
    by_cases hder : BitTree.Derives 48 fromIndex.toNat toIndex.toNat
    · rw [if_neg (not_not.mpr (hclear.mpr hder)), if_pos hder]
      -- a node with no trailing zeros derives only itself
      have hpos : 0 < BitTree.trailingZeros 48 fromIndex.toNat := by
        by_contra h0
        apply heq
        rw [← BitVec.toNat_inj, ← hder, show BitTree.trailingZeros 48 fromIndex.toNat = 0 by omega]
        simp [BitTree.clearBelow, Nat.mod_one]
      have hsub : (countTrailingZeros fromIndex - 1).toNat + 1 =
          BitTree.trailingZeros 48 fromIndex.toNat := by
        rw [BitVec.toNat_sub_of_le (by rw [BitVec.le_def]; simp; omega)]
        simp
        omega
      rw [collectPositions_eq toIndex (by omega), hsub]
    · rw [if_pos (mt hclear.mp hder), if_neg hder]

section Hashing

variable (sha256 : List UInt8 → Hash)

/-- One step of a derivation: flip the bit at the position, then hash. -/
def hashStep (position : ℕ) (buf : Hash) : Hash :=
  sha256 (changeBit buf (BitVec.ofNat 8 position)).toList

/-- `element.derive` is the derivation of the tree with `hashStep`. -/
theorem Element.derive_eq (e : Element) (toIndex : Index) :
    e.derive sha256 toIndex =
      if BitTree.Derives 48 e.index.toNat toIndex.toNat then
        .ok ⟨toIndex, BitTree.derive 48 (hashStep sha256) e.index.toNat toIndex.toNat e.hash⟩
      else .error .prefixesDiffer := by
  unfold Element.derive
  rw [deriveBitTransformations_eq]
  split
  · simp only [bind, Except.bind, pure, Except.pure, List.foldl_map, BitTree.derive, hashStep]
  · rfl

end Hashing

/-! ## The binary form of a store -/

/-- `binary.Write` of a `uint64`, big-endian. -/
def putUint64 (v : BitVec 64) : List UInt8 := (Bytes.leFixed 8 v.toNat).reverse

/-- `RevocationStore.Encode`: the bucket count, the active buckets, the index. -/
def RevocationStore.encode (store : RevocationStore) : List UInt8 :=
  [store.lenBuckets.toNat.toUInt8] ++
    (store.buckets.toList.take store.lenBuckets.toNat).flatMap
      (fun element => putUint64 element.index ++ element.hash.toList) ++
    putUint64 store.index

/-- The errors of `io.ReadFull`. -/
inductive ReadError
  /-- `io.EOF`: nothing was left to read. -/
  | eof
  /-- `io.ErrUnexpectedEOF`: fewer bytes were left than asked for. -/
  | unexpectedEOF
  deriving DecidableEq, Repr

/-- `io.ReadFull` of `n` bytes from what is left of the reader. -/
def readFull (n : ℕ) (r : List UInt8) : Except ReadError (Vector UInt8 n × List UInt8) :=
  if h : r.length < n then .error (if r = [] then .eof else .unexpectedEOF)
  else .ok (⟨(r.take n).toArray, by simp only [List.size_toArray, List.length_take]; omega⟩,
    r.drop n)

/-- `binary.Read` of a `uint64`, big-endian. -/
def getUint64 (bytes : Vector UInt8 8) : BitVec 64 := BitVec.ofNat 64 (Bytes.beValue bytes.toList)

/-- The loop of `NewRevocationStoreFromBytes`: `count` more elements from bucket `i` on. -/
def readBuckets : ℕ → ℕ → Vector Element 48 → List UInt8 →
    Except Panic (Except ReadError (Vector Element 48 × List UInt8))
  | 0, _, buckets, r => .ok (.ok (buckets, r))
  | count + 1, i, buckets, r =>
    match readFull 8 r with
    | .error err => .ok (.error err)
    | .ok (indexBytes, r) =>
      match readFull 32 r with
      | .error err => .ok (.error err)
      | .ok (nextHash, r) =>
        if hi : i < 48 then
          readBuckets count (i + 1) (buckets.set i ⟨getUint64 indexBytes, nextHash⟩ hi) r
        else .error .indexOutOfRange

/-- `NewRevocationStoreFromBytes`. The bucket loop has stored all `lenBuckets` elements, so
there are at most `maxHeight` of them; the last branch is never taken. -/
def newRevocationStoreFromBytes (r : List UInt8) :
    Except Panic (Except ReadError RevocationStore) :=
  match readFull 1 r with
  | .error err => .ok (.error err)
  | .ok (lenBytes, r) =>
    let lenBuckets : BitVec 8 := BitVec.ofNat 8 lenBytes[0].toNat
    match readBuckets lenBuckets.toNat 0 (Vector.replicate 48 zeroElement) r with
    | .error p => .error p
    | .ok (.error err) => .ok (.error err)
    | .ok (.ok (buckets, r)) =>
      match readFull 8 r with
      | .error err => .ok (.error err)
      | .ok (indexBytes, _) =>
        if h : lenBuckets.toNat ≤ 48 then .ok (.ok ⟨lenBuckets, buckets, getUint64 indexBytes, h⟩)
        else .error .indexOutOfRange

/-! ## Decoding what was encoded -/

theorem length_putUint64 (v : BitVec 64) : (putUint64 v).length = 8 := by
  simp [putUint64]

theorem beValue_putUint64 (v : BitVec 64) : Bytes.beValue (putUint64 v) = v.toNat := by
  rw [putUint64, Bytes.beValue, List.reverse_reverse, Bytes.leValue_leFixed]
  exact Nat.mod_eq_of_lt v.isLt

/-- Reading `n` bytes off a reader that starts with `n` bytes gives them. -/
theorem readFull_append {n : ℕ} (bytes rest : List UInt8) (hlen : bytes.length = n) :
    ∃ v, readFull n (bytes ++ rest) = .ok (v, rest) ∧ v.toList = bytes := by
  have hnot : ¬ (bytes ++ rest).length < n := by simp; omega
  refine ⟨⟨((bytes ++ rest).take n).toArray, by simp; omega⟩, ?_, ?_⟩
  · rw [readFull, dif_neg hnot, List.drop_left' hlen]
  · simp [List.take_left' hlen]

theorem readFull_hash_append (hash : Hash) (rest : List UInt8) :
    readFull 32 (hash.toList ++ rest) = .ok (hash, rest) := by
  obtain ⟨v, hread, hv⟩ := readFull_append hash.toList rest hash.length_toList
  rw [hread, Vector.toList_inj.mp hv]

theorem readFull_putUint64_append (index : BitVec 64) (rest : List UInt8) :
    ∃ v, readFull 8 (putUint64 index ++ rest) = .ok (v, rest) ∧ getUint64 v = index := by
  obtain ⟨v, hread, hv⟩ := readFull_append (putUint64 index) rest (length_putUint64 index)
  refine ⟨v, hread, ?_⟩
  rw [getUint64, hv, beValue_putUint64, BitVec.ofNat_toNat, BitVec.setWidth_eq]

theorem take_succ_toList_set {n : ℕ} (buckets : Vector Element n) {i : ℕ} (hi : i < n)
    (e : Element) : (buckets.set i e hi).toList.take (i + 1) = buckets.toList.take i ++ [e] := by
  rw [Vector.toList_set, List.set_eq_take_append_cons_drop, if_pos (by simp [hi]), List.take_append,
    List.take_take, List.length_take, Vector.length_toList, Nat.min_eq_right (Nat.le_succ i),
    Nat.min_eq_left hi.le, Nat.add_sub_cancel_left]
  rfl

/-- The bucket loop reads back the elements it is given, bucket after bucket. -/
theorem readBuckets_flatMap (es : List Element) (i : ℕ) (buckets : Vector Element 48)
    (rest : List UInt8) (hi : i + es.length ≤ 48) :
    ∃ buckets', readBuckets es.length i buckets
        (es.flatMap (fun element => putUint64 element.index ++ element.hash.toList) ++ rest) =
          .ok (.ok (buckets', rest)) ∧
      buckets'.toList.take (i + es.length) = buckets.toList.take i ++ es := by
  induction es generalizing i buckets with
  | nil => exact ⟨buckets, rfl, by simp⟩
  | cons e es ih =>
    have hlt : i < 48 := by simp at hi; omega
    obtain ⟨v, hread, hindex⟩ := readFull_putUint64_append e.index
      (e.hash.toList ++ (es.flatMap (fun element => putUint64 element.index ++
        element.hash.toList) ++ rest))
    obtain ⟨buckets', hloop, htake⟩ := ih (i + 1) (buckets.set i e hlt) (by simp at hi; omega)
    refine ⟨buckets', ?_, ?_⟩
    · simp only [List.flatMap_cons, List.length_cons, List.append_assoc]
      rw [readBuckets, hread]
      simp only [readFull_hash_append, dif_pos hlt, hindex]
      exact hloop
    · rw [List.length_cons, show i + (es.length + 1) = i + 1 + es.length by omega, htake,
        take_succ_toList_set, List.append_assoc, List.singleton_append]

/-- `NewRevocationStoreFromBytes` reads an encoded store back: the same bucket count,
active buckets and index. -/
theorem newRevocationStoreFromBytes_encode (store : RevocationStore) (rest : List UInt8) :
    ∃ store', newRevocationStoreFromBytes (store.encode ++ rest) = .ok (.ok store') ∧
      store'.lenBuckets = store.lenBuckets ∧ store'.index = store.index ∧
      store'.buckets.toList.take store'.lenBuckets.toNat =
        store.buckets.toList.take store.lenBuckets.toNat := by
  have hle := store.lenBuckets_le
  set es := store.buckets.toList.take store.lenBuckets.toNat with hes
  have hlen : es.length = store.lenBuckets.toNat := by simp [hes]; omega
  obtain ⟨lenBytes, hreadLen, hlenBytes⟩ := readFull_append (n := 1)
    [store.lenBuckets.toNat.toUInt8]
    (es.flatMap (fun element => putUint64 element.index ++ element.hash.toList) ++
      (putUint64 store.index ++ rest)) rfl
  -- the count byte is the bucket count
  have hcount : BitVec.ofNat 8 (lenBytes[0]).toNat = store.lenBuckets := by
    have h0 : lenBytes[0] = store.lenBuckets.toNat.toUInt8 := by
      have : lenBytes.toList[0]? = some store.lenBuckets.toNat.toUInt8 := by rw [hlenBytes]; rfl
      simpa using this
    have hbyte : store.lenBuckets.toNat.toUInt8.toNat = store.lenBuckets.toNat := by
      simpa using store.lenBuckets.isLt
    rw [h0, hbyte, BitVec.ofNat_toNat, BitVec.setWidth_eq]
  obtain ⟨buckets', hloop, htake⟩ := readBuckets_flatMap es 0 (Vector.replicate 48 zeroElement)
    (putUint64 store.index ++ rest) (by omega)
  obtain ⟨indexBytes, hreadIndex, hindex⟩ := readFull_putUint64_append store.index rest
  refine ⟨⟨store.lenBuckets, buckets', store.index, hle⟩, ?_, rfl, rfl, ?_⟩
  · rw [RevocationStore.encode, ← hes, List.append_assoc, List.append_assoc,
      newRevocationStoreFromBytes, hreadLen]
    rw [hlen] at hloop
    simp only [hcount, hloop, hreadIndex, hindex, dif_pos hle]
  · rw [← hlen]
    simpa using htake

end Dexfin.Lnd.Shachain
