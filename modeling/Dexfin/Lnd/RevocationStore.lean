import Dexfin.Lnd.Shachain

/-!
# What the revocation store keeps

Counted from `1`, the `m`-th secret handed out has index `2 ^ 48 - m`, and its node in the
tree derives the counts `m - 2 ^ t + 1, …, m` of a Fenwick tree, `2 ^ t` the lowest power of
two in `m` (`BitTree.derives_two_pow_sub_iff`). A store `Represents` the secrets `hs` given
to it when its next index is that of the next secret, the secrets agree along the tree
(`Coherent`), every level (trailing-zero count) of a count up to `hs.length` is an active
bucket, and each active bucket holds the latest secret of its level.

`AddNextEntry` checks the new secret against the buckets below its level only, which hold the
counts `m - 2 ^ j`. By `BitTree.covers_child` and `BitTree.derive_trans` that is the same as
checking it against every earlier secret it derives (`checkBuckets_eq_none_iff_accepts`): a
call succeeds exactly when the secret may follow the earlier ones, and a call that fails
leaves the store as it was (`Represents.addNextEntry_of_accepts`,
`Represents.addNextEntry_of_not_accepts`). A store that represents `hs` answers `LookUp` with
`hs` and fails past it (`Represents.lookUp_eq`), and so does the store read back from its
encoding (`lookUp_decode_encode`). The producer's secrets always follow each other
(`accepts_atIndex`), but the `2 ^ 48`-th, at index `0`, has `48` trailing zeros, and storing it
indexes past the `48` buckets (`addNextEntry_panics_on_last_secret`).
-/

namespace Dexfin.Lnd.Shachain

open BitTree

theorem mem_take_iff_getElem? {α : Type} {l : List α} {t : ℕ} {b : α} :
    b ∈ l.take t ↔ ∃ j < t, l[j]? = some b := by
  rw [List.mem_iff_getElem?]
  constructor
  · rintro ⟨j, hj⟩
    rw [List.getElem?_take] at hj
    split at hj
    · exact ⟨j, by assumption, hj⟩
    · cases hj
  · rintro ⟨j, hjt, hj⟩
    exact ⟨j, by rw [List.getElem?_take, if_pos hjt, hj]⟩

theorem mapM_eq_ok {α β ε : Type} {f : α → Except ε β} {g : α → β} :
    ∀ {l : List α}, (∀ x ∈ l, f x = .ok (g x)) → l.mapM f = .ok (l.map g)
  | [], _ => rfl
  | x :: l, h => by
    rw [List.mapM_cons, h x List.mem_cons_self,
      mapM_eq_ok fun y hy => h y (List.mem_cons_of_mem x hy)]
    rfl

/-- Below `2 ^ 48`, the `k`-th index is that of the `k + 1`-th secret. -/
theorem toNat_newIndex_ofNat {k : ℕ} (hk : k < 2 ^ 48) :
    (newIndex (BitVec.ofNat 64 k)).toNat = 2 ^ 48 - (k + 1) := by
  have hmod : (BitVec.ofNat 64 k).toNat = k := by
    rw [BitVec.toNat_ofNat]
    exact Nat.mod_eq_of_lt (by omega)
  rw [toNat_newIndex (by omega), hmod]
  omega

section Store

variable (sha256 : List UInt8 → Hash)

/-! ## Derivations between secrets -/

theorem Element.derive_index {e e' : Element} {toIndex : Index}
    (h : e.derive sha256 toIndex = .ok e') : e'.index = toIndex := by
  rw [Element.derive_eq] at h
  split at h
  · cases h
    rfl
  · cases h

theorem Element.isEqual_iff (e e2 : Element) : e.isEqual e2 = true ↔ e = e2 := by
  obtain ⟨i, h⟩ := e
  obtain ⟨i2, h2⟩ := e2
  simp [Element.isEqual]

/-- Between the `m`-th and `x`-th secrets a derivation succeeds exactly when `m` covers `x`. -/
theorem derive_counted (e : Element) {toIndex : Index} {m x : ℕ}
    (hidx : e.index.toNat = 2 ^ 48 - m) (hto : toIndex.toNat = 2 ^ 48 - x) (hm : 0 < m)
    (hmH : m ≤ 2 ^ 48) (hxH : x ≤ 2 ^ 48) :
    e.derive sha256 toIndex =
      if Covers 48 m x then
        .ok ⟨toIndex, derive 48 (hashStep sha256) (2 ^ 48 - m) (2 ^ 48 - x) e.hash⟩
      else .error .prefixesDiffer := by
  rw [Element.derive_eq]
  simp only [hidx, hto, derives_two_pow_sub_iff hm hmH hxH]

/-! ## The invariant -/

/-- `h` may follow the secrets `hs`: every earlier secret whose index `h` derives is derived
from it. -/
def Accepts (hs : List Hash) (h : Hash) : Prop :=
  ∀ i (hi : i < hs.length) e,
    (Element.mk (newIndex (BitVec.ofNat 64 hs.length)) h).derive sha256
      (newIndex (BitVec.ofNat 64 i)) = .ok e → e.hash = hs[i]

/-- Each secret of `hs` may follow those before it. -/
def Chain (hs : List Hash) : Prop :=
  ∀ k (hk : k < hs.length), Accepts sha256 (hs.take k) hs[k]

/-- The secrets agree along the tree: counted from `1`, the `k + 1`-th derives every secret it
covers. -/
def Coherent (hs : List Hash) : Prop :=
  ∀ k i (hk : k < hs.length) (hi : i < hs.length), Covers 48 (k + 1) (i + 1) →
    derive 48 (hashStep sha256) (2 ^ 48 - (k + 1)) (2 ^ 48 - (i + 1)) hs[k] = hs[i]

/-- `e` is the `m`-th secret of `hs`, counted from `1`, at its index. -/
def HoldsSecret (hs : List Hash) (m : ℕ) (e : Element) : Prop :=
  e.index.toNat = 2 ^ 48 - m ∧ hs[m - 1]? = some e.hash

/-- The store after the secrets `hs`. -/
structure Represents (hs : List Hash) (store : RevocationStore) : Prop where
  length_lt : hs.length < 2 ^ 48
  index_eq : store.index.toNat = 2 ^ 48 - 1 - hs.length
  coherent : Coherent sha256 hs
  /-- Every level of a count up to `hs.length` is an active bucket. -/
  active : ∀ m, 0 < m → m ≤ hs.length → trailingZeros 48 m < store.lenBuckets.toNat
  /-- An active bucket holds the latest secret of its level. -/
  bucket_eq : ∀ j < store.lenBuckets.toNat, ∃ m e, store.buckets.toList[j]? = some e ∧
    IsLatest 48 hs.length j m ∧ HoldsSecret hs m e

theorem represents_newRevocationStore : Represents sha256 [] newRevocationStore where
  length_lt := by decide
  index_eq := toNat_startIndex
  coherent := fun k _ hk => absurd hk (Nat.not_lt_zero k)
  active := fun m hm hle => absurd hle (by simp only [List.length_nil]; omega)
  bucket_eq := fun j hj => absurd hj (Nat.not_lt_zero j)

variable {sha256} {hs : List Hash} {store : RevocationStore}

/-- The store reads only its bucket count, its active buckets and its index. -/
theorem Represents.congr (hrep : Represents sha256 hs store) {store' : RevocationStore}
    (hlen : store'.lenBuckets = store.lenBuckets) (hindex : store'.index = store.index)
    (hbuckets : store'.buckets.toList.take store'.lenBuckets.toNat =
      store.buckets.toList.take store.lenBuckets.toNat) :
    Represents sha256 hs store' where
  length_lt := hrep.length_lt
  index_eq := hindex ▸ hrep.index_eq
  coherent := hrep.coherent
  active := fun m hm hle => hlen ▸ hrep.active m hm hle
  bucket_eq := fun j hj => by
    obtain ⟨m, e, he, hlatest, hsecret⟩ := hrep.bucket_eq j (hlen ▸ hj)
    refine ⟨m, e, ?_, hlatest, hsecret⟩
    have := congrArg (·[j]?) hbuckets
    simp only [List.getElem?_take] at this
    rw [if_pos hj, if_pos (hlen ▸ hj)] at this
    rw [this, he]

theorem Represents.index_eq_newIndex (hrep : Represents sha256 hs store) :
    store.index = newIndex (BitVec.ofNat 64 hs.length) := by
  apply BitVec.eq_of_toNat_eq
  rw [hrep.index_eq, toNat_newIndex_ofNat hrep.length_lt]
  omega

/-- The level of the next secret: the trailing zeros of its count, `48` at index `0`. -/
theorem Represents.toNat_countTrailingZeros (hrep : Represents sha256 hs store) :
    (countTrailingZeros store.index).toNat = trailingZeros 48 (hs.length + 1) := by
  have hn := hrep.length_lt
  rw [Shachain.toNat_countTrailingZeros, hrep.index_eq,
    show 2 ^ 48 - 1 - hs.length = 2 ^ 48 - (hs.length + 1) by omega,
    trailingZeros_two_pow_sub (by omega)]

/-- An active bucket holds a secret that came before. -/
theorem Represents.holds_of_mem (hrep : Represents sha256 hs store) {b : Element}
    (hb : b ∈ store.buckets.toList.take store.lenBuckets.toNat) :
    ∃ m, 0 < m ∧ m ≤ hs.length ∧ HoldsSecret hs m b := by
  obtain ⟨j, hj, hbj⟩ := mem_take_iff_getElem?.mp hb
  obtain ⟨m, e, he, hlatest, hsecret⟩ := hrep.bucket_eq j hj
  rw [hbj] at he
  cases he
  exact ⟨m, hlatest.1, hlatest.2.1, hsecret⟩

/-- Just before the `m`-th secret, `m = hs.length + 1`, each bucket `j` below the level of `m`
is active and holds the `m - 2 ^ j`-th. -/
theorem Represents.bucket_below (hrep : Represents sha256 hs store) {j : ℕ}
    (hj : j < trailingZeros 48 (hs.length + 1)) :
    ∃ e, store.buckets.toList[j]? = some e ∧ HoldsSecret hs (hs.length + 1 - 2 ^ j) e := by
  have hlatest := isLatest_sub_two_pow hj
  have hactive : j < store.lenBuckets.toNat := by
    have := hrep.active (hs.length + 1 - 2 ^ j) hlatest.1 hlatest.2.1
    rwa [hlatest.2.2.1] at this
  obtain ⟨m, e, he, hm, hsecret⟩ := hrep.bucket_eq j hactive
  rw [hm.unique hlatest] at hsecret
  exact ⟨e, he, hsecret⟩

/-! ## The checks of `AddNextEntry` -/

theorem checkBuckets_eq_none_iff (newElement : Element) (buckets : List Element) :
    checkBuckets sha256 newElement buckets = none ↔
      ∀ b ∈ buckets, newElement.derive sha256 b.index = .ok b := by
  induction buckets with
  | nil => simp [checkBuckets]
  | cons b buckets ih =>
    rw [checkBuckets, List.forall_mem_cons]
    split
    · rename_i err hder
      simp [hder]
    · rename_i e hder
      have hindex := Element.derive_index sha256 hder
      by_cases heq : e = b
      · subst heq
        simp [hder, (Element.isEqual_iff e e).mpr rfl, ih]
      · have hne : e.isEqual b = false := by
          rw [Bool.eq_false_iff]
          exact fun h => heq ((Element.isEqual_iff e b).mp h)
        simp [hder, hne, heq]

/-- Passing the checks is accepting: a secret the new one derives lies below one of its
children, which the buckets hold. -/
theorem Represents.accepts_of_checks (hrep : Represents sha256 hs store) (h : Hash)
    (hcheck : ∀ b ∈ store.buckets.toList.take (trailingZeros 48 (hs.length + 1)),
      (Element.mk store.index h).derive sha256 b.index = .ok b) :
    Accepts sha256 hs h := by
  intro i hi e hder
  have hn := hrep.length_lt
  have hidx : (Element.mk (newIndex (BitVec.ofNat 64 hs.length)) h).index.toNat =
      2 ^ 48 - (hs.length + 1) := toNat_newIndex_ofNat hn
  rw [derive_counted sha256 _ hidx (toNat_newIndex_ofNat (by omega)) (by omega) (by omega)
    (by omega)] at hder
  split at hder
  · rename_i hcov
    rw [← Except.ok.inj hder]
    -- the child `m - 2 ^ j` of `m = hs.length + 1` that covers `i + 1`
    obtain ⟨j, hj, -, hcovj⟩ := covers_child hcov (by omega)
    obtain ⟨b, hb, hbi, hbh⟩ := hrep.bucket_below hj
    have hpos : 0 < hs.length + 1 - 2 ^ j := by unfold Covers at hcovj; omega
    have hpow := Nat.two_pow_pos j
    have hchild := covers_sub_two_pow (Nat.succ_pos hs.length) hj
    have hcheckb := hcheck b (mem_take_iff_getElem?.mpr ⟨j, hj, hb⟩)
    rw [derive_counted sha256 _ (m := hs.length + 1) (hrep.index_eq.trans (by omega)) hbi (by omega) (by omega)
      (by omega), if_pos hchild] at hcheckb
    have hstep : derive 48 (hashStep sha256) (2 ^ 48 - (hs.length + 1))
        (2 ^ 48 - (hs.length + 1 - 2 ^ j)) h = b.hash :=
      congrArg Element.hash (Except.ok.inj hcheckb)
    have hk : hs.length - 2 ^ j < hs.length := by omega
    have hbk : hs[hs.length - 2 ^ j] = b.hash := by
      rw [show hs.length + 1 - 2 ^ j - 1 = hs.length - 2 ^ j by omega] at hbh
      simpa [List.getElem?_eq_getElem hk] using hbh
    have hder₁ := (derives_two_pow_sub_iff (by omega) (by omega) (by omega)).mpr hchild
    have hder₂ := (derives_two_pow_sub_iff hpos (by omega) (by omega)).mpr hcovj
    show derive 48 (hashStep sha256) _ _ h = hs[i]
    calc derive 48 (hashStep sha256) (2 ^ 48 - (hs.length + 1)) (2 ^ 48 - (i + 1)) h
        = derive 48 (hashStep sha256) (2 ^ 48 - (hs.length + 1 - 2 ^ j)) (2 ^ 48 - (i + 1))
            (derive 48 (hashStep sha256) (2 ^ 48 - (hs.length + 1))
              (2 ^ 48 - (hs.length + 1 - 2 ^ j)) h) := derive_trans _ hder₁ hder₂ h
      _ = derive 48 (hashStep sha256) (2 ^ 48 - (hs.length - 2 ^ j + 1)) (2 ^ 48 - (i + 1))
            hs[hs.length - 2 ^ j] := by
          rw [hstep, hbk, show hs.length - 2 ^ j + 1 = hs.length + 1 - 2 ^ j by omega]
      _ = hs[i] := hrep.coherent _ i hk hi
          (by rw [show hs.length - 2 ^ j + 1 = hs.length + 1 - 2 ^ j by omega]; exact hcovj)
  · cases hder

/-- An accepted secret passes the checks: each bucket below its level holds a child it
derives. -/
theorem Represents.checks_of_accepts (hrep : Represents sha256 hs store) {h : Hash}
    (hacc : Accepts sha256 hs h) :
    ∀ b ∈ store.buckets.toList.take (trailingZeros 48 (hs.length + 1)),
      (Element.mk store.index h).derive sha256 b.index = .ok b := by
  intro b hb
  have hn := hrep.length_lt
  obtain ⟨j, hj, hbj⟩ := mem_take_iff_getElem?.mp hb
  obtain ⟨b', hb', hbi, hbh⟩ := hrep.bucket_below hj
  rw [hbj] at hb'
  cases hb'
  have hchild := covers_sub_two_pow (Nat.succ_pos hs.length) hj
  have hpow := Nat.two_pow_pos j
  have hpos : 0 < hs.length + 1 - 2 ^ j := by unfold Covers at hchild; omega
  have hk : hs.length - 2 ^ j < hs.length := by omega
  -- the bucket's index is that of the `hs.length - 2 ^ j`-th call
  have hbindex : b.index = newIndex (BitVec.ofNat 64 (hs.length - 2 ^ j)) := by
    apply BitVec.eq_of_toNat_eq
    rw [hbi, toNat_newIndex_ofNat (by omega)]
    omega
  have hderive := derive_counted sha256 (Element.mk store.index h) (m := hs.length + 1)
    (hrep.index_eq.trans (by omega)) hbi (by omega) (by omega) (by omega)
  rw [if_pos hchild] at hderive
  have hhash := hacc (hs.length - 2 ^ j) hk _ (by rw [← hrep.index_eq_newIndex, ← hbindex]; exact hderive)
  rw [hderive]
  obtain ⟨bi, bh⟩ := b
  rw [show hs.length + 1 - 2 ^ j - 1 = hs.length - 2 ^ j by omega,
    List.getElem?_eq_getElem hk] at hbh
  simp only [Option.some.injEq] at hbh
  simp only at hhash
  rw [hhash, hbh]

/-- The checks of `AddNextEntry` pass exactly when the secret may follow the earlier ones. -/
theorem checkBuckets_eq_none_iff_accepts (hrep : Represents sha256 hs store) (h : Hash) :
    checkBuckets sha256 ⟨store.index, h⟩
        (store.buckets.toList.take (countTrailingZeros store.index).toNat) = none ↔
      Accepts sha256 hs h := by
  rw [checkBuckets_eq_none_iff, hrep.toNat_countTrailingZeros]
  exact ⟨hrep.accepts_of_checks h, hrep.checks_of_accepts⟩

/-! ## One call of `AddNextEntry` -/

theorem toNat_put_lenBuckets (store : RevocationStore) (bucket : BitVec 8) (e : Element)
    (hb : bucket.toNat < 48) :
    (store.put bucket e hb).lenBuckets.toNat = max (bucket.toNat + 1) store.lenBuckets.toNat := by
  have hone : (1 : BitVec 8).toNat = 1 := rfl
  have hsucc : (bucket + 1).toNat = bucket.toNat + 1 := by
    rw [BitVec.toNat_add_of_lt (by rw [hone]; omega), hone]
  simp only [RevocationStore.put]
  split
  · rename_i hgt
    simp only [gt_iff_lt, BitVec.lt_def, hsucc] at hgt
    rw [hsucc]
    omega
  · rename_i hle
    simp only [gt_iff_lt, BitVec.lt_def, hsucc] at hle
    omega

theorem getElem?_put_buckets (store : RevocationStore) (bucket : BitVec 8) (e : Element)
    (hb : bucket.toNat < 48) (j : ℕ) :
    (store.put bucket e hb).buckets.toList[j]? =
      if j = bucket.toNat then some e else store.buckets.toList[j]? := by
  simp only [RevocationStore.put, Vector.toList_set, List.getElem?_set, Vector.length_toList]
  by_cases hj : j = bucket.toNat
  · simp [hj, hb]
  · simp [hj, Ne.symm hj]

/-- An accepted secret keeps the secrets coherent. -/
theorem Coherent.append (hcoh : Coherent sha256 hs) {h : Hash} (hacc : Accepts sha256 hs h)
    (hn : hs.length < 2 ^ 48) : Coherent sha256 (hs ++ [h]) := by
  intro k i hk hi hcov
  simp only [List.length_append, List.length_singleton] at hk hi
  have hik : i ≤ k := by unfold Covers at hcov; omega
  rcases Nat.lt_or_ge k hs.length with hkn | hkn
  · -- both secrets were there before
    rw [List.getElem_append_left hkn, List.getElem_append_left (by omega)]
    exact hcoh k i hkn (by omega) hcov
  · obtain rfl : k = hs.length := by omega
    rw [List.getElem_append_right (le_refl _)]
    rcases Nat.lt_or_ge i hs.length with hin | hin
    · -- the new secret derives an earlier one: that is what `Accepts` asks
      rw [List.getElem_append_left hin]
      have hder := derive_counted sha256 (Element.mk (newIndex (BitVec.ofNat 64 hs.length)) h)
        (m := hs.length + 1) (x := i + 1) (toNat_newIndex_ofNat hn)
        (toNat_newIndex_ofNat (by omega)) (by omega) (by omega) (by omega)
      rw [if_pos hcov] at hder
      simp only [Nat.sub_self, List.getElem_singleton]
      exact hacc i hin _ hder
    · obtain rfl : i = hs.length := by omega
      simp only [List.getElem_append_right (le_refl _), Nat.sub_self, List.getElem_singleton]
      exact derive_self _ _ h

/-- One accepted call keeps the invariant: the new secret becomes the latest of its level,
and the other active buckets keep theirs. -/
theorem Represents.put (hrep : Represents sha256 hs store) {h : Hash} (hacc : Accepts sha256 hs h)
    (hb : (countTrailingZeros store.index).toNat < 48) :
    Represents sha256 (hs ++ [h])
      (store.put (countTrailingZeros store.index) ⟨store.index, h⟩ hb) := by
  have htz := hrep.toNat_countTrailingZeros
  have hn : hs.length + 1 < 2 ^ 48 := by
    by_contra hge
    have hlast : hs.length + 1 = 2 ^ 48 := by have := hrep.length_lt; omega
    rw [hlast, trailingZeros_of_two_pow_dvd 48 (Nat.dvd_refl _)] at htz
    omega
  have hlen := toNat_put_lenBuckets store (countTrailingZeros store.index) ⟨store.index, h⟩ hb
  rw [htz] at hlen
  have hindex := hrep.index_eq
  refine ⟨by simp only [List.length_append, List.length_singleton]; omega, ?_,
    hrep.coherent.append hacc hrep.length_lt, ?_, ?_⟩
  · -- the index moves on by one
    show (store.index - 1).toNat = _
    have hone : (1 : BitVec 64).toNat = 1 := rfl
    rw [BitVec.toNat_sub_of_le (by rw [BitVec.le_def, hone]; omega), hone, hindex]
    simp only [List.length_append, List.length_singleton]
    omega
  · intro m hm hle
    simp only [List.length_append, List.length_singleton] at hle
    rw [hlen]
    rcases Nat.lt_or_ge m (hs.length + 1) with hlt | hge
    · have := hrep.active m hm (by omega)
      omega
    · rw [show m = hs.length + 1 by omega]
      omega
  · intro j hj
    rw [hlen] at hj
    rw [getElem?_put_buckets, htz]
    simp only [List.length_append, List.length_singleton]
    by_cases hjb : j = trailingZeros 48 (hs.length + 1)
    · -- the bucket of the new secret
      refine ⟨hs.length + 1, ⟨store.index, h⟩, if_pos hjb, hjb ▸ isLatest_self (Nat.succ_pos _),
        ?_, by simp⟩
      show store.index.toNat = _
      omega
    · -- any other active bucket was active before, and no later secret has its level
      have hjold : j < store.lenBuckets.toNat := by
        by_contra hge
        have hlt : j < trailingZeros 48 (hs.length + 1) := by omega
        have hlatest := isLatest_sub_two_pow hlt
        have := hrep.active _ hlatest.1 hlatest.2.1
        rw [hlatest.2.2.1] at this
        omega
      obtain ⟨m, e, he, hlatest, hidx, hhash⟩ := hrep.bucket_eq j hjold
      refine ⟨m, e, by rw [if_neg hjb]; exact he, hlatest.succ (Ne.symm hjb), hidx, ?_⟩
      rw [List.getElem?_append_left (by have := hlatest.2.1; have := hlatest.1; omega)]
      exact hhash

/-- An accepted secret is stored while there is a bucket for it. -/
theorem Represents.addNextEntry_of_accepts (hrep : Represents sha256 hs store) {h : Hash}
    (hn : hs.length + 1 < 2 ^ 48) (hacc : Accepts sha256 hs h) :
    ∃ store', store.addNextEntry sha256 h = .ok (none, store') ∧
      Represents sha256 (hs ++ [h]) store' := by
  have hb : (countTrailingZeros store.index).toNat < 48 := by
    rw [hrep.toNat_countTrailingZeros]
    exact trailingZeros_lt (Nat.succ_pos _) hn
  refine ⟨_, ?_, hrep.put hacc hb⟩
  unfold RevocationStore.addNextEntry
  simp only [(checkBuckets_eq_none_iff_accepts hrep h).mpr hacc, dif_pos hb]

/-- A secret that is not accepted is turned down with the store left as it was. -/
theorem Represents.addNextEntry_of_not_accepts (hrep : Represents sha256 hs store) {h : Hash}
    (hacc : ¬ Accepts sha256 hs h) :
    ∃ err, store.addNextEntry sha256 h = .ok (some err, store) := by
  obtain ⟨err, herr⟩ := Option.ne_none_iff_exists'.mp
    (mt (checkBuckets_eq_none_iff_accepts hrep h).mp hacc)
  refine ⟨err, ?_⟩
  unfold RevocationStore.addNextEntry
  simp only [herr]

/-- The `2 ^ 48`-th secret, at index `0`, has level `48`: accepted, it is stored past the
buckets. -/
theorem Represents.addNextEntry_last (hrep : Represents sha256 hs store) {h : Hash}
    (hn : hs.length + 1 = 2 ^ 48) (hacc : Accepts sha256 hs h) :
    store.addNextEntry sha256 h = .error .indexOutOfRange := by
  have hb : ¬ (countTrailingZeros store.index).toNat < 48 := by
    rw [hrep.toNat_countTrailingZeros, hn, trailingZeros_of_two_pow_dvd 48 (Nat.dvd_refl _)]
    omega
  unfold RevocationStore.addNextEntry
  simp only [(checkBuckets_eq_none_iff_accepts hrep h).mpr hacc, dif_neg hb]

/-- Before the last secret, a call succeeds exactly when its secret may follow the earlier
ones. -/
theorem Represents.addNextEntry_succeeds_iff (hrep : Represents sha256 hs store) {h : Hash}
    (hn : hs.length + 1 < 2 ^ 48) :
    (∃ store', store.addNextEntry sha256 h = .ok (none, store')) ↔ Accepts sha256 hs h := by
  constructor
  · rintro ⟨store', hstore'⟩
    by_contra hacc
    obtain ⟨err, herr⟩ := hrep.addNextEntry_of_not_accepts hacc
    rw [herr] at hstore'
    cases hstore'
  · intro hacc
    obtain ⟨store', hstore', -⟩ := hrep.addNextEntry_of_accepts hn hacc
    exact ⟨store', hstore'⟩

end Store

/-! ## Runs of `AddNextEntry` -/

section Runs

variable (sha256 : List UInt8 → Hash)

/-- Secrets given to `AddNextEntry` one after another while each call succeeds: the store
after them, the first error, or a panic. -/
def addEntries (store : RevocationStore) : List Hash →
    Except Panic (Except ShachainError RevocationStore)
  | [] => .ok (.ok store)
  | h :: hs =>
    match store.addNextEntry sha256 h with
    | .error p => .error p
    | .ok (some err, _) => .ok (.error err)
    | .ok (none, store') => addEntries store' hs

variable {sha256}

theorem addEntries_append {store store₁ : RevocationStore} {l₁ : List Hash} (l₂ : List Hash)
    (h₁ : addEntries sha256 store l₁ = .ok (.ok store₁)) :
    addEntries sha256 store (l₁ ++ l₂) = addEntries sha256 store₁ l₂ := by
  induction l₁ generalizing store with
  | nil =>
    cases h₁
    rfl
  | cons h l₁ ih =>
    rw [List.cons_append, addEntries]
    rw [addEntries] at h₁
    split at h₁
    · cases h₁
    · cases h₁
    · exact ih h₁

/-- A run of secrets that each may follow the earlier ones is stored to the end while there
are buckets, and keeps the invariant. -/
theorem Represents.addEntries {hs : List Hash} {store : RevocationStore}
    (hrep : Represents sha256 hs store) (hs' : List Hash)
    (hlen : hs.length + hs'.length < 2 ^ 48) (hchain : Chain sha256 (hs ++ hs')) :
    ∃ store', addEntries sha256 store hs' = .ok (.ok store') ∧
      Represents sha256 (hs ++ hs') store' := by
  induction hs' generalizing hs store with
  | nil => exact ⟨store, rfl, by simpa using hrep⟩
  | cons h rest ih =>
    have hacc : Accepts sha256 hs h := by
      have := hchain hs.length (by simp)
      simpa using this
    simp only [List.length_cons] at hlen
    obtain ⟨store₁, hcall, hrep₁⟩ := hrep.addNextEntry_of_accepts (by omega) hacc
    have hlen₁ : (hs ++ [h]).length + rest.length < 2 ^ 48 := by
      simp only [List.length_append, List.length_singleton]
      omega
    have hchain₁ : Chain sha256 (hs ++ [h] ++ rest) := by
      rwa [List.append_assoc, List.singleton_append]
    obtain ⟨store', hrun, hrep'⟩ := ih hrep₁ hlen₁ hchain₁
    refine ⟨store', ?_, by rwa [List.append_assoc, List.singleton_append] at hrep'⟩
    rw [Dexfin.Lnd.Shachain.addEntries, hcall]
    exact hrun

/-! ## `LookUp` -/

theorem lookUpIn_eq_error (ind : Index) (buckets : List Element)
    (h : ∀ b ∈ buckets, ¬ Derives 48 b.index.toNat ind.toNat) :
    lookUpIn sha256 ind buckets = .error (.unableToDerive ind) := by
  induction buckets with
  | nil => rfl
  | cons b buckets ih =>
    rw [List.forall_mem_cons] at h
    rw [lookUpIn, Element.derive_eq, if_neg h.1]
    exact ih h.2

/-- `LookUp` answers from the first bucket that derives the index, so it answers `x` when
some bucket does and every one that does derives `x`. -/
theorem lookUpIn_eq_ok (ind : Index) (buckets : List Element) (x : Hash)
    (hsome : ∃ b ∈ buckets, Derives 48 b.index.toNat ind.toNat)
    (hall : ∀ b ∈ buckets, Derives 48 b.index.toNat ind.toNat →
      derive 48 (hashStep sha256) b.index.toNat ind.toNat b.hash = x) :
    lookUpIn sha256 ind buckets = .ok x := by
  induction buckets with
  | nil =>
    obtain ⟨b, hb, -⟩ := hsome
    cases hb
  | cons b buckets ih =>
    rw [List.forall_mem_cons] at hall
    rw [lookUpIn, Element.derive_eq]
    by_cases hder : Derives 48 b.index.toNat ind.toNat
    · rw [if_pos hder]
      exact congrArg Except.ok (hall.1 hder)
    · rw [if_neg hder]
      obtain ⟨b', hb', hder'⟩ := hsome
      rcases List.mem_cons.mp hb' with rfl | hb'
      · exact absurd hder' hder
      · exact ih ⟨b', hb', hder'⟩ hall.2

/-- `LookUp` on a store that represents `hs` gives the `v`-th secret of `hs`, and fails past
them: wrapped-around indices included. -/
theorem Represents.lookUp_eq {hs : List Hash} {store : RevocationStore}
    (hrep : Represents sha256 hs store) (v : BitVec 64) :
    store.lookUp sha256 v =
      if hv : v.toNat < hs.length then .ok hs[v.toNat]
      else .error (.unableToDerive (newIndex v)) := by
  have hn := hrep.length_lt
  unfold RevocationStore.lookUp
  split
  · rename_i hv
    have hind : (newIndex v).toNat = 2 ^ 48 - (v.toNat + 1) := by
      rw [toNat_newIndex (by omega)]
      omega
    apply lookUpIn_eq_ok
    · -- the latest secret that covers the `v + 1`-th is in the bucket of its level
      obtain ⟨m, hlatest, hcov⟩ := exists_latest_covers (H := 48) (Nat.succ_pos v.toNat) hv hn
      have hmn := hlatest.2.1
      have hactive := hrep.active m hlatest.1 hlatest.2.1
      obtain ⟨m', e, he, hlatest', hidx, -⟩ := hrep.bucket_eq _ hactive
      rw [hlatest'.unique hlatest] at hidx
      refine ⟨e, mem_take_iff_getElem?.mpr ⟨_, hactive, he⟩, ?_⟩
      rw [hidx, hind]
      exact (derives_two_pow_sub_iff hlatest.1 (by omega) (by omega)).mpr hcov
    · -- every bucket that derives it holds a secret that covers it
      intro b hb hder
      obtain ⟨m, hm, hmn, hidx, hhash⟩ := hrep.holds_of_mem hb
      rw [hidx, hind] at hder ⊢
      have hcov := (derives_two_pow_sub_iff hm (by omega) (by omega)).mp hder
      have hk : m - 1 < hs.length := by omega
      rw [List.getElem?_eq_getElem hk, Option.some.injEq] at hhash
      rw [← hhash]
      have := hrep.coherent (m - 1) v.toNat hk hv (by rwa [Nat.sub_add_cancel hm])
      rwa [Nat.sub_add_cancel hm] at this
  · rename_i hv
    apply lookUpIn_eq_error
    intro b hb hder
    obtain ⟨m, hm, hmn, hidx, -⟩ := hrep.holds_of_mem hb
    rw [hidx] at hder
    by_cases hvH : v.toNat < 2 ^ 48
    · -- a later secret is covered by no earlier one
      rw [toNat_newIndex hvH, show 2 ^ 48 - 1 - v.toNat = 2 ^ 48 - (v.toNat + 1) by omega] at hder
      have hcov := (derives_two_pow_sub_iff hm (by omega) (by omega)).mp hder
      unfold Covers at hcov
      omega
    · exact not_derives_of_two_pow_le hm (by omega) (two_pow_le_toNat_newIndex (by omega)) hder

variable (sha256) in
/-- The store read back from its encoding answers `LookUp` as the store did. -/
theorem lookUp_decode_encode (store : RevocationStore) :
    ∃ store', newRevocationStoreFromBytes store.encode = .ok (.ok store') ∧
      ∀ v, store'.lookUp sha256 v = store.lookUp sha256 v := by
  obtain ⟨store', hdecode, -, -, htake⟩ := newRevocationStoreFromBytes_encode store []
  rw [List.append_nil] at hdecode
  refine ⟨store', hdecode, fun v => ?_⟩
  unfold RevocationStore.lookUp
  rw [htake]

/-- The store read back from the encoding of a store that represents `hs` represents `hs`:
it goes on accepting what the store would have. -/
theorem Represents.decode_encode {hs : List Hash} {store : RevocationStore}
    (hrep : Represents sha256 hs store) :
    ∃ store', newRevocationStoreFromBytes store.encode = .ok (.ok store') ∧
      Represents sha256 hs store' := by
  obtain ⟨store', hdecode, hlen, hindex, htake⟩ := newRevocationStoreFromBytes_encode store []
  rw [List.append_nil] at hdecode
  exact ⟨store', hdecode, hrep.congr hlen hindex htake⟩

/-! ## The producer -/

variable (sha256) in
/-- The producer's `v`-th secret is the root's derivation at the `v`-th index. -/
theorem atIndex_eq (root : Hash) {v : BitVec 64} (hv : v.toNat < 2 ^ 48) :
    RevocationProducer.atIndex sha256 root v =
      .ok (derive 48 (hashStep sha256) 0 (2 ^ 48 - 1 - v.toNat) root) := by
  have hroot : rootIndex.toNat = 0 := rfl
  have hder : Derives 48 0 (2 ^ 48 - 1 - v.toNat) := derives_root (by omega)
  unfold RevocationProducer.atIndex
  rw [Element.derive_eq]
  simp only [hroot, toNat_newIndex hv]
  rw [if_pos hder]
  rfl

/-- The producer's secrets may always follow each other: each derives the earlier ones below
it as the root does. -/
theorem accepts_atIndex (root : Hash) {hs : List Hash} {h : Hash} (hn : hs.length < 2 ^ 48)
    (hhs : ∀ k (hk : k < hs.length),
      RevocationProducer.atIndex sha256 root (BitVec.ofNat 64 k) = .ok hs[k])
    (hh : RevocationProducer.atIndex sha256 root (BitVec.ofNat 64 hs.length) = .ok h) :
    Accepts sha256 hs h := by
  have hofNat : ∀ k < 2 ^ 48, (BitVec.ofNat 64 k).toNat = k := fun k hk => by
    rw [BitVec.toNat_ofNat]
    exact Nat.mod_eq_of_lt (by omega)
  -- the `k`-th secret is the root's derivation at the `k + 1`-th count
  have hsecret : ∀ k (hk : k < 2 ^ 48) (x : Hash),
      RevocationProducer.atIndex sha256 root (BitVec.ofNat 64 k) = .ok x →
        x = derive 48 (hashStep sha256) 0 (2 ^ 48 - (k + 1)) root := by
    intro k hk x hx
    rw [atIndex_eq sha256 root (by rw [hofNat k hk]; exact hk), hofNat k hk] at hx
    rw [← Except.ok.inj hx, show 2 ^ 48 - 1 - k = 2 ^ 48 - (k + 1) by omega]
  intro i hi e hder
  rw [derive_counted sha256 (Element.mk (newIndex (BitVec.ofNat 64 hs.length)) h)
    (m := hs.length + 1) (x := i + 1) (toNat_newIndex_ofNat hn)
    (toNat_newIndex_ofNat (by omega)) (by omega) (by omega) (by omega)] at hder
  split at hder
  · rename_i hcov
    rw [← Except.ok.inj hder]
    show derive 48 (hashStep sha256) _ _ h = hs[i]
    rw [hsecret hs.length hn h hh, hsecret i (by omega) hs[i] (hhs i hi),
      ← derive_trans _ (derives_root (by omega))
        ((derives_two_pow_sub_iff (by omega) (by omega) (by omega)).mpr hcov)]
  · cases hder

theorem chain_atIndex (root : Hash) {hs : List Hash} (hn : hs.length ≤ 2 ^ 48)
    (hhs : ∀ k (hk : k < hs.length),
      RevocationProducer.atIndex sha256 root (BitVec.ofNat 64 k) = .ok hs[k]) :
    Chain sha256 hs := by
  intro k hk
  have hlen : (hs.take k).length = k := by simp only [List.length_take]; omega
  apply accepts_atIndex root (by omega)
  · intro i hi
    rw [List.getElem_take]
    exact hhs i (by omega)
  · rw [hlen]
    exact hhs k hk

variable (sha256) in
/-- `AddNextEntry` cannot store the producer's last secret: the first `2 ^ 48 - 1` are all
stored, and the `2 ^ 48`-th, the root's own at index `0`, passes its checks and is then
written to bucket `48` of an array of `48`. -/
theorem addNextEntry_panics_on_last_secret (root : Hash) :
    ∃ hs store, (List.range (2 ^ 48)).mapM
        (fun k => RevocationProducer.atIndex sha256 root (BitVec.ofNat 64 k)) = .ok hs ∧
      addEntries sha256 newRevocationStore (hs.take (2 ^ 48 - 1)) = .ok (.ok store) ∧
      addEntries sha256 newRevocationStore hs = .error .indexOutOfRange := by
  -- the producer's secrets, one for each index
  obtain ⟨secret, hat⟩ : ∃ secret : ℕ → Hash, ∀ k < 2 ^ 48,
      RevocationProducer.atIndex sha256 root (BitVec.ofNat 64 k) = .ok (secret k) := by
    refine ⟨fun k => derive 48 (hashStep sha256) 0 (2 ^ 48 - 1 - k) root, fun k hk => ?_⟩
    have hofNat : (BitVec.ofNat 64 k).toNat = k := by
      rw [BitVec.toNat_ofNat]
      exact Nat.mod_eq_of_lt (by omega)
    rw [atIndex_eq sha256 root (by rw [hofNat]; exact hk), hofNat]
  have hchain : ∀ n ≤ 2 ^ 48, Chain sha256 ((List.range n).map secret) := fun n hn =>
    chain_atIndex root (by simpa using hn) fun k hk => by
      simp only [List.length_map, List.length_range] at hk
      rw [List.getElem_map, List.getElem_range]
      exact hat k (by omega)
  have hfirst : ((List.range (2 ^ 48)).map secret).take (2 ^ 48 - 1) =
      (List.range (2 ^ 48 - 1)).map secret := by
    rw [← List.map_take, List.take_range, Nat.min_eq_left (by omega)]
  have hsplit : (List.range (2 ^ 48)).map secret =
      (List.range (2 ^ 48 - 1)).map secret ++ [secret (2 ^ 48 - 1)] := by
    have := List.range_succ (n := 2 ^ 48 - 1)
    rw [Nat.succ_eq_add_one, Nat.sub_add_cancel Nat.one_le_two_pow] at this
    rw [this, List.map_append, List.map_singleton]
  -- the first `2 ^ 48 - 1` are stored
  obtain ⟨store, hrun, hrep⟩ := (represents_newRevocationStore sha256).addEntries
    ((List.range (2 ^ 48 - 1)).map secret) (by simp)
    (by rw [List.nil_append]; exact hchain _ (by omega))
  refine ⟨_, store, mapM_eq_ok fun k hk => hat k (List.mem_range.mp hk), by rw [hfirst]; exact hrun,
    ?_⟩
  -- the last one is accepted, and then stored past the buckets
  have hacc : Accepts sha256 ((List.range (2 ^ 48 - 1)).map secret) (secret (2 ^ 48 - 1)) := by
    have := hchain (2 ^ 48) le_rfl (2 ^ 48 - 1) (by simp)
    rwa [hfirst, List.getElem_map, List.getElem_range] at this
  rw [List.nil_append] at hrep
  rw [hsplit, addEntries_append _ hrun, addEntries, hrep.addNextEntry_last (by simp) hacc]

end Runs

end Dexfin.Lnd.Shachain
