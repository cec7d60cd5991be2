import Dexfin.Lib.Journal
import Dexfin.Parity.State

/-!
# What the accessors of the state read

`State.observe` is the account map the accessors of `State` read: for each address, `none`
for an account that does not exist, or the `AccountView` of its account. An address the
cache does not hold reads the state trie.

A cache slot is good (`SlotOk`) when its account's caches hold what the tries hold, its
storage root is the empty one or the state trie's, and a clean entry reads as the state trie.
Under these the reads return what `observe` says (`ensureCached_spec`, `storageAt_fst`), and
every read only refills one slot with one that reads the same (`State.Refills`).

The pre-images of the checkpoints are slots too. Putting one back with the loop of
`revert_to_checkpoint` gives the observation of the pre-image, whatever the slot held
(`restoreEntry_determines`): a clean entry loaded after the checkpoint is kept, and reads
as the trie as the missing slot did.
-/

namespace Dexfin.Parity

variable {Address Key : Type} [DecidableEq Address] [DecidableEq Key] (db : Backend Address Key)

/-- What the accessors read at `a` when its cache slot is `slot`. -/
def obsSlot (a : Address) : Option (AccountEntry Key) → Option (AccountView Key)
  | some e => e.account.map (Account.view db)
  | none => (db.account a).map fun b => (Account.fromBasic b).view db

/-- The observable account map of a state. -/
def State.observe (s : State Address Key) (a : Address) : Option (AccountView Key) :=
  obsSlot db a (s.cache a)

/-- An account of the cache at `a`: its caches hold what the tries hold, and its storage root
is the empty one or the state trie's. -/
structure AccountOk (a : Address) (acc : Account Key) : Prop where
  coherent : acc.Coherent db
  root : acc.storageRoot = keccakNullRlp ∨
    ∃ b, db.account a = some b ∧ acc.storageRoot = b.storageRoot

/-- A cache entry at `a`: its account is good, and a clean entry reads as the state trie. -/
structure EntryOk (a : Address) (e : AccountEntry Key) : Prop where
  account : ∀ acc, e.account = some acc → AccountOk db a acc
  clean : e.isDirty = false → obsSlot db a (some e) = obsSlot db a none

/-- A good cache slot, or a good pre-image of a checkpoint. -/
def SlotOk (a : Address) : Option (AccountEntry Key) → Prop
  | some e => EntryOk db a e
  | none => True

/-! ## Good accounts -/

namespace AccountOk

variable {db} {a : Address} {acc : Account Key}

omit [DecidableEq Address] [DecidableEq Key] in
theorem of_storage {acc' : Account Key} (h : AccountOk db a acc)
    (hr : acc'.storageRoot = acc.storageRoot) (hc : acc'.storageCache = acc.storageCache)
    (ho : acc'.originalStorageCache = acc.originalStorageCache) : AccountOk db a acc' := by
  refine ⟨h.coherent.of_storage hr hc ho, ?_⟩
  rw [hr]
  exact h.root

omit [DecidableEq Address] [DecidableEq Key] in
theorem fromBasic {b : BasicAccount} (h : db.account a = some b) :
    AccountOk db a (Account.fromBasic b : Account Key) :=
  ⟨Account.Coherent.fromBasic b, .inr ⟨b, h, rfl⟩⟩

omit [DecidableEq Address] [DecidableEq Key] in
theorem newBasic (balance nonce : U256) : AccountOk db a (Account.newBasic balance nonce : Account Key) :=
  ⟨Account.Coherent.newBasic balance nonce, .inl rfl⟩

omit [DecidableEq Address] [DecidableEq Key] in
theorem newContract (balance nonce root : U256) :
    AccountOk db a (Account.newContract balance nonce root : Account Key) :=
  ⟨Account.Coherent.newContract balance nonce root, .inl rfl⟩

omit [DecidableEq Address] in
theorem updateAccountCache (h : AccountOk db a acc) (require : RequireCache) :
    AccountOk db a (acc.updateAccountCache db require).2 := by
  refine ⟨(Account.updateAccountCache_spec h.coherent require).2, ?_⟩
  rw [Account.storageRoot_updateAccountCache]
  exact h.root

omit [DecidableEq Address] in
theorem storageAt (h : AccountOk db a acc) (key : Key) : AccountOk db a (acc.storageAt db key).2 := by
  refine ⟨(Account.storageAt_spec h.coherent key).2.2, ?_⟩
  rw [Account.storageRoot_storageAt]
  exact h.root

omit [DecidableEq Address] in
theorem originalStorageAt (h : AccountOk db a acc) (key : Key) :
    AccountOk db a (acc.originalStorageAt db key).2 := by
  refine ⟨(Account.originalStorageAt_spec h.coherent key).2, ?_⟩
  rw [Account.storageRoot_originalStorageAt]
  exact h.root

omit [DecidableEq Address] [DecidableEq Key] in
theorem cloneDirty (h : AccountOk db a acc) : AccountOk db a acc.cloneDirty :=
  ⟨Account.Coherent.cloneDirty acc, h.root⟩

omit [DecidableEq Address] [DecidableEq Key] in
theorem overwriteWith {other : Account Key} (h : AccountOk db a acc) (ho : AccountOk db a other) :
    AccountOk db a (acc.overwriteWith other) :=
  ⟨h.coherent.overwriteWith ho.coherent, ho.root⟩

omit [DecidableEq Address] [DecidableEq Key] in
theorem addBalance {x : U256} {acc' : Account Key} (h : AccountOk db a acc)
    (hx : acc.addBalance x = some acc') : AccountOk db a acc' := by
  obtain ⟨balance, -, rfl⟩ := Option.map_eq_some_iff.1 hx
  exact h.of_storage rfl rfl rfl

omit [DecidableEq Address] [DecidableEq Key] in
theorem subBalance {x : U256} {acc' : Account Key} (h : AccountOk db a acc)
    (hx : acc.subBalance x = some acc') : AccountOk db a acc' := by
  unfold Account.subBalance at hx
  split_ifs at hx
  cases hx
  exact h.of_storage rfl rfl rfl

omit [DecidableEq Address] [DecidableEq Key] in
theorem incNonce {acc' : Account Key} (h : AccountOk db a acc) (hx : acc.incNonce = some acc') :
    AccountOk db a acc' := by
  obtain ⟨nonce, -, rfl⟩ := Option.map_eq_some_iff.1 hx
  exact h.of_storage rfl rfl rfl

omit [DecidableEq Address] in
theorem setStorage (h : AccountOk db a acc) (key : Key) (value : H256) :
    AccountOk db a (acc.setStorage key value) :=
  h.of_storage rfl rfl rfl

omit [DecidableEq Address] [DecidableEq Key] in
theorem initCode (h : AccountOk db a acc) (keccak : Bytes → H256) (code : Bytes) :
    AccountOk db a (acc.initCode keccak code) :=
  h.of_storage rfl rfl rfl

end AccountOk

/-! ## Good entries and the restore loop -/

section Entries

variable {db} {a : Address}

omit [DecidableEq Address] in
@[simp] theorem slotOk_some (e : AccountEntry Key) : SlotOk db a (some e) ↔ EntryOk db a e :=
  Iff.rfl

omit [DecidableEq Address] in
@[simp] theorem slotOk_none : SlotOk db a (none : Option (AccountEntry Key)) :=
  trivial

omit [DecidableEq Address] in
/-- `overwrite_with` reads as the entry it copies. -/
theorem obsSlot_overwriteWith (e v : AccountEntry Key) :
    obsSlot db a (some (e.overwriteWith v)) = obsSlot db a (some v) := by
  simp only [obsSlot, AccountEntry.overwriteWith]
  cases hv : v.account with
  | none => rfl
  | some acc =>
    cases e.account with
    | none => rfl
    | some ours => simp only [Option.map_some, Account.view_overwriteWith]

omit [DecidableEq Address] in
theorem obsSlot_cloneDirty (e : AccountEntry Key) :
    obsSlot db a (some e.cloneDirty) = obsSlot db a (some e) := by
  simp only [obsSlot, AccountEntry.cloneDirty, Option.map_map, Function.comp_def,
    Account.view_cloneDirty]

omit [DecidableEq Address] in
theorem EntryOk.overwriteWith {e v : AccountEntry Key} (he : EntryOk db a e) (hv : EntryOk db a v) :
    EntryOk db a (e.overwriteWith v) := by
  refine ⟨fun acc hacc => ?_, fun hd => (obsSlot_overwriteWith e v).trans (hv.clean hd)⟩
  unfold AccountEntry.overwriteWith at hacc
  cases hva : v.account with
  | none => simp [hva] at hacc
  | some other =>
    cases hea : e.account with
    | none =>
      simp only [hva, hea, Option.some.injEq] at hacc
      subst hacc
      exact hv.account other hva
    | some ours =>
      simp only [hva, hea, Option.some.injEq] at hacc
      subst hacc
      exact (he.account ours hea).overwriteWith (hv.account other hva)

omit [DecidableEq Address] in
theorem EntryOk.cloneDirty {e : AccountEntry Key} (he : EntryOk db a e) :
    EntryOk db a e.cloneDirty := by
  refine ⟨fun acc hacc => ?_, fun hd => (obsSlot_cloneDirty e).trans (he.clean hd)⟩
  obtain ⟨ours, hours, rfl⟩ := Option.map_eq_some_iff.1 hacc
  exact (he.account ours hours).cloneDirty

omit [DecidableEq Address] in
/-- The restore loop of `revert_to_checkpoint`, one address at a time: the slot reads as the
pre-image put back, and stays good. -/
theorem restoreEntry_determines :
    Journal.Determines State.restoreEntry (obsSlot db) (SlotOk db) (SlotOk db) (obsSlot db) where
  obs_restore a pre slot hslot hpre := by
    cases pre with
    | some v =>
      cases slot with
      | some e => exact obsSlot_overwriteWith e v
      | none => rfl
    | none =>
      cases slot with
      | none => rfl
      | some e =>
        -- a clean entry loaded after the checkpoint is kept, and reads as the trie
        cases hd : e.isDirty
        · simp only [State.restoreEntry, hd, Bool.false_eq_true, if_false]
          exact hslot.clean hd
        · simp [State.restoreEntry, hd, obsSlot]
  good_restore a pre slot hslot hpre := by
    cases pre with
    | some v =>
      cases slot with
      | some e => exact EntryOk.overwriteWith hslot hpre
      | none => exact hpre
    | none =>
      cases slot with
      | none => trivial
      | some e =>
        simp only [State.restoreEntry]
        split_ifs
        · trivial
        · exact hslot

end Entries

/-! ## Reads refill one slot -/

namespace State

variable {s s' : State Address Key} {a : Address}

/-- `s'` is `s` with the slot of `a` replaced by a good one that reads the same. -/
def Refills (s s' : State Address Key) (a : Address) : Prop :=
  ∃ x, SlotOk db a x ∧ obsSlot db a x = s.observe db a ∧
    s' = { s with cache := Function.update s.cache a x }

variable {db}

omit [DecidableEq Key] in
@[simp] theorem insertCache_cache (s : State Address Key) (a : Address) (e : AccountEntry Key) :
    (s.insertCache a e).cache = Function.update s.cache a (some e) := by
  unfold insertCache
  split
  · cases s.checkpoints <;> simp
  · rfl

omit [DecidableEq Key] in
theorem insertCache_of_clean {e : AccountEntry Key} (he : e.isDirty = false) (s : State Address Key)
    (a : Address) : s.insertCache a e = { s with cache := Function.update s.cache a (some e) } := by
  simp [insertCache, he]

theorem Refills.refl (hs : SlotOk db a (s.cache a)) : s.Refills db s a :=
  ⟨s.cache a, hs, rfl, by simp⟩

/-- A read that gives the cached account of `a` another one of the same view. -/
theorem Refills.account {e : AccountEntry Key} {acc acc' : Account Key} (hc : s.cache a = some e)
    (he : EntryOk db a e) (ha : e.account = some acc) (hok : AccountOk db a acc')
    (hview : acc'.view db = acc.view db) :
    s.Refills db { s with cache := Function.update s.cache a (some { e with account := some acc' }) } a := by
  have hobs : obsSlot db a (some { e with account := some acc' }) = obsSlot db a (some e) := by
    simp [obsSlot, ha, hview]
  refine ⟨some { e with account := some acc' },
    (⟨fun x hx => ?_, fun hd => hobs.trans (he.clean hd)⟩ : EntryOk db a _), ?_, rfl⟩
  · cases hx
    exact hok
  · rw [observe, hc]
    exact hobs

/-- A read that puts a clean entry at an address the cache did not hold. -/
theorem Refills.insertClean {e : AccountEntry Key} (hc : s.cache a = none) (he : e.isDirty = false)
    (hacc : ∀ acc, e.account = some acc → AccountOk db a acc)
    (hobs : obsSlot db a (some e) = obsSlot db a none) : s.Refills db (s.insertCache a e) a := by
  refine ⟨some e, ⟨hacc, fun _ => hobs⟩, ?_, insertCache_of_clean he s a⟩
  rw [observe, hc]
  exact hobs

/-- The trie account of `a`, with its caches filled, goes into the cache. -/
theorem Refills.load {b : BasicAccount} {acc : Account Key} (hc : s.cache a = none)
    (hb : db.account a = some b) (hok : AccountOk db a acc)
    (hview : acc.view db = (Account.fromBasic b).view db) :
    s.Refills db (s.insertCache a (AccountEntry.newClean (some acc))) a := by
  refine Refills.insertClean hc rfl (fun x hx => ?_) ?_
  · cases hx
    exact hok
  · simp [obsSlot, AccountEntry.newClean, hb, hview]

theorem Refills.loadNone (hc : s.cache a = none) (hb : db.account a = none) :
    s.Refills db (s.insertCache a (AccountEntry.newClean none)) a :=
  Refills.insertClean hc rfl (fun x hx => by cases hx) (by simp [obsSlot, AccountEntry.newClean, hb])

/-- `ensure_cached` gives `f` an account that reads as `observe` says, and refills the slot. -/
theorem ensureCached_spec (hdb : db.WellFormed) (hs : SlotOk db a (s.cache a)) {U : Type}
    {require : RequireCache} {checkNull : Bool} {f : Option (Account Key) → U} {u : U}
    (h : s.ensureCached db a require checkNull f = .ok (u, s')) :
    (∃ acc : Option (Account Key), acc.map (Account.view db) = s.observe db a ∧ u = f acc) ∧
      s.Refills db s' a := by
  unfold ensureCached at h
  cases hc : s.cache a with
  | some e =>
    rw [hc] at h hs
    cases ha : e.account with
    | none =>
      simp only [ha, Except.ok.injEq, Prod.mk.injEq] at h
      obtain ⟨rfl, rfl⟩ := h
      refine ⟨⟨none, ?_, rfl⟩, Refills.refl (by rw [hc]; exact hs)⟩
      simp [observe, hc, obsSlot, ha]
    | some acc =>
      have hacc := hs.account acc ha
      have hspec := Account.updateAccountCache_spec hacc.coherent require
      have hok := hacc.updateAccountCache require
      rcases hu : acc.updateAccountCache db require with ⟨ok, acc'⟩
      rw [hu] at hspec hok
      simp only [ha, hu] at h
      cases ok
      · simp at h
      · simp only [if_true, Except.ok.injEq, Prod.mk.injEq] at h
        obtain ⟨rfl, rfl⟩ := h
        refine ⟨⟨some acc', ?_, rfl⟩, Refills.account hc hs ha hok hspec.1⟩
        simp [observe, hc, obsSlot, ha, hspec.1]
  | none =>
    rw [hc] at h
    -- the shared cache, the bloom filter and the trie all read the trie account
    have hread : ∀ {b : BasicAccount}, db.account a = some b →
        ((Account.fromBasic b).updateAccountCache db require).2.view db =
          (Account.fromBasic b : Account Key).view db ∧
        AccountOk db a ((Account.fromBasic b).updateAccountCache db require).2 := fun {b} hb =>
      ⟨(Account.updateAccountCache_spec (Account.Coherent.fromBasic b) require).1,
        (AccountOk.fromBasic hb).updateAccountCache require⟩
    have hobs : ∀ {b : BasicAccount}, db.account a = some b →
        s.observe db a = some ((Account.fromBasic b : Account Key).view db) := fun {b} hb => by
      simp [observe, hc, obsSlot, hb]
    split_ifs at h with hcached hnull
    · cases hb : db.account a with
      | none =>
        simp only [hb, Option.map_none, Except.ok.injEq, Prod.mk.injEq] at h
        obtain ⟨rfl, rfl⟩ := h
        exact ⟨⟨none, by simp [observe, hc, obsSlot, hb], rfl⟩, Refills.refl (by simp [hc])⟩
      | some b =>
        rcases hu : (Account.fromBasic b : Account Key).updateAccountCache db require with ⟨ok, acc'⟩
        simp only [hb, Option.map_some, hu] at h
        cases ok
        · simp at h
        · simp only [if_true, Except.ok.injEq, Prod.mk.injEq] at h
          obtain ⟨rfl, rfl⟩ := h
          have hview := (hread hb).1
          rw [hu] at hview
          exact ⟨⟨some acc', by rw [hobs hb, Option.map_some, hview], rfl⟩,
            Refills.refl (by simp [hc])⟩
    · simp only [Except.ok.injEq, Prod.mk.injEq] at h
      obtain ⟨rfl, rfl⟩ := h
      have hb := hdb.knownNull_account a (by simp at hnull; exact hnull.2)
      exact ⟨⟨none, by simp [observe, hc, obsSlot, hb], rfl⟩, Refills.refl (by simp [hc])⟩
    · cases hb : db.account a with
      | none =>
        simp only [hb, Option.map_none, Except.ok.injEq, Prod.mk.injEq] at h
        obtain ⟨rfl, rfl⟩ := h
        exact ⟨⟨none, by simp [observe, hc, obsSlot, hb], rfl⟩, Refills.loadNone hc hb⟩
      | some b =>
        rcases hu : (Account.fromBasic b : Account Key).updateAccountCache db require with ⟨ok, acc'⟩
        simp only [hb, Option.map_some, hu] at h
        cases ok
        · simp at h
        · simp only [if_true, Except.ok.injEq, Prod.mk.injEq] at h
          obtain ⟨rfl, rfl⟩ := h
          have hr := hread hb
          rw [hu] at hr
          exact ⟨⟨some acc', by rw [hobs hb, Option.map_some, hr.1], rfl⟩,
            Refills.load hc hb hr.2 hr.1⟩

/-- `storage_at_inner` refills the slot, for reads of the account that keep its view. -/
theorem storageAtInner_refills (hs : SlotOk db a (s.cache a)) {key : Key}
    {fCachedAt : Account Key → Key → Option H256} {fAt : Account Key → Key → H256 × Account Key}
    (hf : ∀ acc, AccountOk db a acc →
      AccountOk db a (fAt acc key).2 ∧ (fAt acc key).2.view db = acc.view db) :
    s.Refills db (s.storageAtInner db a key fCachedAt fAt).2 a := by
  have hrefl : s.Refills db s a := Refills.refl hs
  unfold storageAtInner
  cases hc : s.cache a with
  | some e =>
    rw [hc] at hs
    simp only
    cases ha : e.account with
    | none => exact hrefl
    | some acc =>
      simp only
      cases fCachedAt acc key with
      | some value => exact hrefl
      | none =>
        simp only
        split_ifs
        · exact hrefl
        · have hr := hf acc (hs.account acc ha)
          exact Refills.account hc hs ha hr.1 hr.2
  | none =>
    simp only
    split_ifs
    · exact hrefl
    · exact hrefl
    · cases hb : db.account a with
      | none => exact Refills.loadNone hc hb
      | some b =>
        have hr := hf _ (AccountOk.fromBasic hb)
        exact Refills.load hc hb hr.1 hr.2

theorem storageAt_refills (hs : SlotOk db a (s.cache a)) (key : Key) :
    s.Refills db (s.storageAt db a key).2 a :=
  storageAtInner_refills hs fun _ hacc =>
    ⟨hacc.storageAt key, (Account.storageAt_spec hacc.coherent key).2.1⟩

theorem originalStorageAt_refills (hs : SlotOk db a (s.cache a)) (key : Key) :
    s.Refills db (s.originalStorageAt db a key).2 a :=
  storageAtInner_refills hs fun _ hacc =>
    ⟨hacc.originalStorageAt key, (Account.originalStorageAt_spec hacc.coherent key).1⟩

/-- `storage_at` reads the storage `observe` gives the key. -/
theorem storageAt_fst (hdb : db.WellFormed) (hs : SlotOk db a (s.cache a)) (key : Key) :
    (s.storageAt db a key).1 = ((s.observe db a).map fun v => v.storage key).getD 0 := by
  have htrie : ∀ {b : BasicAccount}, ((Account.fromBasic b : Account Key).storageAt db key).1 =
      (Account.fromBasic b : Account Key).storageValue db key :=
    fun {b} => (Account.storageAt_spec (Account.Coherent.fromBasic b) key).1
  unfold storageAt storageAtInner
  cases hc : s.cache a with
  | some e =>
    rw [hc] at hs
    simp only
    cases ha : e.account with
    | none => simp [observe, hc, obsSlot, ha]
    | some acc =>
      have hacc := hs.account acc ha
      have hobs : ((s.observe db a).map fun v => v.storage key).getD 0 =
          acc.storageValue db key := by
        simp [observe, hc, obsSlot, ha, Account.view]
      rw [hobs]
      simp only
      cases hcache : acc.cachedStorageAt key with
      | some value => exact Account.cachedStorageAt_eq hacc.coherent hcache
      | none =>
        simp only
        split_ifs
        · -- the shared cache reads the trie account, over the same storage root
          obtain ⟨hl, hroot⟩ := Account.cachedStorageAt_eq_none hcache
          rcases hacc.root with hnull | ⟨b, hb, hrb⟩
          · exact absurd hnull hroot
          · rw [hb, Option.map_some, Option.getD_some, htrie]
            exact Account.storageValue_eq_of_lookup (by simp [Account.fromBasic]) hl hrb.symm
        · exact (Account.storageAt_spec hacc.coherent key).1
  | none =>
    have hobs : ((s.observe db a).map fun v => v.storage key).getD 0 =
        ((db.account a).map fun b => (Account.fromBasic b : Account Key).storageValue db key).getD 0 := by
      simp [observe, hc, obsSlot, Account.view, Option.map_map, Function.comp_def]
    rw [hobs]
    simp only
    split_ifs with hcached hnull
    · simp only [htrie]
    · simp [hdb.knownNull_account a hnull]
    · cases hb : db.account a with
      | none => rfl
      | some b => exact htrie

end State

end Dexfin.Parity
