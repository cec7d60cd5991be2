import Mathlib.Data.List.AList
import Mathlib.Algebra.Group.Nat.Defs

/-!
# Accounts of the Parity state

`Account` (`ethcore/src/state/account.rs`) keeps an account's balance, nonce and code, and
its storage in three layers: `storage_changes`, written by `set_storage`; `storage_cache`,
what has been read of the storage trie at `storage_root`; and, for a contract created over an
account that had storage, `original_storage_cache` over the root it had before. An
`AccountEntry` (`state/mod.rs`) is a slot of the state's cache: an account, or `None` for an
account known not to exist, with its modification state.

The tries are the `Backend`: the state trie at the state's root, the storage tries by root,
the code database, the shared caches and the bloom filter of `StateDB`. `Account.view` is
what the accessors of `State` read of an account; the caches do not change it
(`view_storageAt`, `view_updateAccountCache`), and `overwrite_with` gives the view of the
account it copies (`view_overwriteWith`).

The LRU caches are maps without eviction: an evicted value is read again from its trie, so
eviction changes no value read. `address_hash`, the cached hash of the address, is left out.
-/

namespace Dexfin.Parity

/-- `H256`, as a number. -/
abbrev H256 := Nat

/-- `U256`, as a number below `2^256`. -/
abbrev U256 := Nat

/-- `Bytes`. -/
abbrev Bytes := List UInt8

/-- `KECCAK_EMPTY`: the hash of no bytes, the code hash of an account without code. -/
def keccakEmpty : H256 := 0xc5d2460186f7233c927e7db2dcc703c0e500b653ca82273b7bfad8045d85a470

/-- `KECCAK_NULL_RLP`: the root of the empty trie. -/
def keccakNullRlp : H256 := 0x56e81f171bcc55a6ff8345e692c0f86e5b48e01b996cadc001622fb5e363b421

/-- `U256` addition, which panics on overflow. -/
def checkedAdd (x y : U256) : Option U256 :=
  if x + y < 2 ^ 256 then some (x + y) else none

/-- `Filth`: whether the code is new. -/
inductive Filth
  | clean
  | dirty
  deriving DecidableEq, Repr

/-- `BasicAccount`: an account as the state trie holds it. -/
structure BasicAccount where
  /-- `balance`. -/
  balance : U256
  /-- `nonce`. -/
  nonce : U256
  /-- `storage_root`. -/
  storageRoot : H256
  /-- `code_hash`. -/
  codeHash : H256
  deriving DecidableEq, Repr

/-- `Account`. -/
structure Account (Key : Type) where
  /-- `balance`. -/
  balance : U256
  /-- `nonce`. -/
  nonce : U256
  /-- `storage_root`: the trie the storage changes are based on. -/
  storageRoot : H256
  /-- `storage_cache`: values read from the trie at `storage_root`. -/
  storageCache : Key → Option H256
  /-- `original_storage_cache`: the root before a contract creation, and values read from it. -/
  originalStorageCache : Option (H256 × (Key → Option H256))
  /-- `storage_changes`. -/
  storageChanges : AList (fun _ : Key => H256)
  /-- `code_hash`. -/
  codeHash : H256
  /-- `code_size`. -/
  codeSize : Option Nat
  /-- `code_cache`. -/
  codeCache : Bytes
  /-- `code_filth`. -/
  codeFilth : Filth

/-- The tries and the shared caches a `State` reads: `StateDB` and the trie at the state's
root. The shared caches hold what the tries hold. -/
structure Backend (Address Key : Type) where
  /-- The state trie: `get_with(address, Account::from_rlp)`. -/
  account : Address → Option BasicAccount
  /-- The storage tries, by root: `get_with(key, ...)`, zero where the key is absent. -/
  storage : H256 → Key → H256
  /-- The code database: `get(code_hash)`. -/
  code : H256 → Option Bytes
  /-- `get_cached_code`: the shared code cache. -/
  cachedCode : H256 → Option Bytes
  /-- Whether the shared account cache holds the address (`get_cached`,
  `get_cached_account`). -/
  cachedAccount : Address → Bool
  /-- `is_known_null`: the bloom filter's report that no account is at the address. -/
  knownNull : Address → Bool

/-- A backend whose bloom filter and shared code cache agree with the tries. -/
structure Backend.WellFormed {Address Key : Type} (db : Backend Address Key) : Prop where
  knownNull_account : ∀ a, db.knownNull a = true → db.account a = none
  cachedCode_code : ∀ h c, db.cachedCode h = some c → db.code h = some c

/-- `RequireCache`: what of the code a read needs in the cache. -/
inductive RequireCache
  | none
  | codeSize
  | code
  deriving DecidableEq, Repr

namespace Account

variable {Key : Type} [DecidableEq Key]

/-- An empty `LruCache`. -/
def emptyStorageCache : Key → Option H256 := fun _ => none

/-- `From<BasicAccount> for Account`. -/
def fromBasic (basic : BasicAccount) : Account Key where
  balance := basic.balance
  nonce := basic.nonce
  storageRoot := basic.storageRoot
  storageCache := emptyStorageCache
  originalStorageCache := none
  storageChanges := ∅
  codeHash := basic.codeHash
  codeSize := none
  codeCache := []
  codeFilth := .clean

/-- `Account::new_basic`. -/
def newBasic (balance nonce : U256) : Account Key where
  balance := balance
  nonce := nonce
  storageRoot := keccakNullRlp
  storageCache := emptyStorageCache
  originalStorageCache := none
  storageChanges := ∅
  codeHash := keccakEmpty
  codeSize := some 0
  codeCache := []
  codeFilth := .clean

/-- `Account::new_contract`: no storage of its own, over the storage the address had. -/
def newContract (balance nonce originalStorageRoot : U256) : Account Key where
  balance := balance
  nonce := nonce
  storageRoot := keccakNullRlp
  storageCache := emptyStorageCache
  originalStorageCache :=
    if originalStorageRoot = keccakNullRlp then none
    else some (originalStorageRoot, emptyStorageCache)
  storageChanges := ∅
  codeHash := keccakEmpty
  codeSize := none
  codeCache := []
  codeFilth := .clean

/-- `Account::init_code`, with the hash function the code hash is taken with. -/
def initCode (keccak : Bytes → H256) (acc : Account Key) (code : Bytes) : Account Key :=
  { acc with codeHash := keccak code, codeCache := code, codeSize := some code.length,
             codeFilth := .dirty }

/-- `Account::reset_code`. -/
def resetCode (keccak : Bytes → H256) (acc : Account Key) (code : Bytes) : Account Key :=
  acc.initCode keccak code

/-- `Account::set_storage`. -/
def setStorage (acc : Account Key) (key : Key) (value : H256) : Account Key :=
  { acc with storageChanges := acc.storageChanges.insert key value }

/-- `Account::inc_nonce`. -/
def incNonce (acc : Account Key) : Option (Account Key) :=
  (checkedAdd acc.nonce 1).map fun nonce => { acc with nonce := nonce }

/-- `Account::add_balance`. -/
def addBalance (acc : Account Key) (x : U256) : Option (Account Key) :=
  (checkedAdd acc.balance x).map fun balance => { acc with balance := balance }

/-- `Account::sub_balance`: `assert!(self.balance >= *x)`. -/
def subBalance (acc : Account Key) (x : U256) : Option (Account Key) :=
  if acc.balance ≥ x then some { acc with balance := acc.balance - x } else none

/-- `Account::is_null`. -/
def isNull (acc : Account Key) : Bool :=
  acc.balance == 0 && acc.nonce == 0 && acc.codeHash == keccakEmpty

/-- `Account::original_storage_root`. -/
def originalStorageRoot (acc : Account Key) : H256 :=
  match acc.originalStorageCache with
  | some (root, _) => root
  | none => acc.storageRoot

/-- `Account::base_storage_root`. -/
def baseStorageRoot (acc : Account Key) : H256 := acc.storageRoot

/-- `Account::cached_moved_original_storage_at`: an empty root reads zero. -/
def cachedMovedOriginalStorageAt (acc : Account Key) (key : Key) : Option H256 :=
  if acc.storageRoot = keccakNullRlp then some 0 else acc.storageCache key

/-- `Account::cached_storage_at`. -/
def cachedStorageAt (acc : Account Key) (key : Key) : Option H256 :=
  match acc.storageChanges.lookup key with
  | some value => some value
  | none => acc.cachedMovedOriginalStorageAt key

/-- `Account::cached_original_storage_at`. -/
def cachedOriginalStorageAt (acc : Account Key) (key : Key) : Option H256 :=
  match acc.originalStorageCache with
  | some (_, cache) => cache key
  | none => acc.cachedMovedOriginalStorageAt key

variable {Address : Type}

/-- `Account::get_and_cache_storage`: read the trie and cache the value. -/
def getAndCacheStorage (db : Backend Address Key) (storageRoot : H256)
    (storageCache : Key → Option H256) (key : Key) : H256 × (Key → Option H256) :=
  let value := db.storage storageRoot key
  (value, Function.update storageCache key (some value))

/-- `Account::storage_at`. -/
def storageAt (db : Backend Address Key) (acc : Account Key) (key : Key) :
    H256 × Account Key :=
  match acc.cachedStorageAt key with
  | some value => (value, acc)
  | none =>
    let (value, cache) := getAndCacheStorage db acc.storageRoot acc.storageCache key
    (value, { acc with storageCache := cache })

/-- `Account::original_storage_at`. -/
def originalStorageAt (db : Backend Address Key) (acc : Account Key) (key : Key) :
    H256 × Account Key :=
  match acc.cachedOriginalStorageAt key with
  | some value => (value, acc)
  | none =>
    match acc.originalStorageCache with
    | some (root, cache) =>
      let (value, cache) := getAndCacheStorage db root cache key
      (value, { acc with originalStorageCache := some (root, cache) })
    | none =>
      let (value, cache) := getAndCacheStorage db acc.storageRoot acc.storageCache key
      (value, { acc with storageCache := cache })

/-- `Account::code`: `None` while the code of a contract is not cached. -/
def code (acc : Account Key) : Option Bytes :=
  if acc.codeHash ≠ keccakEmpty ∧ acc.codeCache = [] then none else some acc.codeCache

/-- `Account::is_cached`. -/
def isCached (acc : Account Key) : Bool :=
  acc.codeCache ≠ [] || (acc.codeCache = [] && acc.codeHash == keccakEmpty)

/-- `Account::cache_code`. -/
def cacheCode (db : Backend Address Key) (acc : Account Key) : Option Bytes × Account Key :=
  if acc.isCached then (some acc.codeCache, acc)
  else
    match db.code acc.codeHash with
    | some x => (some x, { acc with codeSize := some x.length, codeCache := x })
    | none => (none, acc)

/-- `Account::cache_given_code`. -/
def cacheGivenCode (acc : Account Key) (code : Bytes) : Account Key :=
  { acc with codeSize := some code.length, codeCache := code }

/-- `Account::cache_code_size`. -/
def cacheCodeSize (db : Backend Address Key) (acc : Account Key) : Bool × Account Key :=
  if acc.codeSize.isSome then (true, acc)
  else if acc.codeHash ≠ keccakEmpty then
    match db.code acc.codeHash with
    | some x => (true, { acc with codeSize := some x.length })
    | none => (false, acc)
  else (true, { acc with codeSize := some 0 })

/-- `State::update_account_cache`: load what `require` needs of the code; whether it could.
The shared code cache is read first; `cache_code` also fills it, which is left out. -/
def updateAccountCache (db : Backend Address Key) (require : RequireCache)
    (acc : Account Key) : Bool × Account Key :=
  match require with
  | .none => (true, acc)
  | require =>
    if acc.isCached then (true, acc)
    else
      match db.cachedCode acc.codeHash with
      | some code => (true, acc.cacheGivenCode code)
      | none =>
        match require with
        | .none => (true, acc)
        | .code =>
          match acc.cacheCode db with
          | (some _, acc) => (true, acc)
          | (none, acc) => (false, acc)
        | .codeSize => acc.cacheCodeSize db

/-- `Account::clone_basic`: the caches are left empty. -/
def cloneBasic (acc : Account Key) : Account Key where
  balance := acc.balance
  nonce := acc.nonce
  storageRoot := acc.storageRoot
  storageCache := emptyStorageCache
  originalStorageCache := acc.originalStorageCache.map fun (root, _) => (root, emptyStorageCache)
  storageChanges := ∅
  codeHash := acc.codeHash
  codeSize := acc.codeSize
  codeCache := acc.codeCache
  codeFilth := acc.codeFilth

/-- `Account::clone_dirty`: the basic data and the storage changes. -/
def cloneDirty (acc : Account Key) : Account Key :=
  { acc.cloneBasic with storageChanges := acc.storageChanges }

/-- `Account::overwrite_with`: take `other`'s data, and merge its storage cache into ours
when both rest on the same storage root. -/
def overwriteWith (acc other : Account Key) : Account Key where
  balance := other.balance
  nonce := other.nonce
  codeHash := other.codeHash
  codeFilth := other.codeFilth
  codeCache := other.codeCache
  codeSize := other.codeSize
  storageCache :=
    if acc.storageRoot = other.storageRoot then fun k => (other.storageCache k).or (acc.storageCache k)
    else other.storageCache
  originalStorageCache := other.originalStorageCache
  storageRoot := other.storageRoot
  storageChanges := other.storageChanges

end Account

/-- `AccountState`. -/
inductive AccountState
  | cleanFresh
  | cleanCached
  | dirty
  | committed
  deriving DecidableEq, Repr

/-- `AccountEntry`: a slot of the state's cache. -/
structure AccountEntry (Key : Type) where
  /-- `account`: `None` for an account known not to exist. -/
  account : Option (Account Key)
  /-- `old_balance`. -/
  oldBalance : Option U256
  /-- `state`. -/
  state : AccountState

namespace AccountEntry

variable {Key : Type} [DecidableEq Key]

/-- `AccountEntry::is_dirty`. -/
def isDirty (e : AccountEntry Key) : Bool := e.state == .dirty

/-- `AccountEntry::clone_dirty`. -/
def cloneDirty (e : AccountEntry Key) : AccountEntry Key where
  account := e.account.map Account.cloneDirty
  oldBalance := e.oldBalance
  state := e.state

/-- `AccountEntry::new_dirty`. -/
def newDirty (account : Option (Account Key)) : AccountEntry Key :=
  ⟨account, account.map (·.balance), .dirty⟩

/-- `AccountEntry::new_clean`. -/
def newClean (account : Option (Account Key)) : AccountEntry Key :=
  ⟨account, account.map (·.balance), .cleanFresh⟩

/-- `AccountEntry::new_clean_cached`. -/
def newCleanCached (account : Option (Account Key)) : AccountEntry Key :=
  ⟨account, account.map (·.balance), .cleanCached⟩

/-- `AccountEntry::overwrite_with`: the data of `other`, over our storage cache. -/
def overwriteWith (e other : AccountEntry Key) : AccountEntry Key :=
  { e with
    state := other.state
    account :=
      match other.account with
      | some acc =>
        match e.account with
        | some ours => some (ours.overwriteWith acc)
        | none => some acc
      | none => none }

end AccountEntry

/-! ## What the accessors read -/

/-- What the accessors read of an existing account: its balance and nonce, its code as
`code()` returns it after `RequireCache::Code` (`none` where the database lacks it), and
the value of every storage key. -/
structure AccountView (Key : Type) where
  /-- `balance()`. -/
  balance : U256
  /-- `nonce()`. -/
  nonce : U256
  /-- `code()`. -/
  code : Option (Option Bytes)
  /-- `storage_at()`. -/
  storage : Key → H256

namespace Account

variable {Address Key : Type} [DecidableEq Key] (db : Backend Address Key)

/-- The value of a storage key: the change, or the trie at the storage root. -/
def storageValue (acc : Account Key) (key : Key) : H256 :=
  match acc.storageChanges.lookup key with
  | some value => value
  | none => if acc.storageRoot = keccakNullRlp then 0 else db.storage acc.storageRoot key

/-- The code `ensure_cached` with `RequireCache::Code` reads. -/
def codeRead (acc : Account Key) : Option (Option Bytes) :=
  let (ok, acc) := acc.updateAccountCache db .code
  if ok then some acc.code else none

/-- What the accessors read of `acc`. -/
def view (acc : Account Key) : AccountView Key :=
  ⟨acc.balance, acc.nonce, acc.codeRead db, acc.storageValue db⟩

/-- The caches hold what the tries hold. -/
structure Coherent (acc : Account Key) : Prop where
  storageCache : ∀ k v, acc.storageCache k = some v → v = db.storage acc.storageRoot k
  originalStorageCache : ∀ root cache, acc.originalStorageCache = some (root, cache) →
    ∀ k v, cache k = some v → v = db.storage root k

/-! ## The caches change no view -/

variable {db} {acc : Account Key}

omit [DecidableEq Key] in
/-- The code read, by the code hash and the code cache alone. -/
theorem codeRead_eq (acc : Account Key) :
    acc.codeRead db =
      if acc.isCached then some acc.code
      else match db.cachedCode acc.codeHash with
        | some code => some (acc.cacheGivenCode code).code
        | none => (db.code acc.codeHash).map fun x => { acc with codeCache := x }.code := by
  unfold codeRead updateAccountCache
  by_cases hc : acc.isCached = true
  · simp [hc]
  · simp only [hc, Bool.false_eq_true, if_false]
    cases hcc : db.cachedCode acc.codeHash with
    | some code => rfl
    | none =>
      simp only [cacheCode, hc, Bool.false_eq_true, if_false]
      cases db.code acc.codeHash <;> rfl

omit [DecidableEq Key] in
theorem codeRead_congr {acc acc' : Account Key} (hh : acc.codeHash = acc'.codeHash)
    (hc : acc.codeCache = acc'.codeCache) : acc.codeRead db = acc'.codeRead db := by
  obtain ⟨b, n, r, sc, osc, ch, hsh, sz, cc, f⟩ := acc
  obtain ⟨b', n', r', sc', osc', ch', hsh', sz', cc', f'⟩ := acc'
  simp only at hh hc
  subst hh hc
  rw [codeRead_eq, codeRead_eq]
  rfl

theorem storageValue_congr {acc acc' : Account Key} (hr : acc.storageRoot = acc'.storageRoot)
    (hs : acc.storageChanges = acc'.storageChanges) : acc.storageValue db = acc'.storageValue db := by
  funext key
  simp only [storageValue, hr, hs]

theorem view_congr {acc acc' : Account Key} (hb : acc.balance = acc'.balance)
    (hn : acc.nonce = acc'.nonce) (hh : acc.codeHash = acc'.codeHash)
    (hc : acc.codeCache = acc'.codeCache) (hr : acc.storageRoot = acc'.storageRoot)
    (hs : acc.storageChanges = acc'.storageChanges) : acc.view db = acc'.view db := by
  simp only [view, hb, hn, codeRead_congr hh hc, storageValue_congr hr hs]

theorem cachedStorageAt_eq (hco : acc.Coherent db) {key : Key} {value : H256}
    (h : acc.cachedStorageAt key = some value) : value = acc.storageValue db key := by
  unfold cachedStorageAt cachedMovedOriginalStorageAt at h
  unfold storageValue
  cases hl : acc.storageChanges.lookup key with
  | some v => simp [hl] at h; exact h.symm
  | none =>
    simp only [hl] at h
    split_ifs at h ⊢ with hr
    · exact (Option.some.inj h).symm
    · exact hco.storageCache key value h

/-- A miss of `cached_storage_at`: no change of the key, over a storage root that is not empty. -/
theorem cachedStorageAt_eq_none {key : Key} (h : acc.cachedStorageAt key = none) :
    acc.storageChanges.lookup key = none ∧ acc.storageRoot ≠ keccakNullRlp := by
  unfold cachedStorageAt cachedMovedOriginalStorageAt at h
  cases hl : acc.storageChanges.lookup key with
  | some v => simp [hl] at h
  | none =>
    simp only [hl] at h
    split_ifs at h with hr
    exact ⟨rfl, hr⟩

/-- Accounts without a change of `key` over one storage root read the same value. -/
theorem storageValue_eq_of_lookup {acc' : Account Key} {key : Key}
    (h : acc.storageChanges.lookup key = none) (h' : acc'.storageChanges.lookup key = none)
    (hr : acc.storageRoot = acc'.storageRoot) : acc.storageValue db key = acc'.storageValue db key := by
  simp only [storageValue, h, h', hr]

/-- `storage_at` reads the value of the key and changes no view. -/
theorem storageAt_spec (hco : acc.Coherent db) (key : Key) :
    (acc.storageAt db key).1 = acc.storageValue db key ∧
      (acc.storageAt db key).2.view db = acc.view db ∧ (acc.storageAt db key).2.Coherent db := by
  unfold storageAt
  cases hc : acc.cachedStorageAt key with
  | some value => exact ⟨cachedStorageAt_eq hco hc, rfl, hco⟩
  | none =>
    have hvalue : db.storage acc.storageRoot key = acc.storageValue db key := by
      unfold cachedStorageAt cachedMovedOriginalStorageAt at hc
      unfold storageValue
      cases hl : acc.storageChanges.lookup key with
      | some v => simp [hl] at hc
      | none =>
        simp only [hl] at hc
        split_ifs at hc ⊢ with hr
        rfl
    refine ⟨hvalue, view_congr rfl rfl rfl rfl rfl rfl, ⟨fun k v h => ?_, hco.originalStorageCache⟩⟩
    by_cases hk : k = key
    · subst hk
      simp only [getAndCacheStorage, Function.update_self, Option.some.injEq] at h
      exact h.symm
    · simp only [getAndCacheStorage, Function.update_of_ne hk] at h
      exact hco.storageCache k v h

/-- `original_storage_at` changes no view. -/
theorem originalStorageAt_spec (hco : acc.Coherent db) (key : Key) :
    (acc.originalStorageAt db key).2.view db = acc.view db ∧
      (acc.originalStorageAt db key).2.Coherent db := by
  unfold originalStorageAt
  cases acc.cachedOriginalStorageAt key with
  | some value => exact ⟨rfl, hco⟩
  | none =>
    cases ho : acc.originalStorageCache with
    | some rc =>
      obtain ⟨root, cache⟩ := rc
      refine ⟨view_congr rfl rfl rfl rfl rfl rfl, ⟨hco.storageCache, ?_⟩⟩
      intro root' cache' h k v hv
      simp only [Option.some.injEq, Prod.mk.injEq] at h
      obtain ⟨rfl, rfl⟩ := h
      by_cases hk : k = key
      · subst hk
        simp only [getAndCacheStorage, Function.update_self, Option.some.injEq] at hv
        exact hv.symm
      · simp only [getAndCacheStorage, Function.update_of_ne hk] at hv
        exact hco.originalStorageCache root cache ho k v hv
    | none =>
      refine ⟨view_congr rfl rfl rfl rfl rfl rfl, ⟨fun k v h => ?_, fun r c h => ?_⟩⟩
      · by_cases hk : k = key
        · subst hk
          simp only [getAndCacheStorage, Function.update_self, Option.some.injEq] at h
          exact h.symm
        · simp only [getAndCacheStorage, Function.update_of_ne hk] at h
          exact hco.storageCache k v h
      · simp at h

omit [DecidableEq Key] in
/-- A contract's code fetched into the cache reads as it did before it was fetched. -/
theorem codeRead_of_fetched (hc : acc.isCached = false) {x : Bytes}
    (hx : db.cachedCode acc.codeHash = some x ∨
      (db.cachedCode acc.codeHash = none ∧ db.code acc.codeHash = some x))
    {acc' : Account Key} (hh : acc'.codeHash = acc.codeHash) (hcc : acc'.codeCache = x) :
    acc'.codeRead db = acc.codeRead db := by
  have hempty : acc.codeCache = [] := by
    by_contra hne
    simp [isCached, hne] at hc
  by_cases hx0 : x = []
  · exact codeRead_congr hh (by rw [hcc, hx0, hempty])
  · have hcached : acc'.isCached = true := by simp [isCached, hcc, hx0]
    rw [codeRead_eq, codeRead_eq, if_pos hcached, hc, if_neg Bool.false_ne_true]
    rcases hx with hx | ⟨hnone, hx⟩
    · simp [hx, code, cacheGivenCode, hcc, hx0]
    · simp [hnone, hx, code, hcc, hx0]

/-- Loading code into the cache changes no view. -/
theorem updateAccountCache_spec (hco : acc.Coherent db) (require : RequireCache) :
    (acc.updateAccountCache db require).2.view db = acc.view db ∧
      (acc.updateAccountCache db require).2.Coherent db := by
  -- the update writes the code cache and the code size, and no storage
  have hcode : ∀ {size : Option Nat} {x : Bytes},
      ({ acc with codeSize := size, codeCache := x } : Account Key).codeRead db = acc.codeRead db →
      ({ acc with codeSize := size, codeCache := x } : Account Key).view db = acc.view db ∧
        ({ acc with codeSize := size, codeCache := x } : Account Key).Coherent db :=
    fun h => ⟨by simp only [view, h]; rfl, ⟨hco.storageCache, hco.originalStorageCache⟩⟩
  unfold updateAccountCache
  cases require with
  | none => exact ⟨rfl, hco⟩
  | codeSize =>
    by_cases hc : acc.isCached = true
    · simp only [hc, if_true]
      exact ⟨trivial, hco⟩
    · simp only [hc, Bool.false_eq_true, if_false]
      cases hcc : db.cachedCode acc.codeHash with
      | some code =>
        exact hcode (codeRead_of_fetched (by simpa using hc) (Or.inl hcc) rfl rfl)
      | none =>
        simp only [cacheCodeSize]
        split_ifs
        · exact ⟨rfl, hco⟩
        · cases db.code acc.codeHash with
          | some x => exact hcode (codeRead_congr rfl rfl)
          | none => exact ⟨rfl, hco⟩
        · exact hcode (codeRead_congr rfl rfl)
  | code =>
    by_cases hc : acc.isCached = true
    · simp only [hc, if_true]
      exact ⟨trivial, hco⟩
    · simp only [hc, Bool.false_eq_true, if_false]
      cases hcc : db.cachedCode acc.codeHash with
      | some code =>
        exact hcode (codeRead_of_fetched (by simpa using hc) (Or.inl hcc) rfl rfl)
      | none =>
        simp only [cacheCode, hc, Bool.false_eq_true, if_false]
        cases hdb : db.code acc.codeHash with
        | some x =>
          exact hcode (codeRead_of_fetched (by simpa using hc) (Or.inr ⟨hcc, hdb⟩) rfl rfl)
        | none => exact ⟨rfl, hco⟩

omit [DecidableEq Key] in
theorem storageRoot_cacheCode (acc : Account Key) :
    (acc.cacheCode db).2.storageRoot = acc.storageRoot := by
  unfold cacheCode
  split
  · rfl
  · cases db.code acc.codeHash <;> rfl

omit [DecidableEq Key] in
theorem storageRoot_cacheCodeSize (acc : Account Key) :
    (acc.cacheCodeSize db).2.storageRoot = acc.storageRoot := by
  unfold cacheCodeSize
  split
  · rfl
  · split
    · cases db.code acc.codeHash <;> rfl
    · rfl

omit [DecidableEq Key] in
/-- The caches of the code keep the storage root. -/
theorem storageRoot_updateAccountCache (acc : Account Key) (require : RequireCache) :
    (acc.updateAccountCache db require).2.storageRoot = acc.storageRoot := by
  unfold updateAccountCache
  cases require with
  | none => rfl
  | codeSize =>
    simp only
    split
    · rfl
    · cases db.cachedCode acc.codeHash with
      | some code => rfl
      | none => exact storageRoot_cacheCodeSize acc
  | code =>
    simp only
    split
    · rfl
    · cases db.cachedCode acc.codeHash with
      | some code => rfl
      | none =>
        have h : (acc.cacheCode db).2.storageRoot = acc.storageRoot := storageRoot_cacheCode acc
        rcases hc : acc.cacheCode db with ⟨x, acc'⟩
        rw [hc] at h
        cases x <;> exact h

theorem storageRoot_storageAt (acc : Account Key) (key : Key) :
    (acc.storageAt db key).2.storageRoot = acc.storageRoot := by
  unfold storageAt
  split <;> rfl

theorem storageRoot_originalStorageAt (acc : Account Key) (key : Key) :
    (acc.originalStorageAt db key).2.storageRoot = acc.storageRoot := by
  unfold originalStorageAt
  split
  · rfl
  · split <;> rfl

/-! ## Copies and the accounts the state makes -/

omit [DecidableEq Key] in
/-- Coherence rests on the storage root and the two storage caches alone. -/
theorem Coherent.of_storage {acc' : Account Key} (h : acc.Coherent db)
    (hr : acc'.storageRoot = acc.storageRoot) (hc : acc'.storageCache = acc.storageCache)
    (ho : acc'.originalStorageCache = acc.originalStorageCache) : acc'.Coherent db :=
  ⟨by rw [hr, hc]; exact h.storageCache, by rw [ho]; exact h.originalStorageCache⟩

/-- `overwrite_with` reads as the account it copies. -/
theorem view_overwriteWith (acc other : Account Key) :
    (acc.overwriteWith other).view db = other.view db :=
  view_congr rfl rfl rfl rfl rfl rfl

omit [DecidableEq Key] in
/-- The merged storage cache of `overwrite_with` is coherent: both caches rest on the same
root. -/
theorem Coherent.overwriteWith {other : Account Key} (h : acc.Coherent db)
    (ho : other.Coherent db) : (acc.overwriteWith other).Coherent db := by
  refine ⟨fun k v hv => ?_, ho.originalStorageCache⟩
  simp only [Account.overwriteWith] at hv ⊢
  split_ifs at hv with hroot
  · cases hk : other.storageCache k with
    | some w =>
      simp only [hk, Option.some_or, Option.some.injEq] at hv
      subst hv
      exact ho.storageCache k w hk
    | none =>
      simp only [hk, Option.none_or] at hv
      rw [← hroot]
      exact h.storageCache k v hv
  · exact ho.storageCache k v hv

/-- `clone_dirty` reads as the account. -/
theorem view_cloneDirty (acc : Account Key) : acc.cloneDirty.view db = acc.view db :=
  view_congr rfl rfl rfl rfl rfl rfl

omit [DecidableEq Key] in
theorem Coherent.cloneDirty (acc : Account Key) : acc.cloneDirty.Coherent db := by
  refine ⟨fun k v hv => by simp [Account.cloneDirty, cloneBasic, emptyStorageCache] at hv, ?_⟩
  intro root cache h k v hv
  simp only [Account.cloneDirty, cloneBasic, Option.map_eq_some_iff] at h
  obtain ⟨_, -, hrc⟩ := h
  cases hrc
  simp [emptyStorageCache] at hv

omit [DecidableEq Key] in
theorem Coherent.fromBasic (basic : BasicAccount) : (fromBasic basic : Account Key).Coherent db :=
  ⟨fun k v hv => by simp [Account.fromBasic, emptyStorageCache] at hv,
    fun root cache h => by simp [Account.fromBasic] at h⟩

omit [DecidableEq Key] in
theorem Coherent.newBasic (balance nonce : U256) : (newBasic balance nonce : Account Key).Coherent db :=
  ⟨fun k v hv => by simp [Account.newBasic, emptyStorageCache] at hv,
    fun root cache h => by simp [Account.newBasic] at h⟩

omit [DecidableEq Key] in
theorem Coherent.newContract (balance nonce root : U256) :
    (newContract balance nonce root : Account Key).Coherent db := by
  refine ⟨fun k v hv => by simp [Account.newContract, emptyStorageCache] at hv, ?_⟩
  intro root' cache h k v hv
  simp only [Account.newContract] at h
  split_ifs at h
  cases h
  simp [emptyStorageCache] at hv

end Account

end Dexfin.Parity
