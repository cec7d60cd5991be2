import Dexfin.Lib.Journal
import Dexfin.Parity.Account

/-!
# The Parity state and its checkpoints

`State` (`ethcore/src/state/mod.rs`) keeps the accounts it has read or changed in its cache
and a stack of checkpoints. A change to an account after a checkpoint records the account's
first pre-image in the newest checkpoint (`insert_cache`, `note_cache`): the previous cache
slot, or `None` where the account was not cached. `revert_to_checkpoint` puts the pre-images
of the newest checkpoint back and drops it; `discard_checkpoint` merges it into the one below,
where the older pre-image of each account wins.

Reads fill the cache through `ensure_cached` and `storage_at_inner`; changes go through
`require_or_from`, which lends the account to the caller. Here the caller's change is written
back with `setAccount`. The trie is the `Backend`, read without failure; the one error left
is code the database lacks (`TrieError::IncompleteDatabase`), and a `panic!`, `assert!` or
`U256` overflow is the error `panic`. The trace of `add_balance` and `sub_balance`, whose
arguments read the balance only when tracing is on, is left out.
-/

namespace Dexfin.Parity

/-- The errors of the model: `TrieError::IncompleteDatabase`, and a panic. -/
inductive StateError (Address : Type)
  | incompleteDatabase (a : Address)
  | panic
  deriving DecidableEq, Repr

/-- A checkpoint: the first pre-image of each account changed since it was made. -/
abbrev Checkpoint (Address Key : Type) := Journal.Log Address (Option (AccountEntry Key))

/-- `State`: `checkpoints` newest first. -/
structure State (Address Key : Type) where
  /-- `cache`. -/
  cache : Address → Option (AccountEntry Key)
  /-- `checkpoints`. -/
  checkpoints : List (Checkpoint Address Key)
  /-- `account_start_nonce`. -/
  accountStartNonce : U256

/-- `CleanupMode`: the caller's set of touched accounts goes in and comes back. -/
inductive CleanupMode (Address : Type)
  | forceCreate
  | noEmpty
  | trackTouched (touched : List Address)
  deriving DecidableEq, Repr

/-- `ReturnKind` of `checkpoint_storage_at`. -/
inductive ReturnKind
  | originalAt
  | sameAsNext
  deriving DecidableEq, Repr

namespace State

variable {Address Key : Type} [DecidableEq Address] [DecidableEq Key]

/-- `State::from_existing`: an empty cache and no checkpoint. -/
def fromExisting (accountStartNonce : U256) : State Address Key :=
  ⟨fun _ => none, [], accountStartNonce⟩

/-! ## Checkpoints -/

/-- `State::checkpoint`: a new empty checkpoint; its index. -/
def checkpoint (s : State Address Key) : State Address Key × Nat :=
  ({ s with checkpoints := ∅ :: s.checkpoints }, s.checkpoints.length)

/-- `State::discard_checkpoint`: the newest checkpoint replaces an empty one below, or its
entries go into the one below where that one has none (`or_insert`), which is the union. -/
def discardCheckpoint (s : State Address Key) : State Address Key :=
  match s.checkpoints with
  | checkpoint :: prev :: rest =>
    { s with checkpoints := (if prev.entries = [] then checkpoint else prev ∪ checkpoint) :: rest }
  | [_] => { s with checkpoints := [] }
  | [] => s

/-- One entry of the loop of `revert_to_checkpoint`: a pre-image overwrites the cached entry
keeping its storage cache, or takes the empty slot; a missing account removes a dirty entry. -/
def restoreEntry (pre : Option (AccountEntry Key)) (slot : Option (AccountEntry Key)) :
    Option (AccountEntry Key) :=
  match pre with
  | some v =>
    match slot with
    | some e => some (e.overwriteWith v)
    | none => some v
  | none =>
    match slot with
    | some e => if e.isDirty then none else some e
    | none => none

/-- `State::revert_to_checkpoint`. -/
def revertToCheckpoint (s : State Address Key) : State Address Key :=
  match s.checkpoints with
  | checkpoint :: rest =>
    { s with cache := Journal.undo restoreEntry checkpoint s.cache, checkpoints := rest }
  | [] => s

/-- `State::insert_cache`: a dirty entry records what the slot held in the newest
checkpoint. -/
def insertCache (s : State Address Key) (a : Address) (account : AccountEntry Key) :
    State Address Key :=
  let oldValue := s.cache a
  let s := { s with cache := Function.update s.cache a (some account) }
  if account.isDirty then
    match s.checkpoints with
    | checkpoint :: rest => { s with checkpoints := Journal.record checkpoint a oldValue :: rest }
    | [] => s
  else s

/-- `State::note_cache`: the newest checkpoint records a copy of the cached entry. -/
def noteCache (s : State Address Key) (a : Address) : State Address Key :=
  match s.checkpoints with
  | checkpoint :: rest =>
    { s with checkpoints :=
      Journal.record checkpoint a ((s.cache a).map AccountEntry.cloneDirty) :: rest }
  | [] => s

/-- Write back the account `require_or_from` lent. -/
def setAccount (s : State Address Key) (a : Address) (account : Account Key) :
    State Address Key :=
  { s with cache := Function.update s.cache a ((s.cache a).map fun e => { e with account := some account }) }

/-! ## Reads -/

variable (db : Backend Address Key)

/-- `State::ensure_cached`: the local cache, the shared cache, then the trie, whose account
goes into the local cache. -/
def ensureCached {U : Type} (s : State Address Key) (a : Address) (require : RequireCache)
    (checkNull : Bool) (f : Option (Account Key) → U) :
    Except (StateError Address) (U × State Address Key) :=
  match s.cache a with
  | some e =>
    match e.account with
    | some account =>
      let (ok, account) := account.updateAccountCache db require
      if ok then
        .ok (f (some account),
          { s with cache := Function.update s.cache a (some { e with account := some account }) })
      else .error (.incompleteDatabase a)
    | none => .ok (f none, s)
  | none =>
    if db.cachedAccount a then
      match (db.account a).map Account.fromBasic with
      | some account =>
        let (ok, account) := account.updateAccountCache db require
        if ok then .ok (f (some account), s) else .error (.incompleteDatabase a)
      | none => .ok (f none, s)
    else if checkNull && db.knownNull a then .ok (f none, s)
    else
      match (db.account a).map Account.fromBasic with
      | some account =>
        let (ok, account) := account.updateAccountCache db require
        if ok then .ok (f (some account), s.insertCache a (AccountEntry.newClean (some account)))
        else .error (.incompleteDatabase a)
      | none => .ok (f none, s.insertCache a (AccountEntry.newClean none))

/-- `State::exists`. -/
def «exists» (s : State Address Key) (a : Address) :
    Except (StateError Address) (Bool × State Address Key) :=
  s.ensureCached db a .none false Option.isSome

/-- `State::exists_and_not_null`. -/
def existsAndNotNull (s : State Address Key) (a : Address) :
    Except (StateError Address) (Bool × State Address Key) :=
  s.ensureCached db a .none false fun acc => acc.elim false fun acc => !acc.isNull

/-- `State::exists_and_has_code_or_nonce`. -/
def existsAndHasCodeOrNonce (s : State Address Key) (a : Address) :
    Except (StateError Address) (Bool × State Address Key) :=
  s.ensureCached db a .codeSize false fun acc =>
    acc.elim false fun acc => acc.codeHash != keccakEmpty || acc.nonce != s.accountStartNonce

/-- `State::balance`. -/
def balance (s : State Address Key) (a : Address) :
    Except (StateError Address) (U256 × State Address Key) :=
  s.ensureCached db a .none true fun acc => acc.elim 0 (·.balance)

/-- `State::nonce`. -/
def nonce (s : State Address Key) (a : Address) :
    Except (StateError Address) (U256 × State Address Key) :=
  s.ensureCached db a .none true fun acc => acc.elim s.accountStartNonce (·.nonce)

/-- `State::original_storage_root`. -/
def originalStorageRoot (s : State Address Key) (a : Address) :
    Except (StateError Address) (H256 × State Address Key) := do
  let (root, s) ← s.ensureCached db a .none true fun acc => acc.map (·.originalStorageRoot)
  return (root.getD keccakNullRlp, s)

/-- `State::code`. -/
def code (s : State Address Key) (a : Address) :
    Except (StateError Address) (Option Bytes × State Address Key) :=
  s.ensureCached db a .code true fun acc => acc.bind (·.code)

/-- `State::code_hash`. -/
def codeHash (s : State Address Key) (a : Address) :
    Except (StateError Address) (Option H256 × State Address Key) :=
  s.ensureCached db a .none true fun acc => acc.map (·.codeHash)

/-- `State::code_size`. -/
def codeSize (s : State Address Key) (a : Address) :
    Except (StateError Address) (Option Nat × State Address Key) :=
  s.ensureCached db a .codeSize true fun acc => acc.bind (·.codeSize)

/-- `State::storage_at_inner`: the local account's caches, the shared cache, the local
account's trie, then the state trie, whose account goes into the local cache. -/
def storageAtInner (s : State Address Key) (a : Address) (key : Key)
    (fCachedAt : Account Key → Key → Option H256)
    (fAt : Account Key → Key → H256 × Account Key) : H256 × State Address Key :=
  match s.cache a with
  | some e =>
    match e.account with
    | some account =>
      match fCachedAt account key with
      | some value => (value, s)
      | none =>
        if db.cachedAccount a then
          (((db.account a).map fun b => (fAt (Account.fromBasic b) key).1).getD 0, s)
        else
          let (value, account) := fAt account key
          (value, { s with cache := Function.update s.cache a (some { e with account := some account }) })
    | none => (0, s)
  | none =>
    if db.cachedAccount a then
      (((db.account a).map fun b => (fAt (Account.fromBasic b) key).1).getD 0, s)
    else if db.knownNull a then (0, s)
    else
      match (db.account a).map Account.fromBasic with
      | some account =>
        let (value, account) := fAt account key
        (value, s.insertCache a (AccountEntry.newClean (some account)))
      | none => (0, s.insertCache a (AccountEntry.newClean none))

/-- `State::storage_at`. -/
def storageAt (s : State Address Key) (a : Address) (key : Key) : H256 × State Address Key :=
  s.storageAtInner db a key Account.cachedStorageAt (Account.storageAt db)

/-- `State::original_storage_at`. -/
def originalStorageAt (s : State Address Key) (a : Address) (key : Key) :
    H256 × State Address Key :=
  s.storageAtInner db a key Account.cachedOriginalStorageAt (Account.originalStorageAt db)

/-- The loop of `checkpoint_storage_at` over the checkpoints from the one asked for to the
newest: a value it returns, or what to read after the loop. -/
def scanCheckpoints (s : State Address Key) (a : Address) (key : Key)
    (kind : Option ReturnKind) :
    List (Checkpoint Address Key) →
      Except (StateError Address) ((H256 ⊕ Option ReturnKind) × State Address Key)
  | [] => .ok (.inr kind, s)
  | checkpoint :: rest =>
    match checkpoint.lookup a with
    | some (some entry) =>
      match entry.account with
      | some account =>
        match account.cachedStorageAt key with
        | some value => .ok (.inl value, s)
        | none => do
          let (root, s) ← s.originalStorageRoot db a
          if account.baseStorageRoot = root then return (.inr (some .originalAt), s)
          else return (.inl 0, s)
      | none => .ok (.inl 0, s)
    | some none => .ok (.inr (some .originalAt), s)
    | none => scanCheckpoints s a key (some .sameAsNext) rest

/-- `State::checkpoint_storage_at`: the value of a storage key at the checkpoint with the
index given, counted from the oldest. -/
def checkpointStorageAt (s : State Address Key) (startCheckpointIndex : Nat) (a : Address)
    (key : Key) : Except (StateError Address) (Option H256 × State Address Key) := do
  if startCheckpointIndex ≥ s.checkpoints.length then return (none, s)
  let (scan, s) ← s.scanCheckpoints db a key none (s.checkpoints.reverse.drop startCheckpointIndex)
  match scan with
  | .inl value => return (some value, s)
  | .inr (some .sameAsNext) =>
    let (value, s) := s.storageAt db a key
    return (some value, s)
  | .inr (some .originalAt) =>
    let (value, s) := s.originalStorageAt db a key
    return (some value, s)
  | .inr none => throw .panic

/-! ## Changes -/

/-- The `!contains_key` block of `require_or_from`: an account not in the local cache comes
from the shared cache or the trie. -/
def loadAccount (s : State Address Key) (a : Address) : State Address Key :=
  if (s.cache a).isSome then s
  else if db.cachedAccount a then
    s.insertCache a (AccountEntry.newCleanCached ((db.account a).map Account.fromBasic))
  else
    s.insertCache a (AccountEntry.newClean
      (if !db.knownNull a then (db.account a).map Account.fromBasic else none))

/-- `State::require_or_from`: load and note the account, make it `default` if missing, mark it
dirty and lend it. The entry is in the cache after `loadAccount`. -/
def requireOrFrom (s : State Address Key) (a : Address) (requireCode : Bool)
    (default : Account Key) (notDefault : Account Key → Account Key) :
    State Address Key × Account Key :=
  let s := (s.loadAccount db a).noteCache a
  let entry := (s.cache a).getD (AccountEntry.newClean none)
  let account :=
    match entry.account with
    | some account => notDefault account
    | none => default
  let account := if requireCode then (account.updateAccountCache db .code).2 else account
  ({ s with cache :=
      Function.update s.cache a (some { entry with account := some account, state := .dirty }) },
    account)

/-- `State::require`. -/
def require (s : State Address Key) (a : Address) (requireCode : Bool) :
    State Address Key × Account Key :=
  s.requireOrFrom db a requireCode (Account.newBasic 0 s.accountStartNonce) id

/-- `Option::ok_or`, for the panics of the account's arithmetic. -/
def orPanic {α : Type} : Option α → Except (StateError Address) α
  | some x => .ok x
  | none => .error .panic

/-- `State::add_balance`. -/
def addBalance (s : State Address Key) (a : Address) (incr : U256) (mode : CleanupMode Address) :
    Except (StateError Address) (State Address Key × CleanupMode Address) := do
  let isValueTransfer := incr ≠ 0
  -- `is_value_transfer || (cleanup_mode == ForceCreate && !self.exists(a)?)`
  let (create, s) ← if isValueTransfer then pure (true, s) else
    match mode with
    | .forceCreate => do
      let (found, s) ← s.exists db a
      pure (!found, s)
    | _ => pure (false, s)
  if create then
    let (s, account) := s.require db a false
    let account ← orPanic (account.addBalance incr)
    return (s.setAccount a account, mode)
  else
    match mode with
    | .trackTouched touched => do
      let (found, s) ← s.exists db a
      if found then return ((s.require db a false).1, .trackTouched (touched.insert a))
      else return (s, mode)
    | _ => return (s, mode)

/-- `State::sub_balance`. -/
def subBalance (s : State Address Key) (a : Address) (decr : U256) (mode : CleanupMode Address) :
    Except (StateError Address) (State Address Key × CleanupMode Address) := do
  -- `!decr.is_zero() || !self.exists(a)?`
  let (change, s) ← if decr ≠ 0 then pure (true, s) else do
    let (found, s) ← s.exists db a
    pure (!found, s)
  let s ← if change then do
      let (s, account) := s.require db a false
      let account ← orPanic (account.subBalance decr)
      pure (s.setAccount a account)
    else pure s
  match mode with
  | .trackTouched touched => return (s, .trackTouched (touched.insert a))
  | mode => return (s, mode)

/-- `State::transfer_balance`. -/
def transferBalance (s : State Address Key) (sender recipient : Address) (amount : U256)
    (mode : CleanupMode Address) :
    Except (StateError Address) (State Address Key × CleanupMode Address) := do
  let (s, mode) ← s.subBalance db sender amount mode
  s.addBalance db recipient amount mode

/-- `State::inc_nonce`. -/
def incNonce (s : State Address Key) (a : Address) :
    Except (StateError Address) (State Address Key) := do
  let (s, account) := s.require db a false
  let account ← orPanic account.incNonce
  return s.setAccount a account

/-- `State::set_storage`: a change only when the value differs. -/
def setStorage (s : State Address Key) (a : Address) (key : Key) (value : H256) :
    State Address Key :=
  let (current, s) := s.storageAt db a key
  if current ≠ value then
    let (s, account) := s.require db a false
    s.setAccount a (account.setStorage key value)
  else s

/-- `State::new_contract`. -/
def newContract (s : State Address Key) (contract : Address) (balance nonceOffset : U256) :
    Except (StateError Address) (State Address Key) := do
  let (originalStorageRoot, s) ← s.originalStorageRoot db contract
  let nonce ← orPanic (checkedAdd s.accountStartNonce nonceOffset)
  return s.insertCache contract
    (AccountEntry.newDirty (some (Account.newContract balance nonce originalStorageRoot)))

/-- `State::init_code`, with the hash function of the code hash. -/
def initCode (keccak : Bytes → H256) (s : State Address Key) (a : Address) (code : Bytes) :
    State Address Key :=
  let (s, account) :=
    s.requireOrFrom db a true (Account.newContract 0 s.accountStartNonce keccakNullRlp) id
  s.setAccount a (account.initCode keccak code)

/-- `State::kill_account`. -/
def killAccount (s : State Address Key) (a : Address) : State Address Key :=
  s.insertCache a (AccountEntry.newDirty none)

end State

/-! ## Runs -/

/-- The calls on a `State` whose checkpoints the model follows. -/
inductive Call (Address Key : Type)
  | checkpoint
  | discardCheckpoint
  | revertToCheckpoint
  | addBalance (a : Address) (incr : U256) (mode : CleanupMode Address)
  | subBalance (a : Address) (decr : U256) (mode : CleanupMode Address)
  | transferBalance (sender recipient : Address) (amount : U256) (mode : CleanupMode Address)
  | incNonce (a : Address)
  | setStorage (a : Address) (key : Key) (value : H256)
  | newContract (a : Address) (balance nonceOffset : U256)
  | initCode (a : Address) (code : Bytes)
  | killAccount (a : Address)
  | «exists» (a : Address)
  | existsAndNotNull (a : Address)
  | existsAndHasCodeOrNonce (a : Address)
  | balance (a : Address)
  | nonce (a : Address)
  | originalStorageRoot (a : Address)
  | code (a : Address)
  | codeHash (a : Address)
  | codeSize (a : Address)
  | storageAt (a : Address) (key : Key)
  | originalStorageAt (a : Address) (key : Key)
  | checkpointStorageAt (index : Nat) (a : Address) (key : Key)

namespace State

variable {Address Key : Type} [DecidableEq Address] [DecidableEq Key] (db : Backend Address Key)
  (keccak : Bytes → H256)

/-- The state after a call; the values reads return are dropped. -/
def call (s : State Address Key) : Call Address Key → Except (StateError Address) (State Address Key)
  | .checkpoint => .ok s.checkpoint.1
  | .discardCheckpoint => .ok s.discardCheckpoint
  | .revertToCheckpoint => .ok s.revertToCheckpoint
  | .addBalance a incr mode => (·.1) <$> s.addBalance db a incr mode
  | .subBalance a decr mode => (·.1) <$> s.subBalance db a decr mode
  | .transferBalance sender recipient amount mode =>
    (·.1) <$> s.transferBalance db sender recipient amount mode
  | .incNonce a => s.incNonce db a
  | .setStorage a key value => .ok (s.setStorage db a key value)
  | .newContract a balance nonceOffset => s.newContract db a balance nonceOffset
  | .initCode a code => .ok (s.initCode db keccak a code)
  | .killAccount a => .ok (s.killAccount a)
  | .exists a => (·.2) <$> s.exists db a
  | .existsAndNotNull a => (·.2) <$> s.existsAndNotNull db a
  | .existsAndHasCodeOrNonce a => (·.2) <$> s.existsAndHasCodeOrNonce db a
  | .balance a => (·.2) <$> s.balance db a
  | .nonce a => (·.2) <$> s.nonce db a
  | .originalStorageRoot a => (·.2) <$> s.originalStorageRoot db a
  | .code a => (·.2) <$> s.code db a
  | .codeHash a => (·.2) <$> s.codeHash db a
  | .codeSize a => (·.2) <$> s.codeSize db a
  | .storageAt a key => .ok (s.storageAt db a key).2
  | .originalStorageAt a key => .ok (s.originalStorageAt db a key).2
  | .checkpointStorageAt index a key => (·.2) <$> s.checkpointStorageAt db index a key

/-- The state after a sequence of calls, or the first error. -/
def run (s : State Address Key) : List (Call Address Key) → Except (StateError Address) (State Address Key)
  | [] => .ok s
  | c :: cs => do
    let s ← s.call db keccak c
    run s cs

end State

end Dexfin.Parity
