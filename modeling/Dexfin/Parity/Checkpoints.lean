import Dexfin.Parity.Observe

/-!
# Checkpoints keep snapshots of the account map

`State.Keeps db s G` says that the checkpoints of `s` keep the snapshots `G` of the account
map, newest first: undoing the checkpoints down to each one reads as its snapshot
(`Journal.Snapshots`). Every call keeps it, with the snapshots moved as the call moves the
stack of checkpoints (`Keeps.call`): `checkpoint` pushes what the map looks like,
`discard_checkpoint` and `revert_to_checkpoint` drop the newest. A read only refills a slot
with one that reads the same; a change first records the pre-image of the account in the
newest checkpoint (`insert_cache` for a dirty entry, `note_cache` in `require_or_from`), and
then writes the account.

So a revert after calls that close every checkpoint they open gives back the map at the
matching `checkpoint()` (`revertToCheckpoint_restores`), whatever discards ran between.

`checkpoint_storage_at` does not read the snapshots this way. A pre-image `None` is read as
"the account was not changed since the checkpoint", but `kill_account` of an address the cache
does not hold records exactly `None`, and the original value is then read from the killed
entry (`checkpointStorageAt_after_kill`).
-/

namespace Dexfin.Parity

variable {Address Key : Type} [DecidableEq Address] [DecidableEq Key] (db : Backend Address Key)

/-- A run that returned ran its first step. -/
theorem exists_of_bind_eq_ok {ε α β : Type} {x : Except ε α} {f : α → Except ε β} {b : β}
    (h : x >>= f = .ok b) : ∃ a, x = .ok a ∧ f a = .ok b := by
  cases x with
  | error e => cases h
  | ok a => exact ⟨a, rfl, h⟩

theorem ok_bind {ε α β : Type} (x : α) (f : α → Except ε β) : (Except.ok x >>= f) = f x := rfl

theorem exists_of_map_eq_ok {ε α β : Type} {x : Except ε α} {f : α → β} {b : β}
    (h : f <$> x = .ok b) : ∃ a, x = .ok a ∧ f a = b := by
  cases x with
  | error e => cases h
  | ok a => exact ⟨a, rfl, Except.ok.inj h⟩

namespace State

/-- `b` recorded for `a` in the newest checkpoint, as `insert_cache` and `note_cache` do. -/
def recordNewest (js : List (Checkpoint Address Key)) (a : Address) (b : Option (AccountEntry Key)) :
    List (Checkpoint Address Key) :=
  match js with
  | j :: rest => Journal.record j a b :: rest
  | [] => []

omit [DecidableEq Key] in
theorem noteCache_eq (s : State Address Key) (a : Address) :
    s.noteCache a =
      { s with checkpoints := recordNewest s.checkpoints a ((s.cache a).map AccountEntry.cloneDirty) } := by
  obtain ⟨cache, checkpoints, n⟩ := s
  cases checkpoints <;> rfl

omit [DecidableEq Key] in
theorem insertCache_of_dirty {e : AccountEntry Key} (he : e.isDirty = true) (s : State Address Key)
    (a : Address) :
    s.insertCache a e =
      { cache := Function.update s.cache a (some e)
        checkpoints := recordNewest s.checkpoints a (s.cache a)
        accountStartNonce := s.accountStartNonce } := by
  obtain ⟨cache, checkpoints, n⟩ := s
  unfold insertCache
  simp only [he, if_true]
  cases checkpoints <;> rfl

/-- The newest checkpoint holds a pre-image of `a`. -/
def Noted (s : State Address Key) (a : Address) : Prop :=
  ∀ j rest, s.checkpoints = j :: rest → a ∈ j

/-- The account `require_or_from` lends: dirty in the cache, noted in the newest checkpoint. -/
structure Lent (s : State Address Key) (a : Address) : Prop where
  noted : s.Noted a
  dirty : ∃ e, s.cache a = some e ∧ e.isDirty = true

/-- The checkpoints of `s` keep the snapshots `G` of the account map, newest first. -/
structure Keeps (s : State Address Key) (G : List (Address → Option (AccountView Key))) : Prop where
  cache : Journal.GoodMap (SlotOk db) s.cache
  checkpoints : ∀ j ∈ s.checkpoints, Journal.GoodLog (SlotOk db) j
  snapshots : Journal.Snapshots restoreEntry (obsSlot db) s.cache s.checkpoints G

variable {db}

omit [DecidableEq Address] in
theorem EntryOk.of_dirty {a : Address} {e : AccountEntry Key} (hd : e.isDirty = true)
    (hacc : ∀ acc, e.account = some acc → AccountOk db a acc) : EntryOk db a e :=
  ⟨hacc, fun h => by rw [hd] at h; cases h⟩

omit [DecidableEq Address] in
/-- The entry `require_or_from` and `set_account` write: the account, marked dirty. -/
theorem entryOk_lent {a : Address} {e : AccountEntry Key} {acc : Account Key}
    (hok : AccountOk db a acc) (state : AccountState) (hd : state = .dirty) :
    EntryOk db a { e with account := some acc, state := state } := by
  subst hd
  exact EntryOk.of_dirty rfl fun x hx => by cases hx; exact hok

omit [DecidableEq Key] in
/-- The merge of `discard_checkpoint` is the union: an empty checkpoint is the empty list. -/
theorem merge_eq_union (p c : Checkpoint Address Key) :
    (if p.entries = [] then c else p ∪ c) = p ∪ c := by
  split_ifs with hp
  · have hempty : p = ∅ := AList.ext hp
    subst hempty
    exact AList.empty_union.symm
  · rfl

/-! ## The stack of checkpoints -/

namespace Keeps

variable {s s' : State Address Key} {G : List (Address → Option (AccountView Key))} {a : Address}

theorem fromExisting (n : U256) : (State.fromExisting n : State Address Key).Keeps db [] :=
  ⟨fun _ => trivial, (fun j hj => by cases hj), trivial⟩

theorem length_eq (h : s.Keeps db G) : s.checkpoints.length = G.length :=
  h.snapshots.length_eq

theorem checkpoint (h : s.Keeps db G) : s.checkpoint.1.Keeps db (s.observe db :: G) := by
  refine ⟨h.cache, fun j hj => ?_, h.snapshots.push⟩
  rcases List.mem_cons.1 hj with rfl | hj
  · exact Journal.goodLog_empty
  · exact h.checkpoints j hj

/-- With no checkpoint there is no snapshot. -/
theorem nil_of_checkpoints (h : s.Keeps db G) (hcp : s.checkpoints = []) : G = [] := by
  have hlen := h.length_eq
  rw [hcp] at hlen
  exact List.length_eq_zero_iff.1 hlen.symm

theorem discardCheckpoint (h : s.Keeps db G) : s.discardCheckpoint.Keeps db G.tail := by
  have hsnap := h.snapshots
  have hjs := h.checkpoints
  unfold State.discardCheckpoint
  rcases hcp : s.checkpoints with _ | ⟨c, _ | ⟨p, rest⟩⟩
  · obtain rfl := h.nil_of_checkpoints hcp
    exact h
  · rw [hcp] at hsnap
    rcases G with _ | ⟨g, _ | ⟨g', G⟩⟩
    · exact hsnap.elim
    · exact ⟨h.cache, (fun j hj => by cases hj), trivial⟩
    · exact hsnap.2.elim
  · rw [hcp] at hsnap hjs
    rcases G with _ | ⟨g, _ | ⟨g', G⟩⟩
    · exact hsnap.elim
    · exact hsnap.2.elim
    · -- the newest checkpoint goes into the one below, whose older pre-images win
      dsimp only
      rw [merge_eq_union]
      refine ⟨h.cache, fun j hj => ?_, hsnap.union restoreEntry_determines hjs h.cache⟩
      rcases List.mem_cons.1 hj with rfl | hj
      · exact Journal.goodLog_union (hjs p (by simp)) (hjs c (by simp))
      · exact hjs j (by simp [hj])

/-- A revert gives back the newest snapshot, and the stack below keeps the others. -/
theorem revertToCheckpoint {g : Address → Option (AccountView Key)} (h : s.Keeps db (g :: G)) :
    s.revertToCheckpoint.Keeps db G ∧ s.revertToCheckpoint.observe db = g := by
  have hsnap := h.snapshots
  have hjs := h.checkpoints
  unfold State.revertToCheckpoint
  rcases hcp : s.checkpoints with _ | ⟨c, rest⟩
  · rw [hcp] at hsnap
    exact hsnap.elim
  · rw [hcp] at hsnap hjs
    obtain ⟨hobs, hrest⟩ := hsnap.pop
    refine ⟨⟨Journal.good_undo restoreEntry_determines (hjs c (by simp)) h.cache,
      fun j hj => hjs j (List.mem_cons_of_mem c hj), hrest⟩, funext hobs⟩

theorem revertToCheckpoint_tail (h : s.Keeps db G) : s.revertToCheckpoint.Keeps db G.tail := by
  cases G with
  | cons g G => exact h.revertToCheckpoint.1
  | nil =>
    have hcp : s.checkpoints = [] := List.length_eq_zero_iff.1 h.length_eq
    have hrev : s.revertToCheckpoint = s := by
      unfold State.revertToCheckpoint
      rw [hcp]
    rw [hrev]
    exact h

/-! ## Refills, writes and pre-images -/

theorem refills (h : s.Keeps db G) (hr : s.Refills db s' a) : s'.Keeps db G := by
  obtain ⟨x, hx, hobs, rfl⟩ := hr
  have hgood := Journal.goodMap_update h.cache hx
  refine ⟨hgood, h.checkpoints, ?_⟩
  refine Journal.Snapshots.congr restoreEntry_determines h.checkpoints h.cache hgood ?_ h.snapshots
  intro b
  show obsSlot db b (s.cache b) = obsSlot db b (Function.update s.cache a x b)
  by_cases hb : b = a
  · subst hb
    rw [Function.update_self]
    exact hobs.symm
  · rw [Function.update_of_ne hb]

/-- A write to an address the newest checkpoint has noted changes no snapshot. -/
theorem write {x : Option (AccountEntry Key)} (h : s.Keeps db G) (hn : s.Noted a)
    (hx : SlotOk db a x) : { s with cache := Function.update s.cache a x }.Keeps db G := by
  refine ⟨Journal.goodMap_update h.cache hx, h.checkpoints, ?_⟩
  have hsnap := h.snapshots
  have hjs := h.checkpoints
  show Journal.Snapshots restoreEntry (obsSlot db) (Function.update s.cache a x) s.checkpoints G
  rcases hcp : s.checkpoints with _ | ⟨j, rest⟩
  · rw [h.nil_of_checkpoints hcp]
    trivial
  · rw [hcp] at hsnap hjs
    exact hsnap.write_of_mem restoreEntry_determines x hjs h.cache hx (hn j rest hcp)

/-- Recording a pre-image that reads as the slot changes no snapshot, and notes the address. -/
theorem recordNewest {b : Option (AccountEntry Key)} (h : s.Keeps db G) (hb : SlotOk db a b)
    (hpre : obsSlot db a b = s.observe db a) :
    { s with checkpoints := recordNewest s.checkpoints a b }.Keeps db G ∧
      { s with checkpoints := recordNewest s.checkpoints a b }.Noted a := by
  have hsnap := h.snapshots
  have hjs := h.checkpoints
  rcases hcp : s.checkpoints with _ | ⟨j, rest⟩
  · refine ⟨⟨h.cache, (fun j hj => by cases hj), ?_⟩, fun j rest hj => by cases hj⟩
    rw [h.nil_of_checkpoints hcp]
    trivial
  · rw [hcp] at hsnap hjs
    refine ⟨⟨h.cache, fun j' hj' => ?_, hsnap.record_pre restoreEntry_determines hjs h.cache hb hpre⟩,
      fun j' rest' hj' => ?_⟩
    · rcases List.mem_cons.1 hj' with rfl | hj'
      · exact Journal.goodLog_record (hjs j (by simp)) hb
      · exact hjs j' (List.mem_cons_of_mem j hj')
    · cases hj'
      exact Journal.mem_record j a b

theorem noteCache (h : s.Keeps db G) : (s.noteCache a).Keeps db G ∧ (s.noteCache a).Noted a := by
  rw [noteCache_eq]
  have hs := h.cache a
  refine h.recordNewest ?_ ?_
  · cases hc : s.cache a with
    | none => trivial
    | some e =>
      rw [hc] at hs
      exact EntryOk.cloneDirty hs
  · unfold observe
    cases s.cache a with
    | none => rfl
    | some e => exact obsSlot_cloneDirty e

/-- `insert_cache` of a dirty entry: the pre-image is the slot, then the entry is written. -/
theorem insertCache_dirty {e : AccountEntry Key} (h : s.Keeps db G) (he : e.isDirty = true)
    (hok : EntryOk db a e) : (s.insertCache a e).Keeps db G := by
  rw [insertCache_of_dirty he]
  obtain ⟨hk, hn⟩ := h.recordNewest (h.cache a) rfl
  exact hk.write hn hok

/-! ## Reads -/

theorem ensureCached (hdb : db.WellFormed) (h : s.Keeps db G) {U : Type} {require : RequireCache}
    {checkNull : Bool} {f : Option (Account Key) → U} {u : U}
    (he : s.ensureCached db a require checkNull f = .ok (u, s')) : s'.Keeps db G :=
  h.refills (ensureCached_spec hdb (h.cache a) he).2

theorem storageAt (h : s.Keeps db G) (key : Key) : (s.storageAt db a key).2.Keeps db G :=
  h.refills (storageAt_refills (h.cache a) key)

theorem originalStorageAt (h : s.Keeps db G) (key : Key) :
    (s.originalStorageAt db a key).2.Keeps db G :=
  h.refills (originalStorageAt_refills (h.cache a) key)

theorem originalStorageRoot (hdb : db.WellFormed) (h : s.Keeps db G) {root : H256}
    (hr : s.originalStorageRoot db a = .ok (root, s')) : s'.Keeps db G := by
  unfold State.originalStorageRoot at hr
  obtain ⟨⟨x, s₁⟩, h₁, h₂⟩ := exists_of_bind_eq_ok hr
  cases h₂
  exact h.ensureCached hdb h₁

/-- The loop of `checkpoint_storage_at` reads the original storage root at most once. -/
theorem scanCheckpoints (hdb : db.WellFormed) (h : s.Keeps db G) {key : Key} :
    ∀ {kind : Option ReturnKind} {js : List (Checkpoint Address Key)}
      {r : H256 ⊕ Option ReturnKind}, s.scanCheckpoints db a key kind js = .ok (r, s') →
      s'.Keeps db G := by
  intro kind js
  induction js generalizing kind with
  | nil =>
    intro r hs
    cases hs
    exact h
  | cons j rest ih =>
    intro r hs
    unfold State.scanCheckpoints at hs
    cases hl : j.lookup a with
    | none =>
      rw [hl] at hs
      exact ih hs
    | some pre =>
      rw [hl] at hs
      cases pre with
      | none =>
        cases hs
        exact h
      | some entry =>
        simp only at hs
        cases hacc : entry.account with
        | none =>
          rw [hacc] at hs
          cases hs
          exact h
        | some account =>
          rw [hacc] at hs
          simp only at hs
          cases hcs : account.cachedStorageAt key with
          | some value =>
            rw [hcs] at hs
            cases hs
            exact h
          | none =>
            rw [hcs] at hs
            obtain ⟨⟨root, s₁⟩, h₁, h₂⟩ := exists_of_bind_eq_ok hs
            have hk := h.originalStorageRoot hdb h₁
            split_ifs at h₂ <;> (cases h₂; exact hk)

theorem checkpointStorageAt (hdb : db.WellFormed) (h : s.Keeps db G) {index : Nat} {key : Key}
    {value : Option H256} (hc : s.checkpointStorageAt db index a key = .ok (value, s')) :
    s'.Keeps db G := by
  unfold State.checkpointStorageAt at hc
  split_ifs at hc
  · cases hc
    exact h
  · obtain ⟨⟨scan, s₁⟩, h₁, h₂⟩ := exists_of_bind_eq_ok hc
    have hk := h.scanCheckpoints hdb h₁
    rcases scan with v | _ | _ | _
    · cases h₂
      exact hk
    · cases h₂
    · cases h₂
      exact hk.originalStorageAt key
    · cases h₂
      exact hk.storageAt key

/-! ## Changes -/

/-- Whether the account `require_or_from` loads is in the cache: the shared cache, the bloom
filter or the trie fill the slot with a clean entry. -/
theorem loadAccount_refills (hdb : db.WellFormed) (hs : SlotOk db a (s.cache a)) :
    s.Refills db (s.loadAccount db a) a := by
  have htrie : ∀ acc, (db.account a).map Account.fromBasic = some acc → AccountOk db a acc := by
    intro acc hacc
    obtain ⟨b, hb, rfl⟩ := Option.map_eq_some_iff.1 hacc
    exact AccountOk.fromBasic hb
  have hobs : ((db.account a).map Account.fromBasic).map (Account.view db) =
      obsSlot db a (none : Option (AccountEntry Key)) := by
    simp [obsSlot, Option.map_map, Function.comp_def]
  unfold loadAccount
  split_ifs with hsome hcached hnull
  · exact Refills.refl hs
  · exact Refills.insertClean (Option.not_isSome_iff_eq_none.1 hsome) rfl htrie hobs
  · exact Refills.insertClean (Option.not_isSome_iff_eq_none.1 hsome) rfl htrie hobs
  · -- the bloom filter knows the account does not exist
    have hb := hdb.knownNull_account a (by simpa using hnull)
    exact Refills.loadNone (Option.not_isSome_iff_eq_none.1 hsome) hb

omit [DecidableEq Key] in
theorem loadAccount_isSome : ((s.loadAccount db a).cache a).isSome := by
  unfold loadAccount
  split_ifs with hsome
  · exact hsome
  all_goals simp

/-- `require_or_from` lends a good account, noted and dirty in the cache. -/
theorem requireOrFrom (hdb : db.WellFormed) (h : s.Keeps db G) (requireCode : Bool)
    {default : Account Key} {notDefault : Account Key → Account Key}
    (hd : AccountOk db a default) (hn : ∀ acc, AccountOk db a acc → AccountOk db a (notDefault acc)) :
    (s.requireOrFrom db a requireCode default notDefault).1.Keeps db G ∧
      (s.requireOrFrom db a requireCode default notDefault).1.Lent a ∧
      AccountOk db a (s.requireOrFrom db a requireCode default notDefault).2 := by
  have h₁ := h.refills (loadAccount_refills hdb (h.cache a))
  obtain ⟨h₂, hnoted⟩ := h₁.noteCache (a := a)
  have hsome : ((s.loadAccount db a).cache a).isSome := loadAccount_isSome
  obtain ⟨e, he⟩ := Option.isSome_iff_exists.1 hsome
  have he₂ : ((s.loadAccount db a).noteCache a).cache a = some e := by
    rw [noteCache_eq]
    exact he
  have hok : EntryOk db a e := by
    have hs := h₂.cache a
    rwa [he₂] at hs
  -- the account lent, with its code loaded when `requireCode`, is written back dirty
  have hcode : ∀ acc : Account Key, AccountOk db a acc →
      AccountOk db a (if requireCode then (acc.updateAccountCache db .code).2 else acc) := by
    intro acc hacc
    split_ifs
    · exact hacc.updateAccountCache .code
    · exact hacc
  have hwrite : ∀ acc : Account Key, AccountOk db a acc →
      ({ (s.loadAccount db a).noteCache a with
          cache := Function.update ((s.loadAccount db a).noteCache a).cache a
            (some { e with account := some acc, state := .dirty }) } : State Address Key).Keeps db G ∧
        ({ (s.loadAccount db a).noteCache a with
          cache := Function.update ((s.loadAccount db a).noteCache a).cache a
            (some { e with account := some acc, state := .dirty }) } : State Address Key).Lent a :=
    fun acc hacc => ⟨h₂.write hnoted (entryOk_lent hacc _ rfl), ⟨hnoted, _, Function.update_self .., rfl⟩⟩
  unfold State.requireOrFrom
  simp only [he₂, Option.getD_some]
  -- the cached account changed by `notDefault`, or `default`
  cases hea : e.account with
  | none =>
    have hok' := hcode default hd
    exact ⟨(hwrite _ hok').1, (hwrite _ hok').2, hok'⟩
  | some account =>
    have hok' := hcode _ (hn account (hok.account account hea))
    exact ⟨(hwrite _ hok').1, (hwrite _ hok').2, hok'⟩

theorem require (hdb : db.WellFormed) (h : s.Keeps db G) (requireCode : Bool) :
    (s.require db a requireCode).1.Keeps db G ∧ (s.require db a requireCode).1.Lent a ∧
      AccountOk db a (s.require db a requireCode).2 :=
  h.requireOrFrom hdb requireCode (AccountOk.newBasic 0 s.accountStartNonce)
    (fun _ hacc => hacc : ∀ acc, AccountOk db a acc → AccountOk db a (id acc))

/-- Writing back the account lent, changed by the caller. -/
theorem setAccount {acc : Account Key} (h : s.Keeps db G) (hl : s.Lent a) (hok : AccountOk db a acc) :
    (s.setAccount a acc).Keeps db G := by
  obtain ⟨e, he, hd⟩ := hl.dirty
  unfold State.setAccount
  rw [he, Option.map_some]
  exact h.write hl.noted (EntryOk.of_dirty hd fun x hx => by cases hx; exact hok)

omit [DecidableEq Address] [DecidableEq Key] in
theorem orPanic_eq_ok {α : Type} {x : Option α} {y : α}
    (h : (orPanic x : Except (StateError Address) α) = .ok y) : x = some y := by
  cases x with
  | none => cases h
  | some x => cases h; rfl

/-- `require`, a change of the account that may panic, and the write back. -/
theorem require_orPanic (hdb : db.WellFormed) (h : s.Keeps db G) {acc' : Account Key}
    {change : Account Key → Option (Account Key)}
    (hchange : ∀ {acc acc'}, AccountOk db a acc → change acc = some acc' → AccountOk db a acc')
    (hx : (orPanic (change (s.require db a false).2) : Except (StateError Address) (Account Key)) =
      .ok acc') :
    ((s.require db a false).1.setAccount a acc').Keeps db G := by
  have hr := h.require hdb (a := a) false
  exact hr.1.setAccount hr.2.1 (hchange hr.2.2 (orPanic_eq_ok hx))

theorem require_fst (hdb : db.WellFormed) (h : s.Keeps db G) (requireCode : Bool) :
    (s.require db a requireCode).1.Keeps db G :=
  (h.require hdb requireCode).1

/-- The change of `add_balance`, once `create` is known. -/
theorem require_addBalance (hdb : db.WellFormed) (h : s.Keeps db G) {incr : U256}
    {mode mode' : CleanupMode Address}
    (hr : (fun acc => ((s.require db a false).1.setAccount a acc, mode)) <$>
      (orPanic ((s.require db a false).2.addBalance incr) : Except (StateError Address) _) =
        .ok (s', mode')) : s'.Keeps db G := by
  obtain ⟨acc', hx, heq⟩ := exists_of_map_eq_ok hr
  obtain ⟨rfl, -⟩ := Prod.mk.inj heq
  exact h.require_orPanic hdb (fun hacc hc => hacc.addBalance hc) hx

theorem addBalance (hdb : db.WellFormed) (h : s.Keeps db G) {incr : U256}
    {mode mode' : CleanupMode Address} (hr : s.addBalance db a incr mode = .ok (s', mode')) :
    s'.Keeps db G := by
  unfold State.addBalance at hr
  by_cases hv : incr = 0
  swap
  · simp only [ne_eq, hv, not_false_eq_true, if_true, pure_bind, bind_pure_comp] at hr
    exact h.require_addBalance hdb hr
  -- a zero transfer: `exists` runs for `ForceCreate` and for `TrackTouched`
  cases mode with
  | forceCreate =>
    simp only [ne_eq, hv, not_true_eq_false, if_false, pure_bind, bind_pure_comp] at hr
    obtain ⟨⟨found, s₁⟩, h₁, h₂⟩ := exists_of_bind_eq_ok hr
    have hk₁ := h.ensureCached hdb h₁
    split_ifs at h₂
    · exact hk₁.require_addBalance hdb h₂
    · cases h₂
      exact hk₁
  | noEmpty =>
    simp only [ne_eq, hv, not_true_eq_false, if_false, pure_bind, Bool.false_eq_true] at hr
    cases hr
    exact h
  | trackTouched touched =>
    simp only [ne_eq, hv, not_true_eq_false, if_false, pure_bind, Bool.false_eq_true] at hr
    obtain ⟨⟨found, s₁⟩, h₁, h₂⟩ := exists_of_bind_eq_ok hr
    have hk₁ := h.ensureCached hdb h₁
    split_ifs at h₂
    · cases h₂
      exact hk₁.require_fst hdb false
    · cases h₂
      exact hk₁

/-- The change of `sub_balance`, once `change` is known. -/
theorem require_subBalance (hdb : db.WellFormed) (h : s.Keeps db G) {decr : U256}
    {mode mode' : CleanupMode Address}
    (hr : ((orPanic ((s.require db a false).2.subBalance decr) : Except (StateError Address) _) >>=
      fun acc => match mode with
        | .trackTouched touched =>
          pure ((s.require db a false).1.setAccount a acc, .trackTouched (touched.insert a))
        | mode => pure ((s.require db a false).1.setAccount a acc, mode)) = .ok (s', mode')) :
    s'.Keeps db G := by
  obtain ⟨acc', hx, h₁⟩ := exists_of_bind_eq_ok hr
  have hk := h.require_orPanic hdb (fun hacc hc => hacc.subBalance hc) hx
  cases mode <;> (cases h₁; exact hk)

theorem subBalance (hdb : db.WellFormed) (h : s.Keeps db G) {decr : U256}
    {mode mode' : CleanupMode Address} (hr : s.subBalance db a decr mode = .ok (s', mode')) :
    s'.Keeps db G := by
  unfold State.subBalance at hr
  simp only [pure_bind] at hr
  split_ifs at hr
  · exact h.require_subBalance hdb hr
  · obtain ⟨⟨found, s₁⟩, h₁, h₂⟩ := exists_of_bind_eq_ok hr
    have hk₁ := h.ensureCached hdb h₁
    split_ifs at h₂
    · exact hk₁.require_subBalance hdb h₂
    · cases mode <;> (cases h₂; exact hk₁)

theorem transferBalance (hdb : db.WellFormed) (h : s.Keeps db G) {sender recipient : Address}
    {amount : U256} {mode mode' : CleanupMode Address}
    (hr : s.transferBalance db sender recipient amount mode = .ok (s', mode')) : s'.Keeps db G := by
  unfold State.transferBalance at hr
  obtain ⟨⟨s₁, mode₁⟩, h₁, h₂⟩ := exists_of_bind_eq_ok hr
  exact (h.subBalance hdb h₁).addBalance hdb h₂

theorem incNonce (hdb : db.WellFormed) (h : s.Keeps db G) (hr : s.incNonce db a = .ok s') :
    s'.Keeps db G := by
  unfold State.incNonce at hr
  simp only [bind_pure_comp] at hr
  obtain ⟨acc', hx, rfl⟩ := exists_of_map_eq_ok hr
  exact h.require_orPanic hdb (fun hacc hc => hacc.incNonce hc) hx

theorem setStorage (hdb : db.WellFormed) (h : s.Keeps db G) (key : Key) (value : H256) :
    (s.setStorage db a key value).Keeps db G := by
  have hk₁ := h.storageAt (a := a) key
  unfold State.setStorage
  rcases hsa : s.storageAt db a key with ⟨current, s₁⟩
  rw [hsa] at hk₁
  simp only
  split_ifs
  · have hr := hk₁.require hdb (a := a) false
    rcases hreq : s₁.require db a false with ⟨s₂, acc⟩
    rw [hreq] at hr
    exact hr.1.setAccount hr.2.1 (hr.2.2.setStorage key value)
  · exact hk₁

theorem newContract (hdb : db.WellFormed) (h : s.Keeps db G) {balance nonceOffset : U256}
    (hr : s.newContract db a balance nonceOffset = .ok s') : s'.Keeps db G := by
  unfold State.newContract at hr
  obtain ⟨⟨root, s₁⟩, h₁, h₂⟩ := exists_of_bind_eq_ok hr
  have hk₁ := h.originalStorageRoot hdb h₁
  obtain ⟨nonce, -, h₃⟩ := exists_of_bind_eq_ok h₂
  cases h₃
  exact hk₁.insertCache_dirty rfl
    (EntryOk.of_dirty rfl fun x hx => by cases hx; exact AccountOk.newContract balance nonce root)

theorem initCode (hdb : db.WellFormed) (h : s.Keeps db G) (keccak : Bytes → H256) (code : Bytes) :
    (s.initCode db keccak a code).Keeps db G := by
  obtain ⟨hk, hl, hacc⟩ := h.requireOrFrom hdb true
    (AccountOk.newContract 0 s.accountStartNonce keccakNullRlp)
    (fun _ hacc => hacc : ∀ acc, AccountOk db a acc → AccountOk db a (id acc))
  exact hk.setAccount hl (hacc.initCode keccak code)

theorem killAccount (h : s.Keeps db G) : (s.killAccount a).Keeps db G :=
  h.insertCache_dirty rfl (EntryOk.of_dirty rfl fun x hx => by cases hx)

end Keeps

end State

/-! ## Runs -/

/-- How a call moves the stack of checkpoints. -/
inductive StackMove
  | push
  | pop
  | keep
  deriving DecidableEq, Repr

/-- The move of each call: `checkpoint` pushes, `discard_checkpoint` and
`revert_to_checkpoint` pop. -/
def Call.move : Call Address Key → StackMove
  | .checkpoint => .push
  | .discardCheckpoint => .pop
  | .revertToCheckpoint => .pop
  | _ => .keep

/-- The snapshots after a move: a push takes the map `now`, a pop drops the newest. -/
def StackMove.snapshots {ω : Type} (now : ω) : StackMove → List ω → List ω
  | .push, G => now :: G
  | .pop, G => G.tail
  | .keep, G => G

/-- The checkpoints a sequence of calls leaves open of its own, when it starts with `d` of
them open; `none` when it closes one that was open before it. -/
def Call.openAfter : Nat → List (Call Address Key) → Option Nat
  | d, [] => some d
  | d, c :: cs =>
    match c.move, d with
    | .push, d => openAfter (d + 1) cs
    | .pop, 0 => none
    | .pop, d + 1 => openAfter d cs
    | .keep, d => openAfter d cs

namespace State

variable {db} (keccak : Bytes → H256)

/-- Every call keeps the snapshots, moved as the call moves the stack of checkpoints. -/
theorem Keeps.call (hdb : db.WellFormed) {s s' : State Address Key}
    {G : List (Address → Option (AccountView Key))} (h : s.Keeps db G) {c : Call Address Key}
    (hc : s.call db keccak c = .ok s') : s'.Keeps db (c.move.snapshots (s.observe db) G) := by
  cases c with
  | checkpoint =>
    cases hc
    exact h.checkpoint
  | discardCheckpoint =>
    cases hc
    exact h.discardCheckpoint
  | revertToCheckpoint =>
    cases hc
    exact h.revertToCheckpoint_tail
  | addBalance a incr mode =>
    obtain ⟨⟨s₁, mode'⟩, hr, rfl⟩ := exists_of_map_eq_ok hc
    exact h.addBalance hdb hr
  | subBalance a decr mode =>
    obtain ⟨⟨s₁, mode'⟩, hr, rfl⟩ := exists_of_map_eq_ok hc
    exact h.subBalance hdb hr
  | transferBalance sender recipient amount mode =>
    obtain ⟨⟨s₁, mode'⟩, hr, rfl⟩ := exists_of_map_eq_ok hc
    exact h.transferBalance hdb hr
  | incNonce a => exact h.incNonce hdb hc
  | setStorage a key value =>
    cases hc
    exact h.setStorage hdb key value
  | newContract a balance nonceOffset => exact h.newContract hdb hc
  | initCode a code =>
    cases hc
    exact h.initCode hdb keccak code
  | killAccount a =>
    cases hc
    exact h.killAccount
  | «exists» a =>
    obtain ⟨⟨u, s₁⟩, hr, rfl⟩ := exists_of_map_eq_ok hc
    exact h.ensureCached hdb hr
  | existsAndNotNull a =>
    obtain ⟨⟨u, s₁⟩, hr, rfl⟩ := exists_of_map_eq_ok hc
    exact h.ensureCached hdb hr
  | existsAndHasCodeOrNonce a =>
    obtain ⟨⟨u, s₁⟩, hr, rfl⟩ := exists_of_map_eq_ok hc
    exact h.ensureCached hdb hr
  | balance a =>
    obtain ⟨⟨u, s₁⟩, hr, rfl⟩ := exists_of_map_eq_ok hc
    exact h.ensureCached hdb hr
  | nonce a =>
    obtain ⟨⟨u, s₁⟩, hr, rfl⟩ := exists_of_map_eq_ok hc
    exact h.ensureCached hdb hr
  | originalStorageRoot a =>
    obtain ⟨⟨u, s₁⟩, hr, rfl⟩ := exists_of_map_eq_ok hc
    exact h.originalStorageRoot hdb hr
  | code a =>
    obtain ⟨⟨u, s₁⟩, hr, rfl⟩ := exists_of_map_eq_ok hc
    exact h.ensureCached hdb hr
  | codeHash a =>
    obtain ⟨⟨u, s₁⟩, hr, rfl⟩ := exists_of_map_eq_ok hc
    exact h.ensureCached hdb hr
  | codeSize a =>
    obtain ⟨⟨u, s₁⟩, hr, rfl⟩ := exists_of_map_eq_ok hc
    exact h.ensureCached hdb hr
  | storageAt a key =>
    cases hc
    exact h.storageAt key
  | originalStorageAt a key =>
    cases hc
    exact h.originalStorageAt key
  | checkpointStorageAt index a key =>
    obtain ⟨⟨u, s₁⟩, hr, rfl⟩ := exists_of_map_eq_ok hc
    exact h.checkpointStorageAt hdb hr

/-- A run keeps some snapshots. -/
theorem Keeps.run (hdb : db.WellFormed) :
    ∀ {cs : List (Call Address Key)} {s s' : State Address Key}
      {G : List (Address → Option (AccountView Key))},
      s.Keeps db G → s.run db keccak cs = .ok s' → ∃ G', s'.Keeps db G'
  | [], _, _, G, h, hr => by
    cases hr
    exact ⟨G, h⟩
  | _ :: _, _, _, _, h, hr => by
    obtain ⟨s₁, h₁, h₂⟩ := exists_of_bind_eq_ok hr
    exact Keeps.run hdb (h.call keccak hdb h₁) h₂

/-- A run that starts with `d` checkpoints of its own open, and closes none opened before
it, keeps the snapshots below them. -/
theorem Keeps.run_nested (hdb : db.WellFormed) {G : List (Address → Option (AccountView Key))} :
    ∀ {cs : List (Call Address Key)} {d d' : Nat} {s s' : State Address Key}
      {H : List (Address → Option (AccountView Key))},
      s.Keeps db (H ++ G) → H.length = d → Call.openAfter d cs = some d' →
      s.run db keccak cs = .ok s' → ∃ H', H'.length = d' ∧ s'.Keeps db (H' ++ G)
  | [], d, d', s, s', H, h, hlen, hopen, hr => by
    cases hr
    cases hopen
    exact ⟨H, hlen, h⟩
  | c :: cs, d, d', s, s', H, h, hlen, hopen, hr => by
    obtain ⟨s₁, h₁, h₂⟩ := exists_of_bind_eq_ok hr
    have hk := h.call keccak hdb h₁
    unfold Call.openAfter at hopen
    -- the induction follows the stack: a push opens a checkpoint of the run's own
    cases hm : c.move with
    | push =>
      rw [hm] at hopen hk
      exact Keeps.run_nested hdb (H := s.observe db :: H) hk (by simp [hlen]) hopen h₂
    | keep =>
      rw [hm] at hopen hk
      exact Keeps.run_nested hdb hk hlen hopen h₂
    | pop =>
      rw [hm] at hopen hk
      cases d with
      | zero => cases hopen
      | succ d =>
        obtain ⟨g, H, rfl⟩ : ∃ g H', H = g :: H' := List.exists_cons_of_length_eq_add_one hlen
        exact Keeps.run_nested hdb (H := H) hk (by simpa using hlen) hopen h₂

/-- `discard_checkpoint` changes nothing observable. -/
theorem observe_discardCheckpoint (s : State Address Key) :
    s.discardCheckpoint.observe db = s.observe db := by
  unfold discardCheckpoint
  split <;> rfl

/-- A revert, after calls that close every checkpoint they open, restores the account map of the
matching `checkpoint()`; discards among the calls keep the snapshots below them. -/
theorem revertToCheckpoint_restores (hdb : db.WellFormed) {n : U256}
    {pre body : List (Call Address Key)} {s s' : State Address Key}
    (hpre : (State.fromExisting n).run db keccak pre = .ok s)
    (hbody : s.checkpoint.1.run db keccak body = .ok s') (hbal : Call.openAfter 0 body = some 0) :
    s'.revertToCheckpoint.observe db = s.observe db := by
  obtain ⟨G, hG⟩ := Keeps.run keccak hdb (Keeps.fromExisting n) hpre
  obtain ⟨H, hH, hk⟩ := Keeps.run_nested keccak hdb (H := []) hG.checkpoint rfl hbal hbody
  rw [List.length_eq_zero_iff] at hH
  subst hH
  exact hk.revertToCheckpoint.2

end State

/-! ## `checkpoint_storage_at` after `kill_account` -/

namespace State

variable {db}

omit [DecidableEq Key] in
theorem killAccount_checkpoints (s : State Address Key) (a : Address) :
    (s.killAccount a).checkpoints = recordNewest s.checkpoints a (s.cache a) := by
  rw [killAccount, insertCache_of_dirty rfl]

/-- Killing an account the cache does not hold, after checkpoint `i` was made: storage of the
trie account read `db.storage root key` when the checkpoint was made, but
`checkpoint_storage_at(i, a, key)` reads the pre-image `None` as an unchanged account, and its
original value from the killed entry: zero. -/
theorem checkpointStorageAt_after_kill (hdb : db.WellFormed) (s : State Address Key) {a : Address}
    {b : BasicAccount} (key : Key) (hc : s.cache a = none) (hb : db.account a = some b)
    (hroot : b.storageRoot ≠ keccakNullRlp) :
    (s.checkpoint.1.storageAt db a key).1 = db.storage b.storageRoot key ∧
      (s.checkpoint.1.killAccount a).checkpointStorageAt db s.checkpoint.2 a key =
        .ok (some 0, s.checkpoint.1.killAccount a) := by
  refine ⟨?_, ?_⟩
  · rw [storageAt_fst hdb (by simp [checkpoint, hc]) key]
    simp [observe, checkpoint, obsSlot, hc, hb, Account.view, Account.storageValue,
      Account.fromBasic, hroot]
  · have hkill : (s.checkpoint.1.killAccount a).checkpoints = Journal.record ∅ a none :: s.checkpoints := by
      rw [killAccount_checkpoints]
      simp [checkpoint, recordNewest, hc]
    have hscan : (s.checkpoint.1.killAccount a).checkpoints.reverse.drop s.checkpoint.2 =
        [Journal.record ∅ a none] := by
      rw [hkill, List.reverse_cons]
      exact List.drop_left' (by simp [checkpoint])
    have hl : (Journal.record ∅ a none : Checkpoint Address Key).lookup a = some none := by
      rw [Journal.lookup_record_self, AList.lookup_empty]
      rfl
    have hslot : (s.checkpoint.1.killAccount a).cache a = some (AccountEntry.newDirty none) := by
      simp [killAccount]
    unfold checkpointStorageAt
    rw [if_neg (by rw [hkill]; simp [checkpoint]), hscan]
    simp [scanCheckpoints, hl, ok_bind, originalStorageAt, storageAtInner, hslot,
      AccountEntry.newDirty, pure, Except.pure]

end State

/-- A backend with one account, at address `0`, whose storage trie holds `1` at every key. -/
def killBackend : Backend Nat Nat where
  account a := if a = 0 then some ⟨0, 0, 1, keccakEmpty⟩ else none
  storage _ _ := 1
  code _ := none
  cachedCode _ := none
  cachedAccount _ := false
  knownNull _ := false

theorem killBackend_wellFormed : killBackend.WellFormed :=
  ⟨(fun _ h => by cases h), fun _ _ h => by cases h⟩

theorem checkpointStorageAt_after_kill_one :
    ((State.fromExisting 0 : State Nat Nat).checkpoint.1.storageAt killBackend 0 0).1 = 1 ∧
      ((State.fromExisting 0 : State Nat Nat).checkpoint.1.killAccount 0).checkpointStorageAt
        killBackend (State.fromExisting 0 : State Nat Nat).checkpoint.2 0 0 =
        .ok (some 0, (State.fromExisting 0 : State Nat Nat).checkpoint.1.killAccount 0) :=
  State.checkpointStorageAt_after_kill killBackend_wellFormed (State.fromExisting 0) 0 rfl rfl
    (by decide)

end Dexfin.Parity
