import Dexfin.Lib.BestOf
import Dexfin.Stellar.LedgerState
import Dexfin.Stellar.OfferExchange
import Mathlib.Data.Finset.Basic
import Mathlib.Data.Prod.Lex

/-!
# The best offer of a pair over nested ledger states

`loadBestOffer` asks the innermost ledger state for the best offer of an asset pair. Each
`LedgerState` scans the offers it holds in `mEntry`, adds every offer key it holds to a shared
`exclude` set, whether its entry there is live, erased or of another pair, and then asks its
parent; the `LedgerStateRoot` answers from `mBestOffersCache`, a list per pair that it extends
from the database in batches of `BATCH_SIZE` offers. `isBetterOffer` orders offers by price,
as a `double`, and then by `offerID`.

The merged view of the stack is `getAllOffers`, the newest version of each offer key
(`getAllOffers_eq_getNewestVersion`). When the database query returns the offers of each pair
in `isBetterOffer` order (`QueryMatches`) and each cached list is a prefix of it
(`OfferRoot.CacheValid`), `getBestOffer` returns a best offer of the pair among those of the
merged view whose keys are outside `exclude`, or nothing when there is none, and keeps the
cache valid (`getBestOffer_spec`); the root's answer from its cache is the first included offer
of the whole query (`OfferRoot.getBestOffer_fst`).
-/

namespace Dexfin.Stellar

open Best

/-- `OfferEntry`: the fields of an offer that the order book reads. -/
structure OfferEntry (A : Type) where
  /-- `offerID`. -/
  offerID : ℤ
  /-- `selling`. -/
  selling : A
  /-- `buying`. -/
  buying : A
  /-- `price`. -/
  price : Price
  deriving DecidableEq, Repr

section Order

variable {D A P : Type} [LinearOrder P] (ratio : Price → P) (offer : D → OfferEntry A)

/-- `isBetterOffer`, reading an entry's offer with `offer` (`data.offer()`), and with
`double(price.n) / double(price.d)` given as `ratio`. Its `assert`s that both offers are of one
pair are left out: its callers only compare offers of the pair they look for. -/
def isBetterOffer (lhsEntry rhsEntry : LedgerEntry D) : Bool :=
  let lhs := offer lhsEntry.data
  let rhs := offer rhsEntry.data
  if ratio lhs.price < ratio rhs.price then true
  else if ratio lhs.price = ratio rhs.price then lhs.offerID < rhs.offerID
  else false

/-- `isBetterOffer` as a relation. -/
def BetterOffer (lhs rhs : LedgerEntry D) : Prop :=
  isBetterOffer ratio offer lhs rhs = true

instance : DecidableRel (BetterOffer ratio offer) := fun lhs rhs =>
  inferInstanceAs (Decidable (isBetterOffer ratio offer lhs rhs = true))

/-- What `isBetterOffer` compares: the price, then `offerID`. -/
def offerKey (e : LedgerEntry D) : Lex (P × ℤ) :=
  toLex (ratio (offer e.data).price, (offer e.data).offerID)

variable {ratio offer}

theorem betterOffer_iff {lhs rhs : LedgerEntry D} :
    BetterOffer ratio offer lhs rhs ↔ offerKey ratio offer lhs < offerKey ratio offer rhs := by
  simp only [BetterOffer, isBetterOffer, offerKey, Prod.Lex.toLex_lt_toLex]
  split_ifs with hlt heq
  · simp [hlt]
  · simp [heq]
  · simp [hlt, heq]

instance : IsStrictOrder (LedgerEntry D) (BetterOffer ratio offer) where
  irrefl e := by simp [betterOffer_iff]
  trans a b c hab hbc := betterOffer_iff.2 ((betterOffer_iff.1 hab).trans (betterOffer_iff.1 hbc))

instance : IsOrderConnected (LedgerEntry D) (BetterOffer ratio offer) where
  conn a b c hac := by
    simp only [betterOffer_iff] at hac ⊢
    exact (lt_or_ge _ _).imp_right fun hba => lt_of_le_of_lt hba hac

end Order

variable {K D A P : Type} [DecidableEq K] [DecidableEq A] [LinearOrder P]
  (ratio : Price → P) (offer : D → OfferEntry A) (isOffer : K → Bool) (keyOf : LedgerEntry D → K)

/-- The test of the loops: the entry is an offer of `buying` for `selling`. -/
def hasPair (buying selling : A) (e : LedgerEntry D) : Bool :=
  decide ((offer e.data).buying = buying ∧ (offer e.data).selling = selling)

/-- `getAllOffers`: the offers of the database, as `LedgerStateRoot::Impl::getAllOffers` loads
them, with each offer key that a ledger state holds erased or replaced by its entry there,
`isOffer` being `key.type() == OFFER`. Its loop writes each key of `mEntry` once, so a key is
read from the innermost state that holds it. -/
def getAllOffers (root : LedgerStateRoot K D) : List (LedgerState K D) → K → Option (LedgerEntry D)
  | [], key => if isOffer key then root.entries key else none
  | s :: parents, key =>
    match s.entry key with
    | some entry => if isOffer key then entry else getAllOffers root parents key
    | none => getAllOffers root parents key

/-- A ledger state with the keys of `mEntry` in the order its loops visit them, the order of
the `std::map`; no result here depends on that order. -/
structure ListedState (K D : Type) where
  /-- The ledger state. -/
  state : LedgerState K D
  /-- The keys of `mEntry`. -/
  keys : List K
  /-- A map holds each key once. -/
  nodup : keys.Nodup
  /-- The keys are those that `mEntry` holds. -/
  mem_keys : ∀ key, key ∈ keys ↔ (state.entry key).isSome

/-- The offer keys of `s`: what the loop of its `getBestOffer` adds to `exclude`. -/
def ListedState.offerKeys (s : ListedState K D) : Finset K :=
  (s.keys.filter isOffer).toFinset

/-- One turn of the loop of `LedgerState::Impl::getBestOffer` over `mEntry`: an offer key not
yet in `exclude` is added to it (`exclude.insert(key).second`), and its entry, when live and
of the pair, replaces the best so far if it is better. -/
def scanOffer (s : LedgerState K D) (buying selling : A)
    (acc : Finset K × Option (LedgerEntry D)) (key : K) : Finset K × Option (LedgerEntry D) :=
  if !isOffer key then acc
  else if key ∈ acc.1 then acc
  else
    match s.entry key with
    | some (some entry) =>
      if hasPair offer buying selling entry then
        (insert key acc.1, pick (BetterOffer ratio offer) (some entry) acc.2)
      else (insert key acc.1, acc.2)
    | _ => (insert key acc.1, acc.2)

/-- `BestOffersCacheEntry`: the best offers of a pair loaded so far, in order, and whether
they are all of them. -/
structure BestOffersCacheEntry (D : Type) where
  /-- `bestOffers`. -/
  bestOffers : List (LedgerEntry D)
  /-- `allLoaded`. -/
  allLoaded : Bool

/-- What `LedgerStateRoot::Impl::getBestOffer` reads: the rows of the offers query of
`loadBestOffers` for each pair, in its `ORDER BY price, offerid` order, and
`mBestOffersCache`, keyed by the pair. -/
structure OfferRoot (D A : Type) where
  /-- The rows the query returns for `buying` and `selling`, before `LIMIT` and `OFFSET`. -/
  rows : A → A → List (LedgerEntry D)
  /-- `mBestOffersCache`. -/
  cache : A × A → Option (BestOffersCacheEntry D)

/-- `findIncludedOffer`: the first offer whose key is not in `exclude`. -/
def findIncludedOffer (exclude : Finset K) (offers : List (LedgerEntry D)) :
    Option (LedgerEntry D) :=
  offers.find? fun e => keyOf e ∉ exclude

/-- `BATCH_SIZE` of the loop of `LedgerStateRoot::Impl::getBestOffer`. -/
def BATCH_SIZE : ℕ := 5

/-- `loadBestOffers(offers, buying, selling, numOffers, offset)` on the query's rows: the
`numOffers` rows from `offset` on, which it appends to `offers`. -/
def loadBestOffers (rows : List (LedgerEntry D)) (numOffers offset : ℕ) : List (LedgerEntry D) :=
  (rows.drop offset).take numOffers

/-- The `while` loop of `LedgerStateRoot::Impl::getBestOffer`, entered when no cached offer is
included: load the batch after the cached offers, mark the list complete when the batch comes
back short, and look for an included offer among the new ones. -/
def loadBatches (rows : List (LedgerEntry D)) (exclude : Finset K)
    (cached : BestOffersCacheEntry D) : Option (LedgerEntry D) × BestOffersCacheEntry D :=
  if cached.allLoaded then (none, cached)
  else
    let newOffers := loadBestOffers rows BATCH_SIZE cached.bestOffers.length
    -- `allLoaded` is false here, so setting it when the batch is short is this test
    let cached' : BestOffersCacheEntry D :=
      ⟨cached.bestOffers ++ newOffers, decide (newOffers.length < BATCH_SIZE)⟩
    match findIncludedOffer keyOf exclude newOffers with
    | some offer => (some offer, cached')
    | none => loadBatches rows exclude cached'
termination_by (rows.length - cached.bestOffers.length) + (if cached.allLoaded then 0 else 1)
decreasing_by
  simp only [loadBestOffers, BATCH_SIZE, List.length_append, List.length_take,
    List.length_drop, decide_eq_true_eq] at *
  split_ifs <;> omega

/-- `LedgerStateRoot::Impl::getBestOffer`: the cached list of the pair (`getFromBestOffersCache`
puts an empty one when there is none) is searched first, then the loop pages through the
query; the cache keeps what was loaded. -/
def OfferRoot.getBestOffer (r : OfferRoot D A) (buying selling : A) (exclude : Finset K) :
    Option (LedgerEntry D) × OfferRoot D A :=
  let cached := (r.cache (buying, selling)).getD ⟨[], false⟩
  match findIncludedOffer keyOf exclude cached.bestOffers with
  | some offer => (some offer, { r with cache := Function.update r.cache (buying, selling) cached })
  | none =>
    let (res, cached') := loadBatches keyOf (r.rows buying selling) exclude cached
    (res, { r with cache := Function.update r.cache (buying, selling) cached' })

/-- `LedgerState::Impl::getBestOffer` of the innermost of `states` over the root `r`: each state
scans its offer keys, adding them to `exclude`, before its parent is asked, and returns the
better of its own best and its parent's, the parent's on a tie. -/
def getBestOffer (buying selling : A) :
    List (ListedState K D) → Finset K → OfferRoot D A →
      Option (LedgerEntry D) × Finset K × OfferRoot D A
  | [], exclude, r =>
    let (res, r') := r.getBestOffer keyOf buying selling exclude
    (res, exclude, r')
  | s :: parents, exclude, r =>
    let (exclude', bestOffer) :=
      s.keys.foldl (scanOffer ratio offer isOffer s.state buying selling) (exclude, none)
    let (parentBestOffer, exclude'', r') := getBestOffer buying selling parents exclude' r
    (pick (BetterOffer ratio offer) bestOffer parentBestOffer, exclude'', r')

/-! ### What the answer should be -/

/-- The offers of the pair that `view` holds under keys outside `exclude`. -/
def offersOfPair (view : K → Option (LedgerEntry D)) (buying selling : A) (exclude : Finset K) :
    Set (LedgerEntry D) :=
  {e | ∃ key, key ∉ exclude ∧ view key = some e ∧ hasPair offer buying selling e = true}

/-- The live offers of the pair that `s` holds under the offer keys of `keys` outside
`exclude`: what a scan of `keys` competes. -/
def scannedOffers (s : LedgerState K D) (buying selling : A) (keys : List K)
    (exclude : Finset K) : Set (LedgerEntry D) :=
  {e | ∃ key ∈ keys, isOffer key = true ∧ key ∉ exclude ∧ s.entry key = some (some e) ∧
    hasPair offer buying selling e = true}

/-- What the model takes of the database: for each pair the query of `loadBestOffers` returns
the offers of the database with that pair, in `isBetterOffer` order, and each offer is stored
under its own key (`LedgerEntryKey`). -/
structure QueryMatches (root : LedgerStateRoot K D) (rows : A → A → List (LedgerEntry D)) :
    Prop where
  /-- `ORDER BY price, offerid`. -/
  sorted : ∀ buying selling, (rows buying selling).Pairwise fun a b => ¬ BetterOffer ratio offer b a
  /-- `WHERE` on the pair. -/
  mem_rows : ∀ buying selling e, e ∈ rows buying selling ↔
    ∃ key, isOffer key = true ∧ root.entries key = some e ∧ hasPair offer buying selling e = true
  /-- The database stores an offer under its key. -/
  keyOf_eq : ∀ key e, isOffer key = true → root.entries key = some e → keyOf e = key

/-- A cached list is a prefix of the query's rows, all of them once `allLoaded` is set. -/
structure BestOffersCacheEntry.Valid (rows : List (LedgerEntry D)) (cached : BestOffersCacheEntry D) :
    Prop where
  /-- The cache holds the best offers, in order. -/
  prefix_rows : cached.bestOffers <+: rows
  /-- `allLoaded` means that no row is left to load. -/
  allLoaded_eq : cached.allLoaded = true → cached.bestOffers = rows

/-- Every cached list is valid for the rows of its pair: the note at the top of the root's
`getBestOffer`, that the lists of `mBestOffersCache` stay properly sorted. -/
def OfferRoot.CacheValid (r : OfferRoot D A) : Prop :=
  ∀ buying selling cached, r.cache (buying, selling) = some cached →
    cached.Valid (r.rows buying selling)

variable {ratio offer isOffer keyOf}

/-! ### The merged view -/

omit [DecidableEq K] in
/-- The merged view is the newest version of each offer key. -/
theorem getAllOffers_eq_getNewestVersion (root : LedgerStateRoot K D)
    (states : List (LedgerState K D)) (key : K) :
    getAllOffers isOffer root states key =
      if isOffer key then getNewestVersion root states key else none := by
  induction states with
  | nil => rfl
  | cons s parents ih =>
    rcases h : s.entry key with _ | entry
    · simpa [getAllOffers, getNewestVersion, h] using ih
    · by_cases hk : isOffer key <;> simp [getAllOffers, getNewestVersion, h, hk, ih]

theorem ListedState.mem_offerKeys {s : ListedState K D} {key : K} :
    key ∈ s.offerKeys isOffer ↔ (s.state.entry key).isSome ∧ isOffer key = true := by
  simp [ListedState.offerKeys, s.mem_keys]

/-- A listed state decides the offer keys it holds and passes the others to its parents. -/
theorem getAllOffers_listed (root : LedgerStateRoot K D) (s : ListedState K D)
    (parents : List (LedgerState K D)) (key : K) :
    getAllOffers isOffer root (s.state :: parents) key =
      if key ∈ s.offerKeys isOffer then (s.state.entry key).join
      else getAllOffers isOffer root parents key := by
  rcases h : s.state.entry key with _ | entry
  · simp [getAllOffers, h, ListedState.mem_offerKeys]
  · by_cases hk : isOffer key <;> simp [getAllOffers, h, hk, ListedState.mem_offerKeys]

/-- The offers outside `exclude` in the view of `s` over its parents: those `s` scans, and
those of its parents outside its own offer keys too. -/
theorem offersOfPair_listed (root : LedgerStateRoot K D) (s : ListedState K D)
    (parents : List (LedgerState K D)) (buying selling : A) (exclude : Finset K) :
    offersOfPair offer (getAllOffers isOffer root (s.state :: parents)) buying selling exclude =
      scannedOffers offer isOffer s.state buying selling s.keys exclude ∪
        offersOfPair offer (getAllOffers isOffer root parents) buying selling
          (exclude ∪ s.offerKeys isOffer) := by
  ext e
  simp only [offersOfPair, scannedOffers, Set.mem_union, Set.mem_ofPred_eq,
    getAllOffers_listed, Finset.mem_union, not_or]
  constructor
  · rintro ⟨key, hkE, hview, hpair⟩
    by_cases hk : key ∈ s.offerKeys isOffer
    · rw [if_pos hk, Option.join_eq_some_iff] at hview
      have hkeys : key ∈ s.keys := (s.mem_keys key).2 (by simp [hview])
      exact Or.inl ⟨key, hkeys, (ListedState.mem_offerKeys.1 hk).2, hkE, hview, hpair⟩
    · rw [if_neg hk] at hview
      exact Or.inr ⟨key, ⟨hkE, hk⟩, hview, hpair⟩
  · rintro (⟨key, hkeys, hoff, hkE, hentry, hpair⟩ | ⟨key, ⟨hkE, hk⟩, hview, hpair⟩)
    · have hk : key ∈ s.offerKeys isOffer := by simp [ListedState.offerKeys, hkeys, hoff]
      exact ⟨key, hkE, by rw [if_pos hk, hentry]; rfl, hpair⟩
    · exact ⟨key, hkE, by rw [if_neg hk]; exact hview, hpair⟩

/-! ### The scan of one ledger state -/

omit [DecidableEq K] in
theorem scannedOffers_nil (s : LedgerState K D) (buying selling : A) (exclude : Finset K) :
    scannedOffers offer isOffer s buying selling [] exclude = ∅ := by
  simp [scannedOffers]

omit [DecidableEq K] in
theorem scannedOffers_cons (s : LedgerState K D) (buying selling : A) (key : K) (keys : List K)
    (exclude : Finset K) :
    scannedOffers offer isOffer s buying selling (key :: keys) exclude =
      {e | isOffer key = true ∧ key ∉ exclude ∧ s.entry key = some (some e) ∧
        hasPair offer buying selling e = true} ∪
      scannedOffers offer isOffer s buying selling keys exclude := by
  ext e
  simp [scannedOffers]

/-- Keys the scan has not reached yet are not affected by the keys it has added. -/
theorem scannedOffers_insert (s : LedgerState K D) (buying selling : A) {key : K} {keys : List K}
    (hkey : key ∉ keys) (exclude : Finset K) :
    scannedOffers offer isOffer s buying selling keys (insert key exclude) =
      scannedOffers offer isOffer s buying selling keys exclude := by
  ext e
  simp only [scannedOffers, Set.mem_ofPred_eq, Finset.mem_insert, not_or]
  constructor
  · rintro ⟨k, hk, hoff, ⟨-, hkE⟩, hentry⟩
    exact ⟨k, hk, hoff, hkE, hentry⟩
  · rintro ⟨k, hk, hoff, hkE, hentry⟩
    exact ⟨k, hk, hoff, ⟨fun h => hkey (h ▸ hk), hkE⟩, hentry⟩

/-- One turn of the loop: an offer key joins `exclude`, and the candidate is the best of what
was seen and of the key's entry, when that entry counts. -/
theorem scanOffer_step (s : LedgerState K D) (buying selling : A) (key : K) (exclude : Finset K)
    {best : Option (LedgerEntry D)} {S : Set (LedgerEntry D)}
    (h : BestOf (BetterOffer ratio offer) S best) :
    (scanOffer ratio offer isOffer s buying selling (exclude, best) key).1 =
        (if isOffer key then insert key exclude else exclude) ∧
      BestOf (BetterOffer ratio offer)
        (S ∪ {e | isOffer key = true ∧ key ∉ exclude ∧ s.entry key = some (some e) ∧
          hasPair offer buying selling e = true})
        (scanOffer ratio offer isOffer s buying selling (exclude, best) key).2 := by
  by_cases hoff : isOffer key = true
  · by_cases hkE : key ∈ exclude
    · -- `exclude.insert(key).second` is false: a state above has scanned the key
      have hscan : scanOffer ratio offer isOffer s buying selling (exclude, best) key =
          (exclude, best) := by simp [scanOffer, hoff, hkE]
      rw [hscan]
      exact ⟨by simp [hoff, hkE], h.of_eq (by simp [hkE])⟩
    · -- the key joins `exclude`; only a live entry of the pair competes
      have hcount : ∀ e, s.entry key = some (some e) → hasPair offer buying selling e = true →
          (scanOffer ratio offer isOffer s buying selling (exclude, best) key) =
            (insert key exclude, pick (BetterOffer ratio offer) (some e) best) := by
        intro e hentry hpair
        simp [scanOffer, hoff, hkE, hentry, hpair]
      have hskip : (∀ e, s.entry key = some (some e) → hasPair offer buying selling e = false) →
          (scanOffer ratio offer isOffer s buying selling (exclude, best) key) =
            (insert key exclude, best) := by
        intro hnone
        rcases hentry : s.entry key with _ | _ | e
        · simp [scanOffer, hoff, hkE, hentry]
        · simp [scanOffer, hoff, hkE, hentry]
        · simp [scanOffer, hoff, hkE, hentry, hnone e hentry]
      by_cases hlive : ∃ e, s.entry key = some (some e) ∧ hasPair offer buying selling e = true
      · obtain ⟨e, hentry, hpair⟩ := hlive
        rw [hcount e hentry hpair]
        refine ⟨by simp [hoff], (bestOf_pick_insert h e).of_eq ?_⟩
        ext x
        simp only [Set.mem_insert_iff, Set.mem_union, Set.mem_ofPred_eq, hentry,
          Option.some.injEq]
        constructor
        · rintro (rfl | hx)
          · exact Or.inr ⟨hoff, hkE, rfl, hpair⟩
          · exact Or.inl hx
        · rintro (hx | ⟨-, -, rfl, -⟩)
          · exact Or.inr hx
          · exact Or.inl rfl
      · have hnone : ∀ e, s.entry key = some (some e) → hasPair offer buying selling e = false :=
          fun e hentry => by simpa using fun hpair => hlive ⟨e, hentry, hpair⟩
        rw [hskip hnone]
        refine ⟨by simp [hoff], h.of_eq ?_⟩
        ext x
        simp only [Set.mem_union, Set.mem_ofPred_eq]
        constructor
        · exact Or.inl
        · rintro (hx | ⟨-, -, hentry, hpair⟩)
          · exact hx
          · exact absurd hpair (by simp [hnone x hentry])
  · have hscan : scanOffer ratio offer isOffer s buying selling (exclude, best) key =
        (exclude, best) := by simp [scanOffer, hoff]
    rw [hscan]
    exact ⟨by simp [hoff], h.of_eq (by simp [hoff])⟩

/-- The loop over the keys of a state: it adds the offer keys to `exclude` and finds the best
of what it was given and of the offers it scans. Each key is visited once, so a key it adds
never hides one it has still to visit. -/
theorem foldl_scanOffer (s : LedgerState K D) (buying selling : A) {keys : List K}
    (hkeys : keys.Nodup) (acc : Finset K × Option (LedgerEntry D)) {S : Set (LedgerEntry D)}
    (h : BestOf (BetterOffer ratio offer) S acc.2) :
    (keys.foldl (scanOffer ratio offer isOffer s buying selling) acc).1 =
        acc.1 ∪ (keys.filter isOffer).toFinset ∧
      BestOf (BetterOffer ratio offer)
        (S ∪ scannedOffers offer isOffer s buying selling keys acc.1)
        (keys.foldl (scanOffer ratio offer isOffer s buying selling) acc).2 := by
  induction keys generalizing acc S with
  | nil => simpa [scannedOffers_nil] using h
  | cons key keys ih =>
    rw [List.nodup_cons] at hkeys
    obtain ⟨exclude, best⟩ := acc
    obtain ⟨hturn₁, hturn₂⟩ := scanOffer_step s buying selling key exclude h
    obtain ⟨hrest₁, hrest₂⟩ := ih hkeys.2 _ hturn₂
    rw [List.foldl_cons]
    refine ⟨?_, hrest₂.of_eq ?_⟩
    · rw [hrest₁, hturn₁]
      by_cases hoff : isOffer key = true
      · simp [hoff, List.filter_cons_of_pos hoff, Finset.insert_union, Finset.union_insert]
      · simp [hoff]
    · rw [hturn₁, scannedOffers_cons]
      split_ifs
      · rw [scannedOffers_insert s buying selling hkeys.1, Set.union_assoc]
      · rw [Set.union_assoc]

/-! ### The cache of the root -/

theorem BestOffersCacheEntry.valid_empty (rows : List (LedgerEntry D)) :
    (⟨[], false⟩ : BestOffersCacheEntry D).Valid rows :=
  ⟨List.nil_prefix, by simp⟩

/-- The rows past a valid cached list: the next batch, then the rest. -/
theorem BestOffersCacheEntry.Valid.rows_eq {rows : List (LedgerEntry D)}
    {cached : BestOffersCacheEntry D} (h : cached.Valid rows) :
    rows = cached.bestOffers ++ (loadBestOffers rows BATCH_SIZE cached.bestOffers.length ++
      (rows.drop cached.bestOffers.length).drop BATCH_SIZE) := by
  obtain ⟨rest, rfl⟩ := h.prefix_rows
  rw [loadBestOffers, List.drop_left, List.take_append_drop]

/-- One turn of the loop keeps the cached list valid: the batch continues the prefix, and a
short batch reaches the end of the rows. -/
theorem BestOffersCacheEntry.Valid.next {rows : List (LedgerEntry D)}
    {cached : BestOffersCacheEntry D} (h : cached.Valid rows) :
    (⟨cached.bestOffers ++ loadBestOffers rows BATCH_SIZE cached.bestOffers.length,
      decide ((loadBestOffers rows BATCH_SIZE cached.bestOffers.length).length < BATCH_SIZE)⟩ :
      BestOffersCacheEntry D).Valid rows := by
  obtain ⟨rest, rfl⟩ := h.prefix_rows
  rw [loadBestOffers, List.drop_left]
  refine ⟨(List.prefix_append_right_inj _).2 (List.take_prefix _ _), fun hshort => ?_⟩
  have hlen : rest.length ≤ BATCH_SIZE := by
    simp only [decide_eq_true_eq, List.length_take] at hshort
    omega
  simp only [List.take_of_length_le hlen]

theorem findIncludedOffer_append {exclude : Finset K} {offers : List (LedgerEntry D)}
    (h : findIncludedOffer keyOf exclude offers = none) (rest : List (LedgerEntry D)) :
    findIncludedOffer keyOf exclude (offers ++ rest) = findIncludedOffer keyOf exclude rest := by
  simp only [findIncludedOffer, List.find?_append] at h ⊢
  rw [h, Option.none_or]

/-- The `while` loop returns the first included row, and leaves the cached list valid. It
runs while no included offer is found, each turn either loading a full batch or reaching the
end of the rows. -/
theorem loadBatches_spec {rows : List (LedgerEntry D)} {exclude : Finset K}
    {cached : BestOffersCacheEntry D} (h : cached.Valid rows)
    (hnone : findIncludedOffer keyOf exclude cached.bestOffers = none) :
    (loadBatches keyOf rows exclude cached).1 = findIncludedOffer keyOf exclude rows ∧
      (loadBatches keyOf rows exclude cached).2.Valid rows := by
  fun_induction loadBatches keyOf rows exclude cached with
  | case1 cached hall =>
    -- `allLoaded`: every row is cached, and none is included
    refine ⟨?_, h⟩
    show none = _
    rw [← h.allLoaded_eq hall, hnone]
  | case2 cached hmore newOffers cached' offer hfound =>
    refine ⟨?_, h.next⟩
    rw [h.rows_eq, findIncludedOffer_append hnone, findIncludedOffer, List.find?_append]
    simp only [findIncludedOffer] at hfound
    rw [hfound, Option.some_or]
  | case3 cached hmore newOffers cached' hfound ih =>
    exact ih h.next (by rw [findIncludedOffer_append hnone]; exact hfound)

omit [DecidableEq K] in
theorem OfferRoot.CacheValid.update {r : OfferRoot D A} (hc : r.CacheValid) {buying selling : A}
    {cached : BestOffersCacheEntry D} (hv : cached.Valid (r.rows buying selling)) :
    ({ r with cache := Function.update r.cache (buying, selling) cached } : OfferRoot D A).CacheValid := by
  intro b s c hc'
  dsimp only at hc'
  by_cases hbs : (b, s) = (buying, selling)
  · obtain ⟨rfl, rfl⟩ := Prod.mk.inj hbs
    simp only [Function.update_self, Option.some.injEq] at hc'
    exact hc' ▸ hv
  · rw [Function.update_of_ne hbs] at hc'
    exact hc b s c hc'

/-- The root answers as a scan of the whole query would, whatever it had cached, and keeps its
cache valid. -/
theorem OfferRoot.getBestOffer_spec {r : OfferRoot D A} (hc : r.CacheValid) (buying selling : A)
    (exclude : Finset K) :
    (r.getBestOffer keyOf buying selling exclude).1 =
        findIncludedOffer keyOf exclude (r.rows buying selling) ∧
      (r.getBestOffer keyOf buying selling exclude).2.rows = r.rows ∧
      (r.getBestOffer keyOf buying selling exclude).2.CacheValid := by
  -- `getFromBestOffersCache`: the cached entry, or an empty one
  have hcached : ((r.cache (buying, selling)).getD ⟨[], false⟩).Valid (r.rows buying selling) := by
    rcases hcache : r.cache (buying, selling) with _ | cached
    · exact BestOffersCacheEntry.valid_empty _
    · exact hc buying selling cached hcache
  simp only [OfferRoot.getBestOffer]
  split
  · next offer hfound =>
    refine ⟨?_, rfl, hc.update hcached⟩
    -- an included cached offer is the first included row, the cache being a prefix
    obtain ⟨rest, hrest⟩ := hcached.prefix_rows
    rw [← hrest, findIncludedOffer, List.find?_append]
    simp only [findIncludedOffer] at hfound
    rw [hfound, Option.some_or]
  · next hnone =>
    obtain ⟨hres, hvalid⟩ := loadBatches_spec hcached hnone
    exact ⟨hres, rfl, hc.update hvalid⟩

/-! ### The whole stack -/

/-- Under `QueryMatches`, the first included row is a best offer of the pair among the
database's offers outside `exclude`. -/
theorem QueryMatches.bestOf_findIncludedOffer {root : LedgerStateRoot K D}
    {rows : A → A → List (LedgerEntry D)} (hq : QueryMatches ratio offer isOffer keyOf root rows)
    (buying selling : A) (exclude : Finset K) :
    BestOf (BetterOffer ratio offer)
      (offersOfPair offer (getAllOffers isOffer root []) buying selling exclude)
      (findIncludedOffer keyOf exclude (rows buying selling)) := by
  refine (bestOf_find? (hq.sorted buying selling) _).of_eq (Set.ext fun e => ?_)
  simp only [Set.mem_ofPred_eq, offersOfPair, getAllOffers, decide_eq_true_eq]
  constructor
  · rintro ⟨he, hkey⟩
    obtain ⟨key, hoff, hentry, hpair⟩ := (hq.mem_rows buying selling e).1 he
    refine ⟨key, ?_, by rw [if_pos hoff]; exact hentry, hpair⟩
    rwa [← hq.keyOf_eq key e hoff hentry]
  · rintro ⟨key, hkE, hview, hpair⟩
    -- the view of the root holds offer keys only
    have hoff : isOffer key = true := by
      by_contra hoff
      rw [if_neg hoff] at hview
      cases hview
    rw [if_pos hoff] at hview
    refine ⟨(hq.mem_rows buying selling e).2 ⟨key, hoff, hview, hpair⟩, ?_⟩
    rwa [hq.keyOf_eq key e hoff hview]

theorem getBestOffer_nil (buying selling : A) (exclude : Finset K) (r : OfferRoot D A) :
    getBestOffer ratio offer isOffer keyOf buying selling [] exclude r =
      ((r.getBestOffer keyOf buying selling exclude).1, exclude,
        (r.getBestOffer keyOf buying selling exclude).2) := rfl

theorem getBestOffer_cons (buying selling : A) (s : ListedState K D)
    (parents : List (ListedState K D)) (exclude : Finset K) (r : OfferRoot D A) :
    getBestOffer ratio offer isOffer keyOf buying selling (s :: parents) exclude r =
      (pick (BetterOffer ratio offer)
          (s.keys.foldl (scanOffer ratio offer isOffer s.state buying selling) (exclude, none)).2
          (getBestOffer ratio offer isOffer keyOf buying selling parents
            (s.keys.foldl (scanOffer ratio offer isOffer s.state buying selling) (exclude, none)).1
            r).1,
        (getBestOffer ratio offer isOffer keyOf buying selling parents
          (s.keys.foldl (scanOffer ratio offer isOffer s.state buying selling) (exclude, none)).1
          r).2) := rfl

/-- Each state of the stack scans its offer keys and hides them from its parents, so the answer
is a best offer of the pair in the merged view outside `exclude`; the root's cache stays valid.
By induction on the stack, with `exclude` growing by each state's offer keys. -/
theorem getBestOffer_spec {root : LedgerStateRoot K D} {rows : A → A → List (LedgerEntry D)}
    (hq : QueryMatches ratio offer isOffer keyOf root rows) (buying selling : A)
    (states : List (ListedState K D)) (exclude : Finset K) {r : OfferRoot D A}
    (hrows : r.rows = rows) (hc : r.CacheValid) :
    BestOf (BetterOffer ratio offer)
        (offersOfPair offer (getAllOffers isOffer root (states.map ListedState.state))
          buying selling exclude)
        (getBestOffer ratio offer isOffer keyOf buying selling states exclude r).1 ∧
      (getBestOffer ratio offer isOffer keyOf buying selling states exclude r).2.2.rows = rows ∧
      (getBestOffer ratio offer isOffer keyOf buying selling states exclude r).2.2.CacheValid := by
  induction states generalizing exclude with
  | nil =>
    obtain ⟨hres, hrows', hvalid⟩ := OfferRoot.getBestOffer_spec hc buying selling exclude
    rw [getBestOffer_nil]
    refine ⟨?_, hrows'.trans hrows, hvalid⟩
    rw [hres, hrows]
    exact hq.bestOf_findIncludedOffer buying selling exclude
  | cons s parents ih =>
    have hstart : BestOf (BetterOffer ratio offer) (∅ : Set (LedgerEntry D)) none := rfl
    obtain ⟨hexclude, hbest⟩ := foldl_scanOffer s.state buying selling s.nodup (exclude, none) hstart
    obtain ⟨hparent, hrows', hvalid⟩ :=
      ih (s.keys.foldl (scanOffer ratio offer isOffer s.state buying selling) (exclude, none)).1
    rw [getBestOffer_cons]
    refine ⟨?_, hrows', hvalid⟩
    rw [List.map_cons, offersOfPair_listed]
    refine bestOf_pick (hbest.of_eq (Set.empty_union _)) ?_
    rw [hexclude] at hparent ⊢
    exact hparent

/-- `loadBestOffer` sees the merged book: for every stack of ledger states over the root and
every `exclude` set (`loadBestOffer` passes an empty one), `getBestOffer` returns a best offer
of the pair among the offers of `getAllOffers` outside `exclude`, or nothing when there is
none, and leaves the root's cache valid; and the root, whatever it has cached, answers as a
scan of the whole query would. -/
theorem getBestOffer_merged {root : LedgerStateRoot K D} {r : OfferRoot D A}
    (hq : QueryMatches ratio offer isOffer keyOf root r.rows) (hc : r.CacheValid)
    (buying selling : A) :
    (∀ (states : List (ListedState K D)) (exclude : Finset K),
      BestOf (BetterOffer ratio offer)
          (offersOfPair offer (getAllOffers isOffer root (states.map ListedState.state))
            buying selling exclude)
          (getBestOffer ratio offer isOffer keyOf buying selling states exclude r).1 ∧
        (getBestOffer ratio offer isOffer keyOf buying selling states exclude r).2.2.CacheValid) ∧
    ∀ exclude : Finset K, (r.getBestOffer keyOf buying selling exclude).1 =
      findIncludedOffer keyOf exclude (r.rows buying selling) := by
  refine ⟨fun states exclude => ?_, fun exclude =>
    (OfferRoot.getBestOffer_spec hc buying selling exclude).1⟩
  obtain ⟨hbest, -, hvalid⟩ := getBestOffer_spec hq buying selling states exclude rfl hc
  exact ⟨hbest, hvalid⟩

/-- Offer 7 of the pair 0 → 1 at price 3/2. -/
def offerSeven : LedgerEntry (OfferEntry ℕ) := ⟨1, ⟨7, 1, 0, ⟨3, 2⟩⟩⟩

/-- A database that holds offer 7 alone. -/
def sevenRoot : LedgerStateRoot ℕ (OfferEntry ℕ) :=
  ⟨fun key => if key = 7 then some offerSeven else none, 1⟩

/-- The query's rows over `sevenRoot`. -/
def sevenRows (buying selling : ℕ) : List (LedgerEntry (OfferEntry ℕ)) :=
  if buying = 0 ∧ selling = 1 then [offerSeven] else []

/-- The rows of `sevenRoot`, with the pair 0 → 1 cached and all loaded. -/
def sevenCached : OfferRoot (OfferEntry ℕ) ℕ :=
  ⟨sevenRows, fun pair => if pair = (0, 1) then some ⟨[offerSeven], true⟩ else none⟩

/-- A ledger state over the root that erases offer 7. -/
def eraseSeven : ListedState ℕ (OfferEntry ℕ) :=
  ⟨⟨fun key => if key = 7 then some none else none, 2, true⟩, [7], by decide,
    fun key => by by_cases h : key = 7 <;> simp [h]⟩

/-- A ledger state that erases the one offer of the database, over a root that has the pair
cached: the merged view has no offer of the pair, and the cache stays valid. -/
theorem getBestOffer_merged_one_offer :
    QueryMatches (fun p : Price => p.n) (id : OfferEntry ℕ → OfferEntry ℕ) (fun _ : ℕ => true)
        (fun e => e.data.offerID.toNat) sevenRoot sevenRows ∧
      sevenCached.CacheValid ∧
      BestOf (BetterOffer (fun p : Price => p.n) id)
        (offersOfPair id (getAllOffers (fun _ : ℕ => true) sevenRoot [eraseSeven.state]) 0 1 ∅)
        (getBestOffer (fun p : Price => p.n) id (fun _ : ℕ => true) (fun e => e.data.offerID.toNat)
          0 1 [eraseSeven] ∅ sevenCached).1 ∧
      (getBestOffer (fun p : Price => p.n) id (fun _ : ℕ => true) (fun e => e.data.offerID.toNat)
          0 1 [eraseSeven] ∅ sevenCached).2.2.CacheValid ∧
      (sevenCached.getBestOffer (fun e => e.data.offerID.toNat) 0 1 ∅).1 =
        findIncludedOffer (fun e => e.data.offerID.toNat) ∅ (sevenRows 0 1) := by
  have hq : QueryMatches (fun p : Price => p.n) (id : OfferEntry ℕ → OfferEntry ℕ)
      (fun _ : ℕ => true) (fun e => e.data.offerID.toNat) sevenRoot sevenRows := by
    refine ⟨fun buying selling => ?_, fun buying selling e => ?_, fun key e _ he => ?_⟩
    · unfold sevenRows
      split <;> simp
    · unfold sevenRows sevenRoot
      by_cases hpair : buying = 0 ∧ selling = 1
      · obtain ⟨rfl, rfl⟩ := hpair
        simp only [and_self, if_true, List.mem_singleton, true_and]
        constructor
        · rintro rfl
          exact ⟨7, rfl, rfl⟩
        · rintro ⟨key, hkey, -⟩
          split at hkey
          · exact (Option.some.inj hkey).symm
          · cases hkey
      · simp only [hpair, if_false, List.not_mem_nil, false_iff, not_exists, not_and]
        intro key _ he hp
        split at he
        · cases he
          simp only [hasPair, offerSeven, id] at hp
          obtain ⟨h0, h1⟩ := of_decide_eq_true hp
          exact hpair ⟨h0.symm, h1.symm⟩
        · cases he
    · simp only [sevenRoot] at he
      split at he
      · next hkey =>
        cases he
        rw [hkey]
        rfl
      · cases he
  -- the one cached list is the pair's whole row list
  have hc : sevenCached.CacheValid := by
    intro buying selling cached h
    simp only [sevenCached] at h ⊢
    split at h
    · next hpair =>
      obtain ⟨rfl, rfl⟩ := Prod.mk.inj hpair
      cases h
      exact ⟨List.prefix_refl _, fun _ => rfl⟩
    · cases h
  obtain ⟨hmerged, hroot⟩ := getBestOffer_merged hq hc 0 1
  exact ⟨hq, hc, (hmerged [eraseSeven] ∅).1, (hmerged [eraseSeven] ∅).2, hroot ∅⟩

/-- Offer 7 moved to another pair in a ledger state hides its old version, which the root has
cached first, and the next cached offer is returned. -/
example :
    (getBestOffer (fun p : Price => p.n) id (fun _ : ℕ => true) (fun e => e.data.offerID.toNat)
      0 1 [⟨⟨fun key => if key = 7 then some (some ⟨2, ⟨7, 1, 5, ⟨3, 2⟩⟩⟩) else none, 2, true⟩,
        [7], by decide, fun key => by by_cases h : key = 7 <;> simp [h]⟩] ∅
      ⟨fun _ _ => [⟨1, ⟨7, 1, 0, ⟨3, 2⟩⟩⟩, ⟨1, ⟨9, 1, 0, ⟨5, 1⟩⟩⟩],
        fun _ => some ⟨[⟨1, ⟨7, 1, 0, ⟨3, 2⟩⟩⟩, ⟨1, ⟨9, 1, 0, ⟨5, 1⟩⟩⟩], true⟩⟩).1 =
      some ⟨1, ⟨9, 1, 0, ⟨5, 1⟩⟩⟩ := by decide

end Dexfin.Stellar
