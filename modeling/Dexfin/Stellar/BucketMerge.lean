import Dexfin.Lib.KeyedList

/-!
# `Bucket::merge` and `Bucket::fresh`

A bucket is a file of `BucketEntry`s, live entries and the keys of dead ones, in increasing
order of `BucketEntryIdCmp`. `Bucket::merge` walks an old and a new bucket with two cursors
and offers each entry to `maybePut`, the new one when both hold a key; `maybePut` drops an
entry that one of the shadow buckets holds, moving a cursor per shadow forward as the entries
come; and the `BucketOutputIterator` that receives the rest drops dead entries unless told to
keep them and, buffering the last entry, keeps only the last of a run of entries with one key.
`Bucket::fresh` sorts the live and the dead entries with `std::sort`, writes each through an
output iterator, and merges the dead bucket over the live one.

The proofs read the loop of `merge` as the union `unionRight` of its two inputs offered in
order (`mergeLoop_eq_offerAll`), `maybePut` as a filter on the shadows (`offerAll_eq_putAll`),
and the output iterator as `lastOfKeys` (`putAll_spec`). A merge of increasing buckets is then
the union, shadows and dead entries filtered out (`merge_eq_some`). `std::sort` is not
stable: it is taken here only with what the standard asks of it (`IsStdSort`), so a key
repeated among the live entries of `fresh` keeps the occurrence that the sort leaves last.
-/

namespace Dexfin.Stellar

open KeyedList

/-- `BucketEntry`: a live ledger entry, or the key of a dead one. -/
inductive BucketEntry (K E : Type) where
  /-- `LIVEENTRY`. -/
  | liveEntry (entry : E)
  /-- `DEADENTRY`. -/
  | deadEntry (key : K)
  deriving DecidableEq, Repr

variable {K E : Type} [LinearOrder K] (keyOf : E → K)

/-- The key of a bucket entry: that of a live entry's data (`LedgerEntryKey`), or the dead key. -/
def BucketEntry.key : BucketEntry K E → K
  | .liveEntry entry => keyOf entry
  | .deadEntry key => key

/-- `e.type() == DEADENTRY`. -/
def BucketEntry.isDead : BucketEntry K E → Bool
  | .liveEntry _ => false
  | .deadEntry _ => true

/-- `BucketEntryIdCmp`: each of its four cases, by the types of the two entries, compares their
keys with `LedgerEntryIdCmp`, the order of `K`. -/
def bucketEntryIdCmp (a b : BucketEntry K E) : Bool :=
  decide (a.key keyOf < b.key keyOf)

/-- `BucketOutputIterator`: what `mOut` has written, `mBuf` and `mKeepDeadEntries`. The file,
its hash and the counts of objects and bytes are not modelled. -/
structure BucketOutputIterator (K E : Type) where
  /-- The entries written to `mOut`, in order. -/
  written : List (BucketEntry K E)
  /-- `mBuf`. -/
  buf : Option (BucketEntry K E)
  /-- `mKeepDeadEntries`. -/
  keepDeadEntries : Bool

/-- A new `BucketOutputIterator`. -/
def BucketOutputIterator.init (keepDeadEntries : Bool) : BucketOutputIterator K E :=
  ⟨[], none, keepDeadEntries⟩

/-- `BucketOutputIterator::put`; `none` is the failed `assert` of an entry out of order. -/
def BucketOutputIterator.put (it : BucketOutputIterator K E) (e : BucketEntry K E) :
    Option (BucketOutputIterator K E) :=
  if !it.keepDeadEntries && e.isDead then some it
  else
    match it.buf with
    | some buf =>
      if bucketEntryIdCmp keyOf e buf then none
      -- a greater key flushes the buffered entry; the same key replaces it
      else if bucketEntryIdCmp keyOf buf e then
        some { it with written := it.written ++ [buf], buf := some e }
      else some { it with buf := some e }
    | none => some { it with buf := some e }

/-- `getBucket`: the written entries and the buffered one. -/
def BucketOutputIterator.getBucket (it : BucketOutputIterator K E) : List (BucketEntry K E) :=
  it.written ++ it.buf.toList

/-- A loop of `put`s. -/
def BucketOutputIterator.putAll (it : BucketOutputIterator K E) :
    List (BucketEntry K E) → Option (BucketOutputIterator K E)
  | [] => some it
  | e :: es => (it.put keyOf e).bind fun it => it.putAll es

/-- `maybePut`: each shadow cursor is moved past the entries below `entry`; when one then stands
at `entry`'s key the entry is shadowed and not put, and the cursors after it stay where they
are. -/
def maybePut (out : BucketOutputIterator K E) (entry : BucketEntry K E) :
    List (List (BucketEntry K E)) →
      Option (BucketOutputIterator K E × List (List (BucketEntry K E)))
  | [] => (out.put keyOf entry).map fun out => (out, [])
  | si :: shadowIterators =>
    let si := si.dropWhile fun s => bucketEntryIdCmp keyOf s entry
    if si.head?.any fun s => !bucketEntryIdCmp keyOf entry s then some (out, si :: shadowIterators)
    else (maybePut out entry shadowIterators).map fun r => (r.1, si :: r.2)

/-- The loop of `Bucket::merge` over the cursors `oi` and `ni` of the old and the new bucket. -/
def mergeLoop (out : BucketOutputIterator K E) (shadowIterators : List (List (BucketEntry K E))) :
    List (BucketEntry K E) → List (BucketEntry K E) → Option (BucketOutputIterator K E)
  | [], [] => some out
  | o :: oi, [] =>
    (maybePut keyOf out o shadowIterators).bind fun r => mergeLoop r.1 r.2 oi []
  | [], n :: ni =>
    (maybePut keyOf out n shadowIterators).bind fun r => mergeLoop r.1 r.2 [] ni
  | o :: oi, n :: ni =>
    if bucketEntryIdCmp keyOf o n then
      (maybePut keyOf out o shadowIterators).bind fun r => mergeLoop r.1 r.2 oi (n :: ni)
    else if bucketEntryIdCmp keyOf n o then
      (maybePut keyOf out n shadowIterators).bind fun r => mergeLoop r.1 r.2 (o :: oi) ni
    else
      -- the same key in both: the new entry is taken and both cursors move
      (maybePut keyOf out n shadowIterators).bind fun r => mergeLoop r.1 r.2 oi ni
termination_by oi ni => oi.length + ni.length

/-- `Bucket::merge`, `none` being a failed `assert`. -/
def merge (oldBucket newBucket : List (BucketEntry K E))
    (shadows : List (List (BucketEntry K E))) (keepDeadEntries : Bool) :
    Option (List (BucketEntry K E)) :=
  (mergeLoop keyOf (BucketOutputIterator.init keepDeadEntries) shadows oldBucket newBucket).map
    BucketOutputIterator.getBucket

/-- `Bucket::fresh`, with `std::sort` by `BucketEntryIdCmp` given as `sort`. -/
def fresh (sort : List (BucketEntry K E) → List (BucketEntry K E)) (liveEntries : List E)
    (deadEntries : List K) : Option (List (BucketEntry K E)) := do
  let live := sort (liveEntries.map .liveEntry)
  let dead := sort (deadEntries.map .deadEntry)
  let liveOut ← (BucketOutputIterator.init true).putAll keyOf live
  let deadOut ← (BucketOutputIterator.init true).putAll keyOf dead
  merge keyOf liveOut.getBucket deadOut.getBucket [] true

/-! ### What the pieces compute -/

/-- What an output iterator keeps: live entries, and dead ones when it keeps them. -/
def keepEntry (keepDeadEntries : Bool) (e : BucketEntry K E) : Bool :=
  keepDeadEntries || !e.isDead

/-- Some shadow bucket holds key `k`. -/
def shadowed (shadows : List (List (BucketEntry K E))) (k : K) : Bool :=
  shadows.any fun s => s.any fun x => decide (x.key keyOf = k)

/-- Each shadow cursor has passed only entries with keys below `v`. -/
def CursorsBelow (shadows shadowIterators : List (List (BucketEntry K E))) (v : K) : Prop :=
  List.Forall₂ (fun s si => ∃ pre, s = pre ++ si ∧ ∀ x ∈ pre, x.key keyOf < v)
    shadows shadowIterators

/-- The loop of `merge` as the entries it offers to `maybePut`, in order. -/
def offerAll (out : BucketOutputIterator K E) (shadowIterators : List (List (BucketEntry K E))) :
    List (BucketEntry K E) → Option (BucketOutputIterator K E)
  | [] => some out
  | e :: es => (maybePut keyOf out e shadowIterators).bind fun r => offerAll r.1 r.2 es

/-- What the standard asks of `std::sort` with `BucketEntryIdCmp`: a permutation of its input in
which no entry compares below an earlier one. The order it leaves entries of one key in is
not specified. -/
structure IsStdSort (sort : List (BucketEntry K E) → List (BucketEntry K E)) : Prop where
  /-- The entries are permuted. -/
  perm : ∀ l, (sort l).Perm l
  /-- `comp(*(i + n), *i)` is false. -/
  sorted : ∀ l, (sort l).Pairwise fun a b => bucketEntryIdCmp keyOf b a = false

variable {keyOf}

/-! ### The output iterator -/

namespace BucketOutputIterator

variable {it : BucketOutputIterator K E} {e buf : BucketEntry K E}

theorem put_of_not_keepEntry (h : keepEntry it.keepDeadEntries e = false) :
    it.put keyOf e = some it := by
  have hdrop : (!it.keepDeadEntries && e.isDead) = true := by
    revert h
    unfold keepEntry
    cases it.keepDeadEntries <;> cases e.isDead <;> decide
  simp [put, hdrop]

theorem put_of_keepEntry (h : keepEntry it.keepDeadEntries e = true) :
    it.put keyOf e =
      match it.buf with
      | some buf =>
        if bucketEntryIdCmp keyOf e buf then none
        else if bucketEntryIdCmp keyOf buf e then
          some { it with written := it.written ++ [buf], buf := some e }
        else some { it with buf := some e }
      | none => some { it with buf := some e } := by
  have hkept : (!it.keepDeadEntries && e.isDead) = false := by
    revert h
    unfold keepEntry
    cases it.keepDeadEntries <;> cases e.isDead <;> decide
  simp only [put, hkept, Bool.false_eq_true, if_false]

theorem put_of_none (h : keepEntry it.keepDeadEntries e = true) (hbuf : it.buf = none) :
    it.put keyOf e = some { it with buf := some e } := by
  rw [put_of_keepEntry h, hbuf]

/-- A greater key flushes the buffered entry. -/
theorem put_of_lt (h : keepEntry it.keepDeadEntries e = true) (hbuf : it.buf = some buf)
    (hlt : buf.key keyOf < e.key keyOf) :
    it.put keyOf e = some { it with written := it.written ++ [buf], buf := some e } := by
  rw [put_of_keepEntry h, hbuf]
  simp [bucketEntryIdCmp, hlt, not_lt.2 hlt.le]

/-- The same key replaces the buffered entry. -/
theorem put_of_eq (h : keepEntry it.keepDeadEntries e = true) (hbuf : it.buf = some buf)
    (heq : buf.key keyOf = e.key keyOf) :
    it.put keyOf e = some { it with buf := some e } := by
  rw [put_of_keepEntry h, hbuf]
  simp [bucketEntryIdCmp, heq]

end BucketOutputIterator

/-- A loop of `put`s over entries whose kept keys ascend after the buffered one never fails its
`assert`, and keeps the last entry of each key. -/
theorem putAll_spec (it : BucketOutputIterator K E) (es : List (BucketEntry K E))
    (h : Ascending (BucketEntry.key keyOf) (it.buf.toList ++ es.filter (keepEntry it.keepDeadEntries))) :
    ∃ it', it.putAll keyOf es = some it' ∧ it'.keepDeadEntries = it.keepDeadEntries ∧
      it'.getBucket = it.written ++
        lastOfKeys (BucketEntry.key keyOf) (it.buf.toList ++ es.filter (keepEntry it.keepDeadEntries)) := by
  induction es generalizing it with
  | nil =>
    refine ⟨it, rfl, rfl, ?_⟩
    rcases it with ⟨written, _ | buf, keepDeadEntries⟩ <;> rfl
  | cons e es ih =>
    by_cases hkeep : keepEntry it.keepDeadEntries e = true
    · rw [List.filter_cons_of_pos hkeep] at h ⊢
      rcases hbuf : it.buf with _ | buf
      · -- the first entry is buffered
        rw [hbuf] at h
        obtain ⟨it', hit', hkeep', hget⟩ := ih { it with buf := some e } h
        refine ⟨it', ?_, hkeep', hget⟩
        rw [BucketOutputIterator.putAll, BucketOutputIterator.put_of_none hkeep hbuf]
        exact hit'
      · rw [hbuf] at h
        have hle : buf.key keyOf ≤ e.key keyOf := List.rel_of_pairwise_cons h List.mem_cons_self
        by_cases hlt : buf.key keyOf < e.key keyOf
        · obtain ⟨it', hit', hkeep', hget⟩ :=
            ih { it with written := it.written ++ [buf], buf := some e } (List.Pairwise.of_cons h)
          refine ⟨it', ?_, hkeep', ?_⟩
          · rw [BucketOutputIterator.putAll, BucketOutputIterator.put_of_lt hkeep hbuf hlt]
            exact hit'
          · rw [hget]
            simp [lastOfKeys_cons_cons_of_ne hlt.ne]
        · have heq : buf.key keyOf = e.key keyOf := le_antisymm hle (not_lt.1 hlt)
          obtain ⟨it', hit', hkeep', hget⟩ :=
            ih { it with buf := some e } (List.Pairwise.of_cons h)
          refine ⟨it', ?_, hkeep', ?_⟩
          · rw [BucketOutputIterator.putAll, BucketOutputIterator.put_of_eq hkeep hbuf heq]
            exact hit'
          · rw [hget]
            simp [lastOfKeys_cons_cons_of_eq heq]
    · -- a dropped dead entry leaves the iterator as it was
      rw [Bool.not_eq_true] at hkeep
      rw [List.filter_cons_of_neg (by simp [hkeep])] at h ⊢
      obtain ⟨it', hit', hkeep', hget⟩ := ih it h
      refine ⟨it', ?_, hkeep', hget⟩
      rw [BucketOutputIterator.putAll, BucketOutputIterator.put_of_not_keepEntry hkeep]
      exact hit'

/-! ### The shadows -/

theorem CursorsBelow.mono {shadows sis : List (List (BucketEntry K E))} {v w : K}
    (h : CursorsBelow keyOf shadows sis v) (hvw : v ≤ w) : CursorsBelow keyOf shadows sis w :=
  List.Forall₂.imp (fun _ _ ⟨pre, hs, hpre⟩ => ⟨pre, hs, fun x hx => lt_of_lt_of_le (hpre x hx) hvw⟩) h

theorem cursorsBelow_self (shadows : List (List (BucketEntry K E))) (v : K) :
    CursorsBelow keyOf shadows shadows v := by
  induction shadows with
  | nil => exact List.Forall₂.nil
  | cons s shadows ih => exact List.Forall₂.cons ⟨[], rfl, by simp⟩ ih

/-- `maybePut` puts exactly the entries no shadow holds. Each cursor stands past the shadow's
entries below the entry, so the one it stands at after moving on is the shadow's only
candidate for the entry's key. -/
theorem maybePut_spec {shadows sis : List (List (BucketEntry K E))}
    (hinc : ∀ s ∈ shadows, Increasing (BucketEntry.key keyOf) s) (entry : BucketEntry K E)
    (h : CursorsBelow keyOf shadows sis (entry.key keyOf)) (out : BucketOutputIterator K E) :
    ∃ sis', CursorsBelow keyOf shadows sis' (entry.key keyOf) ∧
      maybePut keyOf out entry sis =
        if shadowed keyOf shadows (entry.key keyOf) then some (out, sis')
        else (out.put keyOf entry).map fun out => (out, sis') := by
  induction h with
  | nil => exact ⟨[], List.Forall₂.nil, by simp [maybePut, shadowed]⟩
  | @cons s si shadows sis hcur hrest ih =>
    obtain ⟨pre, rfl, hpre⟩ := hcur
    have hsi : Increasing (BucketEntry.key keyOf) si :=
      (hinc _ List.mem_cons_self).sublist (List.sublist_append_right pre si)
    -- the check after the cursor moves: the shadow holds the entry's key
    have hcheck := hsi.any_head?_dropWhile (entry.key keyOf)
    have hheld : (∃ x ∈ si, x.key keyOf = entry.key keyOf) ↔
        (∃ x ∈ pre ++ si, x.key keyOf = entry.key keyOf) := by
      constructor
      · rintro ⟨x, hx, hxk⟩
        exact ⟨x, List.mem_append_right pre hx, hxk⟩
      · rintro ⟨x, hx, hxk⟩
        rcases List.mem_append.1 hx with hx | hx
        · exact absurd hxk (hpre x hx).ne
        · exact ⟨x, hx, hxk⟩
    have hmoved : CursorsBelow keyOf [pre ++ si]
        [si.dropWhile fun x => decide (x.key keyOf < entry.key keyOf)] (entry.key keyOf) := by
      refine List.Forall₂.cons ⟨pre ++ si.takeWhile fun x => decide (x.key keyOf < entry.key keyOf),
        by rw [List.append_assoc, List.takeWhile_append_dropWhile], fun x hx => ?_⟩ List.Forall₂.nil
      rcases List.mem_append.1 hx with hx | hx
      · exact hpre x hx
      · simpa using List.mem_takeWhile_imp hx
    by_cases hsh : ∃ x ∈ pre ++ si, x.key keyOf = entry.key keyOf
    · -- shadowed here: the entry is dropped and the later cursors stay
      refine ⟨_ :: sis, List.Forall₂.cons (List.forall₂_cons.1 hmoved).1 hrest, ?_⟩
      have hany : shadowed keyOf ((pre ++ si) :: shadows) (entry.key keyOf) = true := by
        simp only [shadowed, List.any_cons, Bool.or_eq_true, List.any_eq_true, decide_eq_true_eq]
        exact Or.inl hsh
      simp only [maybePut, bucketEntryIdCmp, hany, hcheck.2 (hheld.2 hsh), if_true]
    · obtain ⟨sis', hsis', heq⟩ := ih (fun s hs => hinc s (List.mem_cons_of_mem _ hs))
      refine ⟨_ :: sis', List.Forall₂.cons (List.forall₂_cons.1 hmoved).1 hsis', ?_⟩
      have hfalse : ((si.dropWhile fun x => decide (x.key keyOf < entry.key keyOf)).head?.any
          fun x => !decide (entry.key keyOf < x.key keyOf)) = false :=
        Bool.eq_false_iff.2 fun hany => hsh (hheld.1 (hcheck.1 hany))
      have hsame : shadowed keyOf ((pre ++ si) :: shadows) (entry.key keyOf) =
          shadowed keyOf shadows (entry.key keyOf) := by
        simp only [shadowed, List.any_cons, Bool.or_eq_right_iff_imp, List.any_eq_true,
          decide_eq_true_eq]
        exact fun hs => absurd hs hsh
      simp only [maybePut, bucketEntryIdCmp, hfalse, Bool.false_eq_true, if_false, heq, hsame]
      split
      · rfl
      · cases out.put keyOf entry <;> rfl

/-! ### The loop of `merge` -/

/-- The loop offers the union of its two cursors, in order, the new entry on a tie. -/
theorem mergeLoop_eq_offerAll (out : BucketOutputIterator K E)
    (sis : List (List (BucketEntry K E))) (oi ni : List (BucketEntry K E)) :
    mergeLoop keyOf out sis oi ni = offerAll keyOf out sis (unionRight (BucketEntry.key keyOf) oi ni) := by
  fun_induction mergeLoop keyOf out sis oi ni with
  | case1 out sis => rw [unionRight_nil_right]; rfl
  | case2 out sis o oi ih =>
    simp only [ih, unionRight_nil_right, offerAll]
  | case3 out sis n ni ih =>
    simp only [ih, unionRight, offerAll]
  | case4 out sis o oi n ni hon ih =>
    have hlt : o.key keyOf < n.key keyOf := by simpa [bucketEntryIdCmp] using hon
    rw [unionRight_cons_cons, if_pos hlt]
    simp only [ih, offerAll]
  | case5 out sis o oi n ni hon hno ih =>
    have hlt : ¬ o.key keyOf < n.key keyOf := by simpa [bucketEntryIdCmp] using hon
    have hgt : n.key keyOf < o.key keyOf := by simpa [bucketEntryIdCmp] using hno
    rw [unionRight_cons_cons, if_neg hlt, if_pos hgt]
    simp only [ih, offerAll]
  | case6 out sis o oi n ni hon hno ih =>
    have hlt : ¬ o.key keyOf < n.key keyOf := by simpa [bucketEntryIdCmp] using hon
    have hgt : ¬ n.key keyOf < o.key keyOf := by simpa [bucketEntryIdCmp] using hno
    rw [unionRight_cons_cons, if_neg hlt, if_neg hgt]
    simp only [ih, offerAll]

/-- Offering increasing entries, with every cursor below them, puts those no shadow holds. -/
theorem offerAll_eq_putAll {shadows : List (List (BucketEntry K E))}
    (hinc : ∀ s ∈ shadows, Increasing (BucketEntry.key keyOf) s) {es : List (BucketEntry K E)}
    (hes : Increasing (BucketEntry.key keyOf) es) {sis : List (List (BucketEntry K E))}
    (h : ∀ e ∈ es, CursorsBelow keyOf shadows sis (e.key keyOf)) (out : BucketOutputIterator K E) :
    offerAll keyOf out sis es =
      out.putAll keyOf (es.filter fun e => !shadowed keyOf shadows (e.key keyOf)) := by
  induction es generalizing out sis with
  | nil => rfl
  | cons e es ih =>
    obtain ⟨sis', hsis', heq⟩ := maybePut_spec hinc e (h e List.mem_cons_self) out
    -- the cursors stand below every entry still to come
    have hnext : ∀ e' ∈ es, CursorsBelow keyOf shadows sis' (e'.key keyOf) :=
      fun e' he' => hsis'.mono (hes.lt_of_mem he').le
    rw [offerAll, heq]
    by_cases hsh : shadowed keyOf shadows (e.key keyOf) = true
    · rw [if_pos hsh, List.filter_cons_of_neg (by simp [hsh])]
      exact ih hes.tail hnext out
    · rw [if_neg hsh, List.filter_cons_of_pos (by simpa using hsh), BucketOutputIterator.putAll]
      cases out.put keyOf e with
      | none => rfl
      | some out' => exact ih hes.tail hnext out'

/-- A merge of increasing buckets is their union, less the entries a shadow holds and, unless
kept, the dead ones. -/
theorem merge_eq_some {oldBucket newBucket : List (BucketEntry K E)}
    {shadows : List (List (BucketEntry K E))} (hold : Increasing (BucketEntry.key keyOf) oldBucket)
    (hnew : Increasing (BucketEntry.key keyOf) newBucket)
    (hinc : ∀ s ∈ shadows, Increasing (BucketEntry.key keyOf) s) (keepDeadEntries : Bool) :
    merge keyOf oldBucket newBucket shadows keepDeadEntries =
      some (((unionRight (BucketEntry.key keyOf) oldBucket newBucket).filter
        fun e => !shadowed keyOf shadows (e.key keyOf)).filter (keepEntry keepDeadEntries)) := by
  have hU := increasing_unionRight hold hnew
  have hout : Increasing (BucketEntry.key keyOf) (((unionRight (BucketEntry.key keyOf) oldBucket
      newBucket).filter fun e => !shadowed keyOf shadows (e.key keyOf)).filter
        (keepEntry keepDeadEntries)) := (hU.filter _).filter _
  obtain ⟨it, hit, -, hget⟩ := putAll_spec (BucketOutputIterator.init keepDeadEntries)
    ((unionRight (BucketEntry.key keyOf) oldBucket newBucket).filter
      fun e => !shadowed keyOf shadows (e.key keyOf))
    (List.Pairwise.imp le_of_lt hout)
  rw [merge, mergeLoop_eq_offerAll,
    offerAll_eq_putAll hinc hU (fun e _ => cursorsBelow_self shadows (e.key keyOf)), hit,
    Option.map_some, hget]
  exact congrArg some hout.lastOfKeys_eq

/-- What a merged bucket holds for a key: nothing if a shadow holds it, else the new bucket's
entry, or else the old one's, unless it is dead and dead entries are dropped. -/
theorem lookup_merged {oldBucket newBucket : List (BucketEntry K E)}
    {shadows : List (List (BucketEntry K E))} (hold : Increasing (BucketEntry.key keyOf) oldBucket)
    (hnew : Increasing (BucketEntry.key keyOf) newBucket) (keepDeadEntries : Bool) (k : K) :
    lookup (BucketEntry.key keyOf) (((unionRight (BucketEntry.key keyOf) oldBucket newBucket).filter
        fun e => !shadowed keyOf shadows (e.key keyOf)).filter (keepEntry keepDeadEntries)) k =
      if shadowed keyOf shadows k then none
      else ((lookup (BucketEntry.key keyOf) newBucket k).or
        (lookup (BucketEntry.key keyOf) oldBucket k)).filter (keepEntry keepDeadEntries) := by
  have hU := increasing_unionRight hold hnew
  rw [(hU.filter _).lookup_filter, hU.lookup_filter, ← lookup_unionRight hnew]
  rcases hx : lookup (BucketEntry.key keyOf) (unionRight (BucketEntry.key keyOf) oldBucket newBucket) k
    with _ | e
  · simp [Option.filter]
  · -- the entry found has the key looked for, so the shadow test is on `k`
    have hk := (lookup_eq_some hx).2
    by_cases hsh : shadowed keyOf shadows k = true <;> simp [Option.filter, hk, hsh]

/-! ### `fresh` -/

/-- The dead entries, in any order, hold exactly the dead keys. -/
theorem lookup_of_perm_deadEntries {l : List (BucketEntry K E)} {deadEntries : List K}
    (hp : l.Perm (deadEntries.map .deadEntry)) (k : K) :
    lookup (BucketEntry.key keyOf) l k = if k ∈ deadEntries then some (.deadEntry k) else none := by
  split_ifs with hk
  · have hmem : (BucketEntry.deadEntry k : BucketEntry K E) ∈ l :=
      hp.mem_iff.2 (List.mem_map_of_mem hk)
    have hsome : (lookup (BucketEntry.key keyOf) l k).isSome := by
      rw [Option.isSome_iff_ne_none, Ne, lookup_eq_none]
      exact fun hall => hall _ hmem rfl
    obtain ⟨x, hx⟩ := Option.isSome_iff_exists.1 hsome
    obtain ⟨hxl, hxk⟩ := lookup_eq_some hx
    obtain ⟨k', -, rfl⟩ := List.mem_map.1 (hp.mem_iff.1 hxl)
    rw [hx, show k' = k from hxk]
  · rw [lookup_eq_none]
    intro x hx hxk
    obtain ⟨k', hk', rfl⟩ := List.mem_map.1 (hp.mem_iff.1 hx)
    have hkk : k' = k := hxk
    exact hk (hkk ▸ hk')

/-- `fresh` gives an increasing bucket in which a dead key is dead, and a live key holds the
live entry that the sort leaves last among those of that key. -/
theorem fresh_spec {sort : List (BucketEntry K E) → List (BucketEntry K E)}
    (hsort : IsStdSort keyOf sort) (liveEntries : List E) (deadEntries : List K) :
    ∃ bucket, fresh keyOf sort liveEntries deadEntries = some bucket ∧
      Increasing (BucketEntry.key keyOf) bucket ∧
      ∀ k, lookup (BucketEntry.key keyOf) bucket k =
        if k ∈ deadEntries then some (.deadEntry k)
        else lookup (BucketEntry.key keyOf) (sort (liveEntries.map .liveEntry)).reverse k := by
  -- `std::sort` leaves the keys ascending, and the iterators keep every entry
  have hasc : ∀ l, Ascending (BucketEntry.key keyOf) (sort l) := fun l =>
    (hsort.sorted l).imp fun hba => by simpa [bucketEntryIdCmp] using hba
  have hall : ∀ l : List (BucketEntry K E), l.filter (keepEntry true) = l := fun l =>
    List.filter_eq_self.2 fun e _ => by simp [keepEntry]
  obtain ⟨liveOut, hlive, -, hliveB⟩ := putAll_spec (BucketOutputIterator.init true)
    (sort (liveEntries.map .liveEntry)) (by simpa [BucketOutputIterator.init, hall] using hasc _)
  obtain ⟨deadOut, hdead, -, hdeadB⟩ := putAll_spec (BucketOutputIterator.init true)
    (sort (deadEntries.map .deadEntry)) (by simpa [BucketOutputIterator.init, hall] using hasc _)
  simp only [BucketOutputIterator.init, hall, Option.toList_none, List.nil_append] at hliveB hdeadB
  have hL : Increasing (BucketEntry.key keyOf) liveOut.getBucket :=
    hliveB ▸ (hasc _).increasing_lastOfKeys
  have hD : Increasing (BucketEntry.key keyOf) deadOut.getBucket :=
    hdeadB ▸ (hasc _).increasing_lastOfKeys
  refine ⟨unionRight (BucketEntry.key keyOf) liveOut.getBucket deadOut.getBucket, ?_,
    increasing_unionRight hL hD, fun k => ?_⟩
  · have hnone : ∀ l : List (BucketEntry K E),
        (l.filter fun e => !shadowed keyOf [] (e.key keyOf)) = l := fun l =>
      List.filter_eq_self.2 fun e _ => by simp [shadowed]
    simp only [fresh, hlive, hdead, Option.bind_eq_bind, Option.bind_some,
      merge_eq_some hL hD (fun s hs => absurd hs List.not_mem_nil) true, hnone, hall]
  · rw [lookup_unionRight hD, hdeadB, hliveB, (hasc _).lookup_lastOfKeys,
      (hasc _).lookup_lastOfKeys,
      lookup_of_perm_deadEntries ((List.reverse_perm _).trans (hsort.perm _))]
    split_ifs <;> rfl

/-- A stable sort by key meets what the standard asks of `std::sort`. -/
theorem isStdSort_insertionSort :
    IsStdSort keyOf fun l => l.insertionSort fun a b => a.key keyOf ≤ b.key keyOf := by
  have htotal : Std.Total fun a b : BucketEntry K E => a.key keyOf ≤ b.key keyOf :=
    ⟨fun a b => le_total _ _⟩
  have htrans : IsTrans (BucketEntry K E) fun a b => a.key keyOf ≤ b.key keyOf :=
    ⟨fun _ _ _ => le_trans⟩
  refine ⟨fun l => List.perm_insertionSort _ l, fun l => ?_⟩
  exact (List.pairwise_insertionSort _ _).imp fun hab => by simpa [bucketEntryIdCmp] using hab

/-- So does any such sort run on the reversed input: the standard fixes no order for
entries of one key. -/
theorem IsStdSort.reverse_input {sort : List (BucketEntry K E) → List (BucketEntry K E)}
    (h : IsStdSort keyOf sort) : IsStdSort keyOf fun l => sort l.reverse :=
  ⟨fun l => (h.perm l.reverse).trans (List.reverse_perm l), fun l => h.sorted l.reverse⟩

/-- `std::sort` may leave two live entries of one key in either order. A sort that reverses its
input before a stable sort is a legal `std::sort` (`IsStdSort`: a permutation that leaves no
entry below an earlier one), and with it `fresh` keeps the first occurrence of the key, not the
last. -/
theorem fresh_keeps_first_occurrence :
    IsStdSort (Prod.fst : ℕ × ℕ → ℕ)
        (fun l => l.reverse.insertionSort fun a b => a.key Prod.fst ≤ b.key Prod.fst) ∧
      (fresh Prod.fst (fun l => l.reverse.insertionSort fun a b => a.key Prod.fst ≤ b.key Prod.fst)
        [(0, 1), (0, 2)] []).map (fun bucket => lookup (BucketEntry.key Prod.fst) bucket 0) =
        some (some (.liveEntry (0, 1))) := by
  have hsort := (isStdSort_insertionSort : IsStdSort (Prod.fst : ℕ × ℕ → ℕ) _).reverse_input
  obtain ⟨bucket, hbucket, -, hlookup⟩ := fresh_spec hsort [(0, 1), (0, 2)] []
  refine ⟨hsort, ?_⟩
  rw [hbucket, Option.map_some, hlookup]
  decide

/-- `Bucket::merge` is a keyed union with newer-wins and shadowing, and `Bucket::fresh` a sorted
bucket in which dead keys win and a repeated live key keeps one of its occurrences, the last in
the order the sort leaves. -/
theorem merge_fresh_increasing {sort : List (BucketEntry K E) → List (BucketEntry K E)}
    (hsort : IsStdSort keyOf sort) :
    (∀ (oldBucket newBucket : List (BucketEntry K E)) (shadows : List (List (BucketEntry K E)))
        (keepDeadEntries : Bool),
      Increasing (BucketEntry.key keyOf) oldBucket → Increasing (BucketEntry.key keyOf) newBucket →
      (∀ s ∈ shadows, Increasing (BucketEntry.key keyOf) s) →
      ∃ bucket, merge keyOf oldBucket newBucket shadows keepDeadEntries = some bucket ∧
        Increasing (BucketEntry.key keyOf) bucket ∧
        ∀ k, lookup (BucketEntry.key keyOf) bucket k =
          if shadowed keyOf shadows k then none
          else ((lookup (BucketEntry.key keyOf) newBucket k).or
            (lookup (BucketEntry.key keyOf) oldBucket k)).filter (keepEntry keepDeadEntries)) ∧
    ∀ (liveEntries : List E) (deadEntries : List K),
      ∃ bucket, fresh keyOf sort liveEntries deadEntries = some bucket ∧
        Increasing (BucketEntry.key keyOf) bucket ∧
        ∀ k, lookup (BucketEntry.key keyOf) bucket k =
          if k ∈ deadEntries then some (.deadEntry k)
          else lookup (BucketEntry.key keyOf) (sort (liveEntries.map .liveEntry)).reverse k := by
  refine ⟨fun oldBucket newBucket shadows keepDeadEntries hold hnew hinc => ?_,
    fresh_spec hsort⟩
  exact ⟨_, merge_eq_some hold hnew hinc keepDeadEntries,
    ((increasing_unionRight hold hnew).filter _).filter _,
    lookup_merged hold hnew keepDeadEntries⟩

theorem merge_fresh_increasing_insertionSort :
    IsStdSort (Prod.fst : ℕ × ℕ → ℕ)
        (fun l => l.insertionSort fun a b => a.key Prod.fst ≤ b.key Prod.fst) ∧
      ∃ bucket, fresh Prod.fst (fun l => l.insertionSort fun a b => a.key Prod.fst ≤ b.key Prod.fst)
        [(1, 5), (0, 3)] [1] = some bucket ∧ Increasing (BucketEntry.key Prod.fst) bucket := by
  have hsort : IsStdSort (Prod.fst : ℕ × ℕ → ℕ) _ := isStdSort_insertionSort
  obtain ⟨bucket, hbucket, hinc, -⟩ := (merge_fresh_increasing hsort).2 [(1, 5), (0, 3)] [1]
  exact ⟨hsort, bucket, hbucket, hinc⟩

end Dexfin.Stellar
