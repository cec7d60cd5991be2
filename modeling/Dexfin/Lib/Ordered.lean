import Mathlib

/-!
# Comparisons and ordered sets

A three-way comparison answers a negative number, zero or a positive number as its first
argument ranks below, alike or above its second. `ThreeWay c rank` says that `c` answers so
for the ranks `rank` gives in a linear order. A chain of such comparisons, each consulted only
when the ones before it answered zero, decides a lexicographic order (`ThreeWay.lexStep`).

An ordered set of a linear order (a `std::set`) is the list of its elements in increasing
order; `SortedSet` carries that order as a field, so that a list out of order cannot stand for
a set. `emplace` puts an element where it belongs unless it is there already.

`includes` is the scan of `std::includes` over two sorted ranges: it walks the first range and
moves on in the second each time it meets the second's next element. On strictly increasing
lists it answers whether every element of the second is in the first (`includes_iff_subset`).
-/

/-- `c a b` is negative, zero or positive as `rank a` is below, equal to or above `rank b`. -/
structure ThreeWay {α β : Type*} [LinearOrder β] (c : α → α → ℤ) (rank : α → β) : Prop where
  neg_iff : ∀ a b, c a b < 0 ↔ rank a < rank b
  zero_iff : ∀ a b, c a b = 0 ↔ rank a = rank b

namespace ThreeWay

variable {α β : Type*} [LinearOrder β] {c : α → α → ℤ} {rank : α → β}

theorem nonpos_iff (h : ThreeWay c rank) (a b : α) : c a b ≤ 0 ↔ rank a ≤ rank b := by
  rw [le_iff_lt_or_eq, le_iff_lt_or_eq, h.neg_iff, h.zero_iff]

/-- One link of a chain of comparisons: below answers `true`, above `false`, and on a tie the
rest of the chain `r` decides. -/
theorem lexStep (h : ThreeWay c rank) (a b : α) (r : Bool) :
    (if c a b < 0 then true else if c a b = 0 then r else false) = true ↔
      rank a < rank b ∨ rank a = rank b ∧ r = true := by
  rw [← h.neg_iff, ← h.zero_iff]
  split_ifs with hneg hzero
  · simp [hneg]
  · simp [hzero]
  · simp [hneg, hzero]

end ThreeWay

variable {α : Type*} [LinearOrder α]

namespace SortedList

/-- Insert `a` into an increasing list at its place, unless it is there. -/
def insertSorted (a : α) : List α → List α
  | [] => [a]
  | b :: l => if a < b then a :: b :: l else if a = b then b :: l else b :: insertSorted a l

@[simp] theorem mem_insertSorted {a x : α} {l : List α} : x ∈ insertSorted a l ↔ x = a ∨ x ∈ l := by
  induction l with
  | nil => simp [insertSorted]
  | cons b l ih =>
    unfold insertSorted
    split_ifs with hlt heq
    · simp
    · subst heq
      simp
    · simp only [List.mem_cons, ih]
      tauto

theorem pairwise_insertSorted {a : α} {l : List α} (h : l.Pairwise (· < ·)) :
    (insertSorted a l).Pairwise (· < ·) := by
  induction l with
  | nil => simp [insertSorted]
  | cons b l ih =>
    have hb := List.pairwise_cons.mp h
    unfold insertSorted
    split_ifs with hlt heq
    · refine List.pairwise_cons.mpr ⟨?_, h⟩
      intro x hx
      rcases List.mem_cons.mp hx with rfl | hx
      · exact hlt
      · exact hlt.trans (hb.1 x hx)
    · exact h
    · refine List.pairwise_cons.mpr ⟨?_, ih hb.2⟩
      intro x hx
      rcases mem_insertSorted.mp hx with rfl | hx
      · exact lt_of_le_of_ne (not_lt.mp hlt) (Ne.symm heq)
      · exact hb.1 x hx

/-- `std::includes(first1, last1, first2, last2)` over sorted ranges: whether every element
of the second range is in the first. -/
def includes : List α → List α → Bool
  | _, [] => true
  | [], _ :: _ => false
  | a :: l₁, b :: l₂ =>
    if b < a then false
    -- the code moves on in the second range when `¬(a < b)`, that is when `a = b`
    else if a < b then includes l₁ (b :: l₂)
    else includes l₁ l₂

/-- Below every element of `l₂`, an element of the head of `a :: l₁` is no help for `l₂`. -/
theorem subset_cons_iff_of_lt {a : α} {l₁ l₂ : List α} (h : ∀ x ∈ l₂, a < x) :
    l₂ ⊆ a :: l₁ ↔ l₂ ⊆ l₁ := by
  constructor
  · intro hsub x hx
    rcases List.mem_cons.mp (hsub hx) with rfl | hx'
    · exact absurd (h x hx) (lt_irrefl x)
    · exact hx'
  · exact List.subset_cons_of_subset a

/-- On strictly increasing lists `includes` decides inclusion. The induction is on the first
list, the one the scan walks; the three cases are those of the comparison of the heads. -/
theorem includes_iff_subset {l₁ l₂ : List α} (h₁ : l₁.Pairwise (· < ·))
    (h₂ : l₂.Pairwise (· < ·)) : includes l₁ l₂ = true ↔ l₂ ⊆ l₁ := by
  induction l₁ generalizing l₂ with
  | nil =>
    cases l₂ with
    | nil => simp [includes]
    | cons b l₂ => simp [includes]
  | cons a l₁ ih =>
    cases l₂ with
    | nil => simp [includes]
    | cons b l₂ =>
      have ha := List.pairwise_cons.mp h₁
      have hb := List.pairwise_cons.mp h₂
      unfold includes
      split_ifs with hba hab
      · -- `b` is below everything in `a :: l₁`, so it is not there
        simp only [false_iff, List.cons_subset, List.mem_cons, not_and]
        rintro (rfl | hb')
        · exact absurd hba (lt_irrefl b)
        · exact absurd ((ha.1 b hb').trans hba) (lt_irrefl a)
      · -- `a` is below all of `b :: l₂`
        rw [ih ha.2 h₂, ← subset_cons_iff_of_lt (a := a)]
        intro x hx
        rcases List.mem_cons.mp hx with rfl | hx
        · exact hab
        · exact hab.trans (hb.1 x hx)
      · -- equal heads: `a` covers `b` and nothing of `l₂`
        have hab' : a = b := le_antisymm (not_lt.mp hba) (not_lt.mp hab)
        subst hab'
        rw [ih ha.2 hb.2, List.cons_subset, ← subset_cons_iff_of_lt hb.1]
        simp

/-- Whether `std::adjacent_find(first, last, pred)` returns `last`: no two neighbours satisfy
`pred`. -/
def adjacentFindEnd (pred : α → α → Bool) : List α → Bool
  | a :: b :: l => !pred a b && adjacentFindEnd pred (b :: l)
  | _ => true

/-- No two neighbours out of strict order: the list strictly increases. -/
theorem adjacentFindEnd_iff_pairwise (l : List α) :
    adjacentFindEnd (fun a b => !decide (a < b)) l = true ↔ l.Pairwise (· < ·) := by
  rw [← List.isChain_iff_pairwise]
  induction l with
  | nil => simp [adjacentFindEnd]
  | cons a l ih =>
    cases l with
    | nil => simp [adjacentFindEnd]
    | cons b l =>
      rw [adjacentFindEnd, Bool.and_eq_true, ih, List.isChain_cons_cons]
      simp

/-- Between duplicate-free lists one inside the other, the inclusion is strict exactly when the
lengths differ. -/
theorem toFinset_ssubset_iff {l₁ l₂ : List α} (h₁ : l₁.Nodup) (h₂ : l₂.Nodup) (hsub : l₂ ⊆ l₁) :
    l₂.toFinset ⊂ l₁.toFinset ↔ l₂.length ≠ l₁.length := by
  have hs : l₂.toFinset ⊆ l₁.toFinset := fun x hx => List.mem_toFinset.mpr (hsub (List.mem_toFinset.mp hx))
  rw [← List.toFinset_card_of_nodup h₁, ← List.toFinset_card_of_nodup h₂]
  constructor
  · intro hlt
    exact (Finset.card_lt_card hlt).ne
  · intro hne
    refine Finset.ssubset_iff_subset_ne.mpr ⟨hs, ?_⟩
    rintro heq
    exact hne (congrArg Finset.card heq)

/-- In a strictly decreasing list, an element and what follows it are exactly the elements that
are no greater than it. -/
theorem mem_cons_iff_of_append {pre rest : List α} {x y : α}
    (h : (pre ++ x :: rest).Pairwise (· > ·)) : y ∈ x :: rest ↔ y ∈ pre ++ x :: rest ∧ y ≤ x := by
  rw [List.pairwise_append] at h
  obtain ⟨-, hrest, hpre⟩ := h
  constructor
  · intro hy
    refine ⟨List.mem_append_right pre hy, ?_⟩
    rcases List.mem_cons.mp hy with rfl | hy
    · exact le_rfl
    · exact ((List.pairwise_cons.mp hrest).1 y hy).le
  · rintro ⟨hy, hle⟩
    rcases List.mem_append.mp hy with hy | hy
    · exact absurd hle (not_le.mpr (hpre y hy x List.mem_cons_self))
    · exact hy

end SortedList

/-- A `std::set`: its elements in strictly increasing order. -/
structure SortedSet (α : Type*) [LinearOrder α] where
  toList : List α
  sorted : toList.Pairwise (· < ·)

namespace SortedSet

/-- The empty set. -/
def empty : SortedSet α := ⟨[], List.Pairwise.nil⟩

/-- `std::set::emplace`. -/
def emplace (s : SortedSet α) (a : α) : SortedSet α :=
  ⟨SortedList.insertSorted a s.toList, SortedList.pairwise_insertSorted s.sorted⟩

@[simp] theorem toList_empty : (empty : SortedSet α).toList = [] := rfl

@[simp] theorem mem_emplace {s : SortedSet α} {a x : α} :
    x ∈ (s.emplace a).toList ↔ x = a ∨ x ∈ s.toList :=
  SortedList.mem_insertSorted

/-- Walked from its greatest element down (`rbegin` to `rend`), a set strictly decreases. -/
theorem pairwise_reverse (s : SortedSet α) : s.toList.reverse.Pairwise (· > ·) :=
  List.pairwise_reverse.mpr s.sorted

end SortedSet

/-! ## Maps as association lists -/

namespace AssocList

variable {κ β : Type*} [DecidableEq κ]

/-- `find`, then `insert` or assignment, on a `std::map`: the value of `k` replaced where `k` is
there, and the pair added where it is not. -/
def assign (m : List (κ × β)) (k : κ) (v : β) : List (κ × β) :=
  match List.lookup k m with
  | none => m ++ [(k, v)]
  | some _ => m.map fun p => if p.1 = k then (k, v) else p

theorem lookup_cons (x k : κ) (b : β) (m : List (κ × β)) :
    List.lookup x ((k, b) :: m) = if x = k then some b else List.lookup x m := by
  by_cases h : x = k
  · simp [List.lookup, h]
  · simp [List.lookup, beq_false_of_ne h, h]

theorem lookup_map_replace (x k : κ) (v : β) (m : List (κ × β)) :
    List.lookup x (m.map fun p => if p.1 = k then (k, v) else p) =
      if x = k then (List.lookup x m).map fun _ => v else List.lookup x m := by
  induction m with
  | nil => simp
  | cons e m ih =>
    obtain ⟨k', b⟩ := e
    by_cases hk : k' = k
    · subst hk
      by_cases hx : x = k' <;> simp [lookup_cons, hx, ih]
    · by_cases hx : x = k'
      · subst hx
        simp [hk]
      · simp only [List.map_cons, if_neg hk, lookup_cons, if_neg hx, ih]

/-- What `assign` does to the lookups: `k` now finds `v`, every other key what it found. -/
@[simp] theorem lookup_assign (m : List (κ × β)) (k x : κ) (v : β) :
    List.lookup x (assign m k v) = if x = k then some v else List.lookup x m := by
  unfold assign
  cases hk : List.lookup k m with
  | none =>
    rw [List.lookup_append]
    by_cases hx : x = k
    · subst hx
      simp [hk]
    · simp [lookup_cons, hx]
  | some b =>
    rw [lookup_map_replace]
    by_cases hx : x = k
    · subst hx
      simp [hk]
    · simp [hx]

/-- A change of a map that gives a key a new value only when `newer` holds between its old
value, if any, and the new one. -/
def NewerStep (newer : β → β → Prop) (m m' : List (κ × β)) : Prop :=
  ∃ k v, (∀ old, List.lookup k m = some old → newer old v) ∧ m' = assign m k v

/-- The run lemma: along changes that only ever give a key a newer value, under a transitive
`newer`, the value of a key stays, or is replaced by one newer than it. -/
theorem NewerStep.run {newer : β → β → Prop} [IsTrans β newer] {m m' : List (κ × β)}
    (hrun : Relation.ReflTransGen (NewerStep newer) m m') {x : κ} {a : β}
    (ha : List.lookup x m = some a) :
    ∃ b, List.lookup x m' = some b ∧ (b = a ∨ newer a b) := by
  induction hrun with
  | refl => exact ⟨a, ha, Or.inl rfl⟩
  | tail _ hstep ih =>
    obtain ⟨b, hb, hab⟩ := ih
    obtain ⟨k, v, hnewer, rfl⟩ := hstep
    rw [lookup_assign]
    by_cases hx : x = k
    · subst hx
      have hbv := hnewer b hb
      refine ⟨v, if_pos rfl, Or.inr ?_⟩
      rcases hab with rfl | hab
      · exact hbv
      · exact IsTrans.trans _ _ _ hab hbv
    · exact ⟨b, by rw [if_neg hx, hb], hab⟩

end AssocList
