import Mathlib

/-!
# Counting down to a threshold

A loop is given a threshold and looks at members one after the other. It takes one off the
threshold for each member that counts, and stops as soon as nothing is left. `countDown` is
that loop over the members' answers. Its counter may be of any type with a subtraction and an
order, such as a machine word, signed or not. Read through a value map that subtracts
correctly while the counter is positive (`Counts`), the loop stops exactly when at least
`threshold` members count (`countDown_eq_none_iff`). Otherwise it leaves the threshold less
their number (`countDown_eq_some`).

When each member has a price, such a loop picks the cheapest first. The first `k` elements of
a list sorted in increasing order sum to no more than any `k` or more of its elements
(`sum_take_le_of_subperm`).
-/

namespace Threshold

section CountDown

variable {C : Type*} [Sub C] [One C] [Zero C] [LE C] [DecidableLE C]

/-- Take one off `left` for each `true`, and stop with `none` as soon as what is left is at
most zero; otherwise what is left after the last answer. -/
def countDown : C → List Bool → Option C
  | left, [] => some left
  | left, b :: bs =>
    if b then (if left - 1 ≤ 0 then none else countDown (left - 1) bs) else countDown left bs

/-- Counting down over two lists is counting down over the first, then over the second from
what is left. -/
theorem countDown_append (left : C) (bs cs : List Bool) :
    countDown left (bs ++ cs) = (countDown left bs).bind fun l => countDown l cs := by
  induction bs generalizing left with
  | nil => rfl
  | cons b bs ih =>
    cases b with
    | false => exact ih left
    | true =>
      by_cases h : left - 1 ≤ 0
      · simp [countDown, h]
      · simp [countDown, h, ih]

/-- What the loop needs of its counter, read through `val`: taking one off a positive counter
takes one off its value, and a counter is at most zero exactly when its value is. -/
structure Counts (val : C → ℤ) : Prop where
  sub_one : ∀ x, 0 < val x → val (x - 1) = val x - 1
  le_zero : ∀ x, x ≤ 0 ↔ val x ≤ 0

variable {val : C → ℤ}

/-- From a positive counter the loop stops early exactly when at least that many answers
are `true`. -/
theorem countDown_eq_none_iff (hv : Counts val) {left : C} (hpos : 0 < val left)
    (bs : List Bool) : countDown left bs = none ↔ val left ≤ bs.count true := by
  induction bs generalizing left with
  | nil => simp [countDown]; omega
  | cons b bs ih =>
    have hsub := hv.sub_one left hpos
    cases b with
    | false => simpa [countDown] using ih hpos
    | true =>
      by_cases h : left - 1 ≤ 0
      · have hle := (hv.le_zero _).mp h
        simp only [countDown, if_true, h, List.count_cons_self, true_iff]
        omega
      · have hlt : 0 < val (left - 1) := by
          have := (hv.le_zero (left - 1)).not.mp h
          omega
        simp only [countDown, if_true, h, if_false, List.count_cons_self]
        rw [ih hlt]
        omega

/-- Otherwise what is left is the counter less the number of `true` answers. -/
theorem countDown_eq_some (hv : Counts val) {left r : C} (hpos : 0 < val left)
    {bs : List Bool} (h : countDown left bs = some r) : val r = val left - bs.count true := by
  induction bs generalizing left with
  | nil =>
    simp only [countDown, Option.some.injEq] at h
    simp [h]
  | cons b bs ih =>
    have hsub := hv.sub_one left hpos
    cases b with
    | false => simpa [countDown] using ih hpos h
    | true =>
      by_cases hl : left - 1 ≤ 0
      · simp [countDown, hl] at h
      · have hlt : 0 < val (left - 1) := by
          have := (hv.le_zero (left - 1)).not.mp hl
          omega
        simp only [countDown, if_true, hl, if_false] at h
        rw [ih hlt h, List.count_cons_self]
        omega

end CountDown

/-- The number of `true` answers of `p` over a list. -/
theorem count_true_map {α : Type*} (p : α → Bool) (l : List α) :
    (l.map p).count true = l.countP p := by
  induction l with
  | nil => rfl
  | cons a l ih => cases h : p a <;> simp [h, ih]

/-- Every element is counted either by `p` or by its negation. -/
theorem countP_add_countP_not {α : Type*} (p : α → Bool) (l : List α) :
    l.countP p + l.countP (fun x => !p x) = l.length := by
  induction l with
  | nil => rfl
  | cons a l ih => cases h : p a <;> simp [h] <;> omega

/-- A `uint32_t` counter counts: it is positive only below its wrap. -/
theorem counts_uint32 : Counts fun x : UInt32 => (x.toNat : ℤ) where
  sub_one x hx := by
    have h1 : (1 : UInt32) ≤ x := by
      rw [UInt32.le_iff_toNat_le]
      simp only [UInt32.toNat_one]
      omega
    rw [UInt32.toNat_sub_of_le x 1 h1, UInt32.toNat_one]
    omega
  le_zero x := by
    rw [UInt32.le_iff_toNat_le, UInt32.toNat_zero]
    omega

/-- So does a `uint64_t` counter. -/
theorem counts_uint64 : Counts fun x : UInt64 => (x.toNat : ℤ) where
  sub_one x hx := by
    have h1 : (1 : UInt64) ≤ x := by
      rw [UInt64.le_iff_toNat_le]
      simp only [UInt64.toNat_one]
      omega
    rw [UInt64.toNat_sub_of_le x 1 h1, UInt64.toNat_one]
    omega
  le_zero x := by
    rw [UInt64.le_iff_toNat_le, UInt64.toNat_zero]
    omega

/-- And so does an `int` counter: taking one off a positive value never wraps. -/
theorem counts_int32 : Counts fun x : Int32 => x.toInt where
  sub_one x hx := by
    have hlt := Int32.toInt_lt x
    rw [Int32.toInt_sub, Int32.toInt_one, Int.bmod_eq_of_le] <;> omega
  le_zero x := by
    rw [Int32.le_iff_toInt_le, Int32.toInt_zero]

/-! ## Counting members -/

section Counting

variable {α : Type*} {l : List α} {p q r : α → Bool}

/-- Two disjoint properties that each give a third count no more than it. -/
theorem countP_add_le_of_disjoint (hpq : ∀ x ∈ l, p x = true → q x = false)
    (hr : ∀ x ∈ l, p x = true ∨ q x = true → r x = true) :
    l.countP p + l.countP q ≤ l.countP r := by
  induction l with
  | nil => simp
  | cons a l ih =>
    have hpq' := hpq a List.mem_cons_self
    have hr' := hr a List.mem_cons_self
    have h := ih (fun x hx => hpq x (List.mem_cons_of_mem a hx))
      (fun x hx => hr x (List.mem_cons_of_mem a hx))
    simp only [List.countP_cons]
    cases hp : p a <;> cases hq : q a <;> simp_all <;> omega

/-- A property that implies one of two counts no more than both together. -/
theorem countP_le_add (hr : ∀ x ∈ l, r x = true → p x = true ∨ q x = true) :
    l.countP r ≤ l.countP p + l.countP q := by
  induction l with
  | nil => simp
  | cons a l ih =>
    have hr' := hr a List.mem_cons_self
    have h := ih fun x hx => hr x (List.mem_cons_of_mem a hx)
    simp only [List.countP_cons]
    cases hp : p a <;> cases hq : q a <;> cases hra : r a <;> simp_all <;> omega

/-- Counting a list by several properties, none of which two hold of one element, counts each
element at most once. -/
theorem sum_countP_le_length {ι : Type*} (J : List ι) (P : ι → α → Bool)
    (h : ∀ x ∈ l, J.countP (fun j => P j x) ≤ 1) :
    (J.map fun j => l.countP (P j)).sum ≤ l.length := by
  induction l with
  | nil => simp
  | cons a l ih =>
    have hone : (J.map fun j => if P j a = true then 1 else 0).sum = J.countP (fun j => P j a) := by
      clear ih h
      induction J with
      | nil => rfl
      | cons j J ihJ =>
        rw [List.map_cons, List.sum_cons, ihJ, List.countP_cons]
        split_ifs <;> omega
    have hsplit : (J.map fun j => (a :: l).countP (P j)).sum =
        (J.map fun j => l.countP (P j)).sum + J.countP (fun j => P j a) := by
      simp only [List.countP_cons]
      rw [List.sum_map_add, hone]
    have hrest := ih fun x hx => h x (List.mem_cons_of_mem a hx)
    have ha := h a List.mem_cons_self
    rw [hsplit, List.length_cons]
    omega

/-- An element lies in no more of the lists than it occurs in their concatenation. -/
theorem countP_mem_le_count [DecidableEq α] (L : List (List α)) (x : α) :
    L.countP (fun m => decide (x ∈ m)) ≤ L.flatten.count x := by
  induction L with
  | nil => simp
  | cons m L ih =>
    rw [List.countP_cons, List.flatten_cons, List.count_append]
    by_cases hx : x ∈ m
    · have := List.count_pos_iff.mpr hx
      simp only [hx, decide_true, if_true]
      omega
    · simp only [hx, decide_false, Bool.false_eq_true, if_false]
      omega

/-- A sub-multiset of a list is one after any map. -/
theorem subperm_map {β : Type*} (f : α → β) {l₁ l₂ : List α} (h : l₁.Subperm l₂) :
    (l₁.map f).Subperm (l₂.map f) := by
  obtain ⟨l, hperm, hsub⟩ := h
  exact ⟨l.map f, hperm.map f, hsub.map f⟩

/-- A sub-multiset of a list of lists flattens to a sub-multiset of its flattening. -/
theorem subperm_flatten {L₁ L₂ : List (List α)} (h : L₁.Subperm L₂) :
    L₁.flatten.Subperm L₂.flatten := by
  obtain ⟨L, hperm, hsub⟩ := h
  exact ⟨L.flatten, hperm.flatten, hsub.flatten⟩

/-- Lists that are each sub-multisets of others concatenate to a sub-multiset. -/
theorem subperm_flatten_map {β : Type*} {f g : β → List α} (xs : List β)
    (h : ∀ x ∈ xs, (f x).Subperm (g x)) : (xs.map f).flatten.Subperm (xs.map g).flatten := by
  induction xs with
  | nil => exact List.Subperm.refl _
  | cons x xs ih =>
    simp only [List.map_cons, List.flatten_cons]
    exact (h x List.mem_cons_self).append (ih fun y hy => h y (List.mem_cons_of_mem x hy))

end Counting

/-! ## The cheapest first -/

section Cheapest

variable {β : Type*} (key : β → ℕ)

/-- Inserting before the first element of a larger key keeps a list sorted by key, with equal
keys in the order they were inserted. -/
theorem pairwise_orderedInsert_lt (a : β) {l : List β}
    (hl : l.Pairwise fun x y => key x ≤ key y) :
    (l.orderedInsert (fun x y => key x < key y) a).Pairwise fun x y => key x ≤ key y := by
  induction l with
  | nil => simp
  | cons b l ih =>
    rw [List.pairwise_cons] at hl
    by_cases hab : key a < key b
    · rw [List.orderedInsert_cons, if_pos hab, List.pairwise_cons]
      refine ⟨fun c hc => ?_, List.pairwise_cons.mpr hl⟩
      rcases List.mem_cons.mp hc with rfl | hc
      · omega
      · have := hl.1 c hc
        omega
    · rw [List.orderedInsert_cons, if_neg hab, List.pairwise_cons]
      refine ⟨fun c hc => ?_, ih hl.2⟩
      rcases List.mem_cons.mp ((List.perm_orderedInsert _ a l).mem_iff.mp hc) with rfl | hc
      · omega
      · exact hl.1 c hc

/-- Inserting by key commutes with mapping to values of the same key. -/
theorem map_orderedInsert_lt {γ : Type*} (f : β → γ) (key' : γ → ℕ) (hkey : ∀ x, key' (f x) = key x)
    (a : β) (l : List β) :
    (l.orderedInsert (fun x y => key x < key y) a).map f =
      (l.map f).orderedInsert (fun x y => key' x < key' y) (f a) := by
  induction l with
  | nil => rfl
  | cons b l ih =>
    rw [List.orderedInsert_cons, List.map_cons, List.orderedInsert_cons, hkey, hkey]
    split_ifs
    · rfl
    · rw [List.map_cons, ih]

/-- Inserting elements one after another by key sorts them. -/
theorem foldl_orderedInsert_lt (xs acc : List β) (hacc : acc.Pairwise fun x y => key x ≤ key y) :
    (xs.foldl (fun js x => js.orderedInsert (fun x y => key x < key y) x) acc).Perm (acc ++ xs) ∧
    (xs.foldl (fun js x => js.orderedInsert (fun x y => key x < key y) x) acc).Pairwise
      fun x y => key x ≤ key y := by
  induction xs generalizing acc with
  | nil => simpa using hacc
  | cons x xs ih =>
    obtain ⟨hperm, hsorted⟩ := ih _ (pairwise_orderedInsert_lt key x hacc)
    refine ⟨hperm.trans ?_, hsorted⟩
    have hins := List.perm_orderedInsert (fun x y => key x < key y) x acc
    exact (hins.append_right xs).trans List.perm_middle.symm

end Cheapest

/-- The first `k` elements of a list sorted in increasing order sum to no more than any `k` or
more of its elements. -/
theorem sum_take_le_of_subperm {l s : List ℕ} (hl : l.Pairwise (· ≤ ·)) (hs : s.Subperm l)
    {k : ℕ} (hk : k ≤ s.length) : (l.take k).sum ≤ s.sum := by
  induction l generalizing s k with
  | nil =>
    simp
  | cons a l ih =>
    rw [List.pairwise_cons] at hl
    cases k with
    | zero => simp
    | succ k =>
      rw [List.take_succ_cons, List.sum_cons]
      by_cases ha : a ∈ s
      · -- `a` itself is among the chosen elements: compare the rest
        have hrest : (s.erase a).Subperm l := by
          simpa using hs.erase a
        have hlen := List.length_erase_of_mem ha
        have hle : (l.take k).sum ≤ (s.erase a).sum := ih hl.2 hrest (by omega)
        rw [(List.perm_cons_erase ha).sum_eq, List.sum_cons]
        omega
      · -- otherwise any chosen element `b` costs at least `a`
        have hsl : s.Subperm l := by
          simpa [List.erase_of_not_mem ha] using hs.erase a
        obtain ⟨b, hb⟩ := List.exists_mem_of_length_pos (by omega : 0 < s.length)
        have hab : a ≤ b := hl.1 b (hsl.subset hb)
        have hrest : (s.erase b).Subperm l := (List.erase_subperm b s).trans hsl
        have hlen := List.length_erase_of_mem hb
        have hle : (l.take k).sum ≤ (s.erase b).sum := ih hl.2 hrest (by omega)
        rw [(List.perm_cons_erase hb).sum_eq, List.sum_cons]
        omega

end Threshold
