import Mathlib

/-!
# Lists kept in increasing order of a key

Sorted files of keyed records: each record has a key in a linear order, and a list is
`Increasing` when the keys strictly increase along it, so that each key occurs once and
`lookup` finds the record of a key. `unionRight` merges two such lists, the second winning a
tie; `lastOfKeys` keeps the last record of each run of one key in a list whose keys only
ascend. The lemmas say what each does to the lookups and that the results increase.
-/

namespace KeyedList

variable {α κ : Type*} [LinearOrder κ] (key : α → κ)

/-- The keys strictly increase along the list. -/
def Increasing (l : List α) : Prop :=
  l.Pairwise fun a b => key a < key b

/-- The keys never decrease along the list. -/
def Ascending (l : List α) : Prop :=
  l.Pairwise fun a b => key a ≤ key b

/-- The first record with key `k`. -/
def lookup (l : List α) (k : κ) : Option α :=
  l.find? fun a => key a = k

/-- The union of two lists in increasing key order, the second's record winning a tie. -/
def unionRight : List α → List α → List α
  | [], l₂ => l₂
  | a :: l₁, [] => a :: l₁
  | a :: l₁, b :: l₂ =>
    if key a < key b then a :: unionRight l₁ (b :: l₂)
    else if key b < key a then b :: unionRight (a :: l₁) l₂
    else b :: unionRight l₁ l₂
termination_by l₁ l₂ => l₁.length + l₂.length

/-- Of each run of records with one key, the last. -/
def lastOfKeys : List α → List α
  | [] => []
  | [a] => [a]
  | a :: b :: l => if key a = key b then lastOfKeys (b :: l) else a :: lastOfKeys (b :: l)

variable {key} {a b : α} {l l₁ l₂ : List α} {k : κ}

/-! ### Lookups -/

@[simp] theorem lookup_nil (k : κ) : lookup key [] k = none := rfl

theorem lookup_cons (a : α) (l : List α) (k : κ) :
    lookup key (a :: l) k = if key a = k then some a else lookup key l k := by
  by_cases h : key a = k <;> simp [lookup, h]

theorem lookup_append (l₁ l₂ : List α) (k : κ) :
    lookup key (l₁ ++ l₂) k = (lookup key l₁ k).or (lookup key l₂ k) :=
  List.find?_append

theorem lookup_eq_none : lookup key l k = none ↔ ∀ a ∈ l, key a ≠ k := by
  simp [lookup, List.find?_eq_none]

theorem lookup_eq_some (h : lookup key l k = some a) : a ∈ l ∧ key a = k :=
  ⟨List.mem_of_find?_eq_some h, by simpa using List.find?_some h⟩

theorem lookup_eq_none_of_lt (h : ∀ b ∈ l, k < key b) : lookup key l k = none :=
  lookup_eq_none.2 fun b hb => (h b hb).ne'

theorem Increasing.tail (h : Increasing key (a :: l)) : Increasing key l :=
  List.Pairwise.of_cons h

theorem Increasing.lt_of_mem (h : Increasing key (a :: l)) (hb : b ∈ l) : key a < key b :=
  List.rel_of_pairwise_cons h hb

theorem Increasing.filter (h : Increasing key l) (p : α → Bool) :
    Increasing key (l.filter p) :=
  List.Pairwise.filter p h

/-- Filtering a list whose keys occur once filters its lookups. -/
theorem Increasing.lookup_filter (h : Increasing key l) (p : α → Bool) (k : κ) :
    lookup key (l.filter p) k = (lookup key l k).filter p := by
  induction l with
  | nil => rfl
  | cons a l ih =>
    have hrest : lookup key l (key a) = none := lookup_eq_none_of_lt fun b hb => h.lt_of_mem hb
    by_cases hp : p a = true
    · rw [List.filter_cons_of_pos hp, lookup_cons, lookup_cons]
      by_cases hk : key a = k
      · simp [hk, hp, Option.filter]
      · simp [hk, ih h.tail]
    · rw [List.filter_cons_of_neg hp, ih h.tail, lookup_cons]
      by_cases hk : key a = k
      · subst hk
        simp [hp, hrest, Option.filter]
      · simp [hk]

/-! ### `unionRight` -/

@[simp] theorem unionRight_nil_right (l : List α) : unionRight key l [] = l := by
  cases l <;> simp [unionRight]

theorem unionRight_cons_cons (a : α) (l₁ : List α) (b : α) (l₂ : List α) :
    unionRight key (a :: l₁) (b :: l₂) =
      if key a < key b then a :: unionRight key l₁ (b :: l₂)
      else if key b < key a then b :: unionRight key (a :: l₁) l₂
      else b :: unionRight key l₁ l₂ := by
  rw [unionRight]

theorem mem_unionRight {x : α} (hx : x ∈ unionRight key l₁ l₂) : x ∈ l₁ ∨ x ∈ l₂ := by
  fun_induction unionRight key l₁ l₂ with
  | case1 l₂ => exact Or.inr hx
  | case2 a l₁ => exact Or.inl hx
  | case3 a l₁ b l₂ _ ih =>
    rcases List.mem_cons.1 hx with rfl | hx
    · exact Or.inl List.mem_cons_self
    · exact (ih hx).imp (List.mem_cons_of_mem _) id
  | case4 a l₁ b l₂ _ _ ih =>
    rcases List.mem_cons.1 hx with rfl | hx
    · exact Or.inr List.mem_cons_self
    · exact (ih hx).imp id (List.mem_cons_of_mem _)
  | case5 a l₁ b l₂ _ _ ih =>
    rcases List.mem_cons.1 hx with rfl | hx
    · exact Or.inr List.mem_cons_self
    · exact (ih hx).imp (List.mem_cons_of_mem _) (List.mem_cons_of_mem _)

/-- The union of increasing lists increases: the head taken is below both remaining lists. -/
theorem increasing_unionRight (h₁ : Increasing key l₁) (h₂ : Increasing key l₂) :
    Increasing key (unionRight key l₁ l₂) := by
  fun_induction unionRight key l₁ l₂ with
  | case1 l₂ => exact h₂
  | case2 a l₁ => exact h₁
  | case3 a l₁ b l₂ hab ih =>
    refine List.Pairwise.cons (fun x hx => ?_) (ih h₁.tail h₂)
    rcases mem_unionRight hx with hx | hx
    · exact h₁.lt_of_mem hx
    · rcases List.mem_cons.1 hx with rfl | hx
      · exact hab
      · exact hab.trans (h₂.lt_of_mem hx)
  | case4 a l₁ b l₂ _ hba ih =>
    refine List.Pairwise.cons (fun x hx => ?_) (ih h₁ h₂.tail)
    rcases mem_unionRight hx with hx | hx
    · rcases List.mem_cons.1 hx with rfl | hx
      · exact hba
      · exact hba.trans (h₁.lt_of_mem hx)
    · exact h₂.lt_of_mem hx
  | case5 a l₁ b l₂ hab hba ih =>
    have heq : key a = key b := le_antisymm (not_lt.1 hba) (not_lt.1 hab)
    refine List.Pairwise.cons (fun x hx => ?_) (ih h₁.tail h₂.tail)
    rcases mem_unionRight hx with hx | hx
    · exact heq ▸ h₁.lt_of_mem hx
    · exact h₂.lt_of_mem hx

/-- A lookup in the union finds the second list's record, else the first's. -/
theorem lookup_unionRight (h₂ : Increasing key l₂) (k : κ) :
    lookup key (unionRight key l₁ l₂) k = (lookup key l₂ k).or (lookup key l₁ k) := by
  fun_induction unionRight key l₁ l₂ with
  | case1 l₂ => simp
  | case2 a l₁ => simp
  | case3 a l₁ b l₂ hab ih =>
    rw [lookup_cons, lookup_cons a]
    by_cases hk : key a = k
    · -- the second list holds only keys above `key a`
      have hnone : lookup key (b :: l₂) k = none := lookup_eq_none_of_lt fun x hx => by
        rcases List.mem_cons.1 hx with rfl | hx
        · exact hk ▸ hab
        · exact hk ▸ hab.trans (h₂.lt_of_mem hx)
      simp [hk, hnone]
    · simp [hk, ih h₂]
  | case4 a l₁ b l₂ _ _ ih =>
    rw [lookup_cons, lookup_cons b]
    by_cases hk : key b = k
    · simp [hk]
    · simp [hk, ih h₂.tail]
  | case5 a l₁ b l₂ hab hba ih =>
    have heq : key a = key b := le_antisymm (not_lt.1 hba) (not_lt.1 hab)
    rw [lookup_cons, lookup_cons b, lookup_cons a]
    by_cases hk : key b = k
    · simp [hk]
    · simp [hk, heq, ih h₂.tail]

/-! ### `lastOfKeys` -/

theorem lastOfKeys_cons_cons_of_eq (h : key a = key b) (l : List α) :
    lastOfKeys key (a :: b :: l) = lastOfKeys key (b :: l) := by
  simp [lastOfKeys, h]

theorem lastOfKeys_cons_cons_of_ne (h : key a ≠ key b) (l : List α) :
    lastOfKeys key (a :: b :: l) = a :: lastOfKeys key (b :: l) := by
  simp [lastOfKeys, h]

theorem mem_lastOfKeys {x : α} (hx : x ∈ lastOfKeys key l) : x ∈ l := by
  fun_induction lastOfKeys key l with
  | case1 => exact hx
  | case2 a => exact hx
  | case3 a b l _ ih => exact List.mem_cons_of_mem a (ih hx)
  | case4 a b l _ ih =>
    rcases List.mem_cons.1 hx with rfl | hx
    · exact List.mem_cons_self
    · exact List.mem_cons_of_mem _ (ih hx)

theorem Increasing.lastOfKeys_eq (h : Increasing key l) : lastOfKeys key l = l := by
  fun_induction lastOfKeys key l with
  | case1 => rfl
  | case2 a => rfl
  | case3 a b l hab _ =>
    exact absurd hab (h.lt_of_mem List.mem_cons_self).ne
  | case4 a b l _ ih => rw [ih h.tail]

/-- Keeping the last record of each key makes ascending keys strictly increase. -/
theorem Ascending.increasing_lastOfKeys (h : Ascending key l) : Increasing key (lastOfKeys key l) := by
  fun_induction lastOfKeys key l with
  | case1 => exact List.Pairwise.nil
  | case2 a => exact List.pairwise_singleton _ a
  | case3 a b l _ ih => exact ih (List.Pairwise.of_cons h)
  | case4 a b l hab ih =>
    have hlt : key a < key b := lt_of_le_of_ne (List.rel_of_pairwise_cons h List.mem_cons_self) hab
    refine List.Pairwise.cons (fun x hx => ?_) (ih (List.Pairwise.of_cons h))
    rcases List.mem_cons.1 (mem_lastOfKeys hx) with rfl | hx
    · exact hlt
    · exact lt_of_lt_of_le hlt (List.rel_of_pairwise_cons (List.Pairwise.of_cons h) hx)

/-- Keeping the last record of each key leaves, for each key, its last record. -/
theorem Ascending.lookup_lastOfKeys (h : Ascending key l) (k : κ) :
    lookup key (lastOfKeys key l) k = lookup key l.reverse k := by
  fun_induction lastOfKeys key l with
  | case1 => rfl
  | case2 a => rfl
  | case3 a b l hab ih =>
    have hrev : (a :: b :: l).reverse = (b :: l).reverse ++ [a] := List.reverse_cons
    rw [ih (List.Pairwise.of_cons h), hrev, lookup_append]
    by_cases hk : key a = k
    · -- `b`, with the key of `a`, comes after it
      have hb : (lookup key (b :: l).reverse k).isSome := by
        rw [Option.isSome_iff_ne_none, Ne, lookup_eq_none]
        exact fun hall => hall b (by simp) (hab ▸ hk)
      obtain ⟨x, hx⟩ := Option.isSome_iff_exists.1 hb
      rw [hx, Option.some_or]
    · rw [lookup_cons, if_neg hk, lookup_nil, Option.or_none]
  | case4 a b l hab ih =>
    have hlt : key a < key b := lt_of_le_of_ne (List.rel_of_pairwise_cons h List.mem_cons_self) hab
    have hrev : (a :: b :: l).reverse = (b :: l).reverse ++ [a] := List.reverse_cons
    rw [lookup_cons, ih (List.Pairwise.of_cons h), hrev, lookup_append, lookup_cons a]
    by_cases hk : key a = k
    · -- every record after `a` has a key above it
      have hnone : lookup key (b :: l).reverse k = none := lookup_eq_none_of_lt fun x hx => by
        rcases List.mem_cons.1 (List.mem_reverse.1 hx) with rfl | hx
        · exact hk ▸ hlt
        · exact hk ▸ lt_of_lt_of_le hlt (List.rel_of_pairwise_cons (List.Pairwise.of_cons h) hx)
      rw [if_pos hk, if_pos hk, hnone, Option.none_or]
    · rw [if_neg hk, if_neg hk, lookup_nil, Option.or_none]

/-! ### Cursors -/

/-- Past the records below `v`, an increasing list starts at `v` exactly when it holds `v`. -/
theorem Increasing.any_head?_dropWhile {s : List α} (h : Increasing key s) (v : κ) :
    ((s.dropWhile fun x => decide (key x < v)).head?.any fun x => !decide (v < key x)) = true ↔
      ∃ x ∈ s, key x = v := by
  induction s with
  | nil => simp
  | cons x s ih =>
    by_cases hx : key x < v
    · rw [List.dropWhile_cons_of_pos (by simpa using hx), ih h.tail]
      constructor
      · rintro ⟨y, hy, hyv⟩
        exact ⟨y, List.mem_cons_of_mem x hy, hyv⟩
      · rintro ⟨y, hy, hyv⟩
        rcases List.mem_cons.1 hy with rfl | hy
        · exact absurd hyv hx.ne
        · exact ⟨y, hy, hyv⟩
    · rw [List.dropWhile_cons_of_neg (by simpa using hx)]
      simp only [List.head?_cons, Option.any_some, Bool.not_eq_true', decide_eq_false_iff_not,
        not_lt]
      constructor
      · intro hxv
        exact ⟨x, List.mem_cons_self, le_antisymm hxv (not_lt.1 hx)⟩
      · rintro ⟨y, hy, rfl⟩
        rcases List.mem_cons.1 hy with rfl | hy
        · exact le_rfl
        · exact absurd (lt_of_le_of_lt (not_lt.1 hx) (h.lt_of_mem hy)) (lt_irrefl _)

end KeyedList
