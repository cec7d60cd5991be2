import Mathlib.Algebra.BigOperators.Group.List.Basic

/-!
# A keyed table as a list

A hash table whose lookups return the first entry with a given key is a list read with
`List.find?` and written with `setFirst`, which replaces that entry. Sums over the table
change by the new entry minus the old one, and a second write to the same key overwrites
the first.
-/

namespace FirstMatch

variable {α β : Type*}

/-- Replace the first element that satisfies `p` by `b`; the list is unchanged if there
is none. -/
def setFirst (p : α → Bool) (b : α) : List α → List α
  | [] => []
  | a :: l => if p a then b :: l else a :: setFirst p b l

variable {p : α → Bool} {a b c : α} {l : List α}

@[simp] theorem setFirst_nil : setFirst p b [] = [] := rfl

/-- Writing twice to the first entry of a key keeps the second write. -/
theorem setFirst_setFirst (hb : p b = true) : setFirst p c (setFirst p b l) = setFirst p c l := by
  induction l with
  | nil => rfl
  | cons x l ih =>
    by_cases hx : p x
    · simp [setFirst, hx, hb]
    · simp [setFirst, hx, ih]

/-- A lookup after a write to a key the table holds finds the new entry. -/
theorem find?_setFirst (hb : p b = true) (h : l.find? p = some a) :
    (setFirst p b l).find? p = some b := by
  induction l with
  | nil => cases h
  | cons x l ih =>
    by_cases hx : p x
    · simp [setFirst, hx, hb]
    · have hl : l.find? p = some a := by simpa [List.find?_cons, hx] using h
      simp [setFirst, hx, ih hl]

theorem mem_setFirst {x : α} (hx : x ∈ setFirst p b l) : x ∈ l ∨ x = b := by
  induction l with
  | nil => simp at hx
  | cons y l ih =>
    by_cases hy : p y
    · simp only [setFirst, hy, if_true, List.mem_cons] at hx
      rcases hx with rfl | hx
      · exact .inr rfl
      · exact .inl (List.mem_cons_of_mem y hx)
    · simp only [setFirst, hy, Bool.false_eq_true, if_false, List.mem_cons] at hx
      rcases hx with rfl | hx
      · exact .inl List.mem_cons_self
      · rcases ih hx with hx | rfl
        · exact .inl (List.mem_cons_of_mem y hx)
        · exact .inr rfl

/-- A sum over the table changes by the new entry minus the one it replaces. -/
theorem sum_map_setFirst [AddCommMonoid β] (f : α → β) (h : l.find? p = some a) :
    ((setFirst p b l).map f).sum + f a = (l.map f).sum + f b := by
  induction l with
  | nil => simp at h
  | cons x l ih =>
    by_cases hx : p x
    · have hxa : x = a := by simpa [List.find?_cons, hx] using h
      subst hxa
      simp [setFirst, hx, add_comm, add_left_comm]
    · have hl : l.find? p = some a := by simpa [List.find?_cons, hx] using h
      simp only [setFirst, hx, Bool.false_eq_true, if_false, List.map_cons, List.sum_cons]
      rw [add_assoc, ih hl, add_assoc]

/-- A relation between any two entries survives replacing an entry by one that relates to
the others as it did. -/
theorem pairwise_setFirst {R : α → α → Prop} (h : l.find? p = some a)
    (hR : ∀ x, R x b ↔ R x a) (hR' : ∀ x, R b x ↔ R a x) (hl : l.Pairwise R) :
    (setFirst p b l).Pairwise R := by
  induction l with
  | nil => simp at h
  | cons x l ih =>
    rw [List.pairwise_cons] at hl
    by_cases hx : p x
    · have hxa : x = a := by simpa [List.find?_cons, hx] using h
      subst hxa
      simp only [setFirst, hx, if_true, List.pairwise_cons]
      exact ⟨fun y hy => (hR' y).2 (hl.1 y hy), hl.2⟩
    · have hl' : l.find? p = some a := by simpa [List.find?_cons, hx] using h
      simp only [setFirst, hx, Bool.false_eq_true, if_false, List.pairwise_cons]
      refine ⟨fun y hy => ?_, ih hl' hl.2⟩
      rcases mem_setFirst hy with hy | rfl
      · exact hl.1 y hy
      · exact (hR x).2 (hl.1 a (List.mem_of_find?_eq_some hl'))

/-- Writing to a key whose first entry follows entries of other keys. -/
theorem setFirst_append_cons {pre post : List α} (hpre : ∀ x ∈ pre, p x = false)
    (ha : p a = true) : setFirst p b (pre ++ a :: post) = pre ++ b :: post := by
  induction pre with
  | nil => simp [setFirst, ha]
  | cons x pre ih =>
    have hx := hpre x List.mem_cons_self
    simp [setFirst, hx, ih fun y hy => hpre y (List.mem_cons_of_mem x hy)]

/-- Looking up a key whose first entry follows entries of other keys. -/
theorem find?_append_cons {pre post : List α} (hpre : ∀ x ∈ pre, p x = false)
    (ha : p a = true) : (pre ++ a :: post).find? p = some a := by
  induction pre with
  | nil => simp [ha]
  | cons x pre ih =>
    have hx := hpre x List.mem_cons_self
    simp [hx, ih fun y hy => hpre y (List.mem_cons_of_mem x hy)]

/-- In a table where no two entries satisfy `p`, the lookup finds the one that does. -/
theorem find?_eq_some_of_pairwise (hl : l.Pairwise fun x y => ¬(p x = true ∧ p y = true))
    (ha : a ∈ l) (hpa : p a = true) : l.find? p = some a := by
  induction l with
  | nil => simp at ha
  | cons x l ih =>
    rw [List.pairwise_cons] at hl
    rcases List.mem_cons.1 ha with rfl | ha
    · simp [hpa]
    · have hx : p x = false := by
        rcases Bool.eq_false_or_eq_true (p x) with hx | hx
        · exact absurd ⟨hx, hpa⟩ (hl.1 a ha)
        · exact hx
      simp [hx, ih hl.2 ha]

end FirstMatch
