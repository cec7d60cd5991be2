import Mathlib

/-!
# Keeping the elements of the highest key

A loop walks a list and keeps the highest key met so far together with the elements that have
it. A higher key empties the set kept, and an element whose key equals the highest one joins
the set, when that key is positive. The loop may start from a key and a set of its own.

`foldl_keepTop` says what the set holds at the end: what it held at the start, if no
higher key came, and the elements of the list whose key is the highest, when that is positive.
-/

namespace ArgMax

variable {α : Type*}

/-- The highest of `top` and the keys of `l`. -/
def topKey (key : α → ℕ) (top : ℕ) (l : List α) : ℕ :=
  l.foldl (fun m x => max m (key x)) top

variable {key : α → ℕ}

@[simp] theorem topKey_nil (top : ℕ) : topKey key top [] = top := rfl

theorem topKey_cons (top : ℕ) (x : α) (l : List α) :
    topKey key top (x :: l) = topKey key (max top (key x)) l := rfl

theorem le_topKey (top : ℕ) (l : List α) : top ≤ topKey key top l := by
  induction l generalizing top with
  | nil => exact le_rfl
  | cons x l ih => exact (le_max_left _ _).trans (ih _)

theorem key_le_topKey (top : ℕ) {l : List α} {x : α} (hx : x ∈ l) : key x ≤ topKey key top l := by
  induction l generalizing top with
  | nil => exact absurd hx List.not_mem_nil
  | cons y l ih =>
    rw [topKey_cons]
    rcases List.mem_cons.mp hx with rfl | hx
    · exact (le_max_right _ _).trans (le_topKey _ l)
    · exact ih _ hx

theorem topKey_le_iff {top m : ℕ} {l : List α} :
    topKey key top l ≤ m ↔ top ≤ m ∧ ∀ y ∈ l, key y ≤ m := by
  induction l generalizing top with
  | nil => simp
  | cons x l ih =>
    rw [topKey_cons, ih, max_le_iff, List.forall_mem_cons, and_assoc]

/-- `x` is among the top of `l` from `start`: `start` itself when nothing in `l` has a higher
key, or an element of `l` of the highest key, when that key is positive and at least the key
of `start`. -/
def IsTop (key : α → ℕ) (start : α) (l : List α) (x : α) : Prop :=
  (x = start ∧ ∀ y ∈ l, key y ≤ key start) ∨
    (x ∈ l ∧ 0 < key x ∧ key start ≤ key x ∧ ∀ y ∈ l, key y ≤ key x)

section Keep

variable [DecidableEq α]

variable (key) in
/-- One step of the loop: a higher key clears the set kept, and an element of the highest key
joins the set when its key is positive. -/
def keepTop (s : ℕ × List α) (x : α) : ℕ × List α :=
  let s := if key x > s.1 then (key x, []) else s
  if key x = s.1 ∧ 0 < key x then (s.1, s.2.insert x) else s

theorem keepTop_fst (s : ℕ × List α) (x : α) : (keepTop key s x).1 = max s.1 (key x) := by
  unfold keepTop
  by_cases h : key x > s.1
  · rw [if_pos h]
    dsimp only
    split_ifs <;> omega
  · rw [if_neg h]
    dsimp only
    split_ifs <;> omega

theorem mem_keepTop (s : ℕ × List α) (x y : α) :
    y ∈ (keepTop key s x).2 ↔
      (y ∈ s.2 ∧ key x ≤ s.1) ∨ (y = x ∧ max s.1 (key x) = key x ∧ 0 < key x) := by
  unfold keepTop
  by_cases h : key x > s.1
  · simp only [if_pos h, true_and]
    split_ifs with hpos
    · simp only [List.mem_insert_iff, List.not_mem_nil, or_false]
      constructor
      · intro hy
        exact Or.inr ⟨hy, by omega, hpos⟩
      · rintro (⟨-, h'⟩ | ⟨hy, -⟩)
        · omega
        · exact hy
    · simp only [List.not_mem_nil, false_iff, not_or, not_and]
      exact ⟨fun _ h' => by omega, fun _ _ h' => hpos h'⟩
  · simp only [if_neg h]
    have hle : key x ≤ s.1 := by omega
    split_ifs with heq
    · simp only [List.mem_insert_iff]
      constructor
      · rintro (rfl | hy)
        · exact Or.inr ⟨rfl, by omega, heq.2⟩
        · exact Or.inl ⟨hy, hle⟩
      · rintro (⟨hy, -⟩ | ⟨rfl, -⟩)
        · exact Or.inr hy
        · exact Or.inl rfl
    · constructor
      · intro hy
        exact Or.inl ⟨hy, hle⟩
      · rintro (⟨hy, -⟩ | ⟨rfl, hmax, hpos⟩)
        · exact hy
        · exact absurd ⟨by omega, hpos⟩ heq

/-- The run lemma: the loop ends with the highest key, and keeps the elements of the start set
when no higher key came, and the elements of the list of the highest key when it is
positive. -/
theorem foldl_keepTop (l : List α) (s : ℕ × List α) :
    (l.foldl (keepTop key) s).1 = topKey key s.1 l ∧
      ∀ y, y ∈ (l.foldl (keepTop key) s).2 ↔
        (y ∈ s.2 ∧ topKey key s.1 l = s.1) ∨
          (y ∈ l ∧ key y = topKey key s.1 l ∧ 0 < key y) := by
  induction l generalizing s with
  | nil => simp
  | cons x l ih =>
    obtain ⟨ih1, ih2⟩ := ih (keepTop key s x)
    rw [keepTop_fst] at ih1 ih2
    refine ⟨by rw [List.foldl_cons, ih1, topKey_cons], fun y => ?_⟩
    rw [List.foldl_cons, ih2, mem_keepTop, topKey_cons]
    have hle : max s.1 (key x) ≤ topKey key (max s.1 (key x)) l := le_topKey _ l
    constructor
    · rintro (⟨⟨hy, hxs⟩ | ⟨rfl, hmax, hpos⟩, htop⟩ | ⟨hy, hk, hpos⟩)
      · exact Or.inl ⟨hy, by omega⟩
      · exact Or.inr ⟨List.mem_cons_self, by omega, hpos⟩
      · exact Or.inr ⟨List.mem_cons_of_mem x hy, hk, hpos⟩
    · rintro (⟨hy, htop⟩ | ⟨hy, hk, hpos⟩)
      · exact Or.inl ⟨Or.inl ⟨hy, by omega⟩, by omega⟩
      · rcases List.mem_cons.mp hy with rfl | hy
        · exact Or.inl ⟨Or.inr ⟨rfl, by omega, hpos⟩, by omega⟩
        · exact Or.inr ⟨hy, hk, hpos⟩

/-- The loop started from one element and its key keeps exactly the top elements. -/
theorem mem_foldl_keepTop_start (l : List α) (start x : α) :
    x ∈ (l.foldl (keepTop key) (key start, [start])).2 ↔ IsTop key start l x := by
  rw [(foldl_keepTop l _).2, List.mem_singleton]
  dsimp only
  constructor
  · rintro (⟨rfl, htop⟩ | ⟨hx, hk, hpos⟩)
    · exact Or.inl ⟨rfl, (topKey_le_iff.mp htop.le).2⟩
    · have hle := topKey_le_iff.mp hk.symm.le
      exact Or.inr ⟨hx, hpos, hle.1, hle.2⟩
  · rintro (⟨rfl, hall⟩ | ⟨hx, hpos, hstart, hall⟩)
    · exact Or.inl ⟨rfl, le_antisymm (topKey_le_iff.mpr ⟨le_rfl, hall⟩) (le_topKey _ l)⟩
    · exact Or.inr ⟨hx, le_antisymm (key_le_topKey _ hx) (topKey_le_iff.mpr ⟨hstart, hall⟩), hpos⟩

end Keep

end ArgMax
