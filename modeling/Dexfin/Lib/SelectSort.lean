import Mathlib.Data.List.Perm.Basic
import Mathlib.GroupTheory.Perm.Basic

/-!
# Sorting an array by selection

The sort that C code writes for short arrays: for each position in turn, find the first
element of the rest that no later one beats strictly, and swap it into that position. Every
round is a swap of two positions, so whatever the comparison, the sort permutes its input
(`sort_perm`), and a property of the elements, or a count of them, is the same before and
after. When the comparison is a strict order, no element of the result is beaten by one after
it (`sort_pairwise`).

The C code often sorts several arrays side by side, swapping each at the same two positions
and comparing only some of them. `roundsFrom` runs the rounds over such a state; a list read
off the state is sorted by them (`roundsFrom_view`), and every array of the state is moved by
one permutation of positions, `roundsPerm` (`roundsPerm_moves`).
-/

namespace SelectSort

variable {α : Type*} (better : α → α → Bool)

/-- The scan for the best element: `b` is the best so far, at index `best`, and the scan is
at index `i`. A later element takes over only when it is strictly better. -/
def findBestFrom : Nat → α → Nat → List α → Nat
  | best, _, _, [] => best
  | best, b, i, x :: xs =>
    if better x b then findBestFrom i x (i + 1) xs else findBestFrom best b (i + 1) xs

/-- The index of the first best element, scanning from the head. -/
def findBest : List α → Nat
  | [] => 0
  | x :: xs => findBestFrom better 0 x 1 xs

/-- The rounds at positions `i`, `i + 1`, ..., `k` of them: each swaps the best element from
position `i` on into position `i`. -/
def sortFrom : Nat → Nat → List α → List α
  | _, 0, l => l
  | i, k + 1, l => sortFrom (i + 1) k (l.swap i (i + findBest better (l.drop i)))

/-- The sort: a round at each position but the last. -/
def sort (l : List α) : List α := sortFrom better 0 (l.length - 1) l

/-- Rounds of swaps permute the list. -/
theorem sortFrom_perm (i k : Nat) (l : List α) : (sortFrom better i k l).Perm l := by
  induction k generalizing i l with
  | zero => exact List.Perm.refl l
  | succ k ih => exact (ih (i + 1) _).trans (List.swap_perm l _ _)

/-- The sort permutes the list. -/
theorem sort_perm (l : List α) : (sort better l).Perm l := sortFrom_perm better 0 _ l

/-- The scan ends inside the list: on the best so far or on a later index. -/
theorem findBestFrom_lt (best : Nat) (b : α) (i : Nat) (xs : List α) (hbest : best < i) :
    findBestFrom better best b i xs < i + xs.length := by
  induction xs generalizing best b i with
  | nil => simpa [findBestFrom] using hbest
  | cons x xs ih =>
    rw [findBestFrom]
    split
    · have := ih i x (i + 1) (Nat.lt_succ_self i)
      simp only [List.length_cons]
      omega
    · have := ih best b (i + 1) (by omega)
      simp only [List.length_cons]
      omega

/-- `findBest` of a non-empty list is one of its indices. -/
theorem findBest_lt {l : List α} (hl : l ≠ []) : findBest better l < l.length := by
  cases l with
  | nil => contradiction
  | cons x xs => simpa [findBest, Nat.add_comm] using findBestFrom_lt better 0 x 1 xs Nat.one_pos

/-- Scanning the images of a list is scanning the list by the images' comparison. -/
theorem findBest_map {β : Type*} (f : β → α) (l : List β) :
    findBest better (l.map f) = findBest (fun a b => better (f a) (f b)) l := by
  cases l with
  | nil => rfl
  | cons x xs =>
    -- the scan compares the image of the best so far, which is the image of the element
    have key : ∀ (best : Nat) (b : β) (i : Nat),
        findBestFrom better best (f b) i (xs.map f) =
          findBestFrom (fun a b => better (f a) (f b)) best b i xs := by
      induction xs with
      | nil => intro _ _ _; rfl
      | cons y ys ih =>
        intro best b i
        simp only [List.map_cons, findBestFrom]
        split <;> apply ih
    exact key 0 x 1

/-- A swap past a prefix leaves the prefix. -/
theorem swap_append (pre d : List α) (i j : Nat) :
    (pre ++ d).swap (pre.length + i) (pre.length + j) = pre ++ d.swap i j := by
  induction pre with
  | nil => simp
  | cons p pre ih =>
    rw [List.cons_append, List.length_cons, Nat.add_right_comm, Nat.add_right_comm _ 1 j,
      List.swap_cons, ih, List.cons_append]

@[simp] theorem sortFrom_nil (i k : Nat) : sortFrom better i k [] = [] := by
  induction k generalizing i with
  | zero => rfl
  | succ k ih => exact ih (i + 1)

/-- The rounds past a prefix leave the prefix: they read and swap only what follows it. -/
theorem sortFrom_append (pre d : List α) (i k : Nat) :
    sortFrom better (pre.length + i) k (pre ++ d) = pre ++ sortFrom better i k d := by
  induction k generalizing i d with
  | zero => rfl
  | succ k ih =>
    rw [sortFrom, sortFrom, List.drop_length_add_append, Nat.add_assoc pre.length i,
      Nat.add_assoc pre.length i, swap_append, ih]

/-- Sorting from the head: the element the first round brings forward, then the rounds on the
rest. -/
theorem sortFrom_zero_succ {k : Nat} {d rest : List α} {c : α}
    (h : d.swap 0 (findBest better d) = c :: rest) :
    sortFrom better 0 (k + 1) d = c :: sortFrom better 0 k rest := by
  rw [sortFrom, List.drop_zero, Nat.zero_add (findBest better d), h]
  exact sortFrom_append better [c] rest 0 k

/-- Swapping two lists of one length at the same positions swaps their pairs. -/
theorem swap_zip {β : Type*} {l : List α} {m : List β} (h : l.length = m.length) (i j : Nat) :
    (l.zip m).swap i j = (l.swap i j).zip (m.swap i j) := by
  refine List.ext_getElem (by simp [h]) fun k h₁ h₂ => ?_
  simp only [List.getElem_swap, List.getElem_zip, List.length_zip, h, Nat.min_self]
  split_ifs <;> rfl

/-- Swapping positions of a constant list changes nothing. -/
@[simp] theorem swap_replicate (n : Nat) (a : α) (i j : Nat) :
    (List.replicate n a).swap i j = List.replicate n a :=
  List.ext_getElem (by simp) fun k _ _ => by simp [List.getElem_swap]

/-- Swapping two positions moves each element by the transposition of the two. -/
theorem getElem?_swap {β : Type*} {l : List β} {i j : Nat} (hi : i < l.length)
    (hj : j < l.length) (k : Nat) : (l.swap i j)[k]? = l[Equiv.swap i j k]? := by
  rw [List.swap_eq_of_lt hi hj, List.getElem?_set, List.getElem?_set, List.length_set]
  rcases eq_or_ne k j with rfl | hkj
  · simp [Equiv.swap_apply_right, hj, List.getElem?_eq_getElem hi]
  rcases eq_or_ne k i with rfl | hki
  · simp [Equiv.swap_apply_left, hi, hkj.symm, List.getElem?_eq_getElem hj]
  · simp [Equiv.swap_apply_of_ne_of_ne hki hkj, hki.symm, hkj.symm]

/-! ## The order the sort leaves -/

section Order

variable {better} (irrefl : ∀ a, better a a = false)
  (trans : ∀ a b c, better a b = true → better b c = true → better a c = true)
include irrefl trans

/-- The scan ends on an element that no element beats: `pre` has been scanned and holds, at
`best`, an element none of `pre` beats. -/
theorem findBestFrom_best (pre xs : List α) (best : Nat) (b : α) (hb : pre[best]? = some b)
    (hbest : ∀ y ∈ pre, better y b = false) :
    ∃ c, (pre ++ xs)[findBestFrom better best b pre.length xs]? = some c ∧
      ∀ y ∈ pre ++ xs, better y c = false := by
  induction xs generalizing pre best b with
  | nil => exact ⟨b, by simpa [findBestFrom] using hb, by simpa using hbest⟩
  | cons x xs ih =>
    have happ : pre ++ x :: xs = (pre ++ [x]) ++ xs := by simp
    have hlen : pre.length + 1 = (pre ++ [x]).length := by simp
    rw [findBestFrom, happ, hlen]
    split
    · next hx =>
      -- `x` takes over: what did not beat `b` does not beat `x`, which beats `b`
      refine ih (pre ++ [x]) pre.length x (by simp) fun y hy => ?_
      rcases List.mem_append.1 hy with hy | hy
      · cases hyx : better y x with
        | false => rfl
        | true =>
          have hyb := trans y x b hyx hx
          rw [hbest y hy] at hyb
          exact Bool.noConfusion hyb
      · rw [List.mem_singleton.1 hy, irrefl]
    · next hx =>
      have hlt : best < pre.length := (List.getElem?_eq_some_iff.1 hb).1
      refine ih (pre ++ [x]) best b (by rw [List.getElem?_append_left hlt, hb]) fun y hy => ?_
      rcases List.mem_append.1 hy with hy | hy
      · exact hbest y hy
      · rw [List.mem_singleton.1 hy]
        simpa using hx

/-- `findBest` finds an element of a non-empty list that no element beats. -/
theorem findBest_best {l : List α} (hl : l ≠ []) :
    ∃ c, l[findBest better l]? = some c ∧ ∀ y ∈ l, better y c = false := by
  cases l with
  | nil => contradiction
  | cons x xs => exact findBestFrom_best irrefl trans [x] xs 0 x rfl (by simp [irrefl])

/-- Rounds from the head that reach the end of the list leave no element beaten by one after
it. -/
theorem sortFrom_pairwise (k : Nat) (d : List α) (hk : d.length ≤ k + 1) :
    (sortFrom better 0 k d).Pairwise (fun a b => better b a = false) := by
  induction k generalizing d with
  | zero =>
    -- no round is left and at most one element
    match d, hk with
    | [], _ => exact List.Pairwise.nil
    | [x], _ => exact List.pairwise_singleton _ x
  | succ k ih =>
    cases d with
    | nil => simp
    | cons x xs =>
      obtain ⟨c, hc, hbest⟩ := findBest_best irrefl trans (List.cons_ne_nil x xs)
      have hlt := (List.getElem?_eq_some_iff.1 hc).1
      -- the first round brings `c` to the head
      obtain ⟨rest, hswap⟩ : ∃ rest, (x :: xs).swap 0 (findBest better (x :: xs)) = c :: rest := by
        cases hs : (x :: xs).swap 0 (findBest better (x :: xs)) with
        | nil => simpa using congrArg List.length hs
        | cons c' rest =>
          have hhead := getElem?_swap (List.length_pos_of_ne_nil (List.cons_ne_nil x xs)) hlt 0
          rw [hs, Equiv.swap_apply_left, hc] at hhead
          exact ⟨rest, by simpa using hhead⟩
      have hperm : (c :: rest).Perm (x :: xs) := hswap ▸ List.swap_perm _ _ _
      rw [sortFrom_zero_succ better hswap]
      refine List.pairwise_cons.2 ⟨fun y hy => hbest y ?_, ih rest ?_⟩
      · exact hperm.subset (List.mem_cons_of_mem c ((sortFrom_perm better 0 k rest).subset hy))
      · have hlen := hperm.length_eq
        simp only [List.length_cons] at hlen hk
        omega

/-- With a strict order, the sort leaves no element beaten by one after it. -/
theorem sort_pairwise (l : List α) : (sort better l).Pairwise (fun a b => better b a = false) :=
  sortFrom_pairwise irrefl trans _ l (by omega)

end Order

/-! ## Arrays sorted side by side -/

/-- `l'` holds at each position `k` what `l` holds at `σ k`. -/
def PermutedBy {β : Type*} (σ : Equiv.Perm ℕ) (l l' : List β) : Prop := ∀ k, l'[k]? = l[σ k]?

/-- A swap before a permutation composes with it. -/
theorem PermutedBy.swap_mul {β : Type*} {σ : Equiv.Perm ℕ} {l l' : List β} {i j : Nat}
    (h : PermutedBy σ (l.swap i j) l') (hi : i < l.length) (hj : j < l.length) :
    PermutedBy (Equiv.swap i j * σ) l l' := fun k => by
  rw [h k, getElem?_swap hi hj, Equiv.Perm.mul_apply]

section Lockstep

variable {S : Type*} (swap : S → Nat → Nat → S) (best : S → Nat → Nat)

/-- The rounds of the sort over a state of arrays kept side by side: `swap s i j` swaps
positions `i` and `j` of each, and `best s i` is the offset from `i` of the element the round
at `i` brings forward. -/
def roundsFrom : Nat → Nat → S → S
  | _, 0, s => s
  | i, k + 1, s => roundsFrom (i + 1) k (swap s i (i + best s i))

/-- The permutation of positions the rounds make: their transpositions in turn. -/
def roundsPerm : Nat → Nat → S → Equiv.Perm ℕ
  | _, 0, _ => 1
  | i, k + 1, s => Equiv.swap i (i + best s i) * roundsPerm (i + 1) k (swap s i (i + best s i))

variable {swap best} {inv : S → Prop} (hinv : ∀ s i j, inv s → inv (swap s i j))
include hinv

/-- A list read off the state, that the swaps swap and whose best element each round brings
forward, is sorted by the rounds. -/
theorem roundsFrom_view (view : S → List α)
    (hview : ∀ s i j, inv s → view (swap s i j) = (view s).swap i j)
    (hbest : ∀ s i, inv s → best s i = findBest better ((view s).drop i))
    (i k : Nat) (s : S) (hs : inv s) :
    view (roundsFrom swap best i k s) = sortFrom better i k (view s) := by
  induction k generalizing i s with
  | zero => rfl
  | succ k ih => rw [roundsFrom, sortFrom, ih _ _ (hinv _ _ _ hs), hview _ _ _ hs, hbest _ _ hs]

/-- The rounds keep every invariant the swaps keep. -/
theorem roundsFrom_inv (i k : Nat) (s : S) (hs : inv s) : inv (roundsFrom swap best i k s) := by
  induction k generalizing i s with
  | zero => exact hs
  | succ k ih => exact ih _ _ (hinv _ _ _ hs)

variable {n : Nat} (hbest : ∀ s i, inv s → i < n → i + best s i < n)
include hbest

/-- The rounds at positions below `n` fix every position from `n` on. -/
theorem roundsPerm_fixes (i k : Nat) (s : S) (hs : inv s) (hik : i + k ≤ n) (m : Nat)
    (hm : n ≤ m) : roundsPerm swap best i k s m = m := by
  induction k generalizing i s with
  | zero => rfl
  | succ k ih =>
    have hj := hbest s i hs (by omega)
    rw [roundsPerm, Equiv.Perm.mul_apply, ih _ _ (hinv _ _ _ hs) (by omega),
      Equiv.swap_apply_of_ne_of_ne (by omega) (by omega)]

/-- Every array of `n` elements that the swaps swap is moved by `roundsPerm`; a missing array
stays missing. -/
theorem roundsPerm_moves {β : Type*} (arr : S → Option (List β))
    (harr : ∀ s i j, inv s → arr (swap s i j) = (arr s).map (·.swap i j))
    (hlen : ∀ s, inv s → ∀ l ∈ arr s, l.length = n) (i k : Nat) (s : S) (hs : inv s)
    (hik : i + k ≤ n) :
    Option.Rel (PermutedBy (roundsPerm swap best i k s)) (arr s)
      (arr (roundsFrom swap best i k s)) := by
  induction k generalizing i s with
  | zero =>
    rw [roundsFrom, roundsPerm]
    cases arr s with
    | none => exact .none
    | some l => exact .some fun k => by rw [Equiv.Perm.one_apply]
  | succ k ih =>
    have hj := hbest s i hs (by omega)
    have hnext := ih (i + 1) (swap s i (i + best s i)) (hinv _ _ _ hs) (by omega)
    rw [harr _ _ _ hs] at hnext
    rw [roundsFrom, roundsPerm]
    -- the array after the first swap is moved by the rest of the rounds
    generalize arr (roundsFrom swap best (i + 1) k (swap s i (i + best s i))) = r at hnext ⊢
    cases has : arr s with
    | none =>
      rw [has] at hnext
      cases hnext
      exact .none
    | some l =>
      rw [has] at hnext
      have hl := hlen s hs l (by rw [has]; rfl)
      cases hnext with
      | some h => exact .some (h.swap_mul (by omega) (by omega))

end Lockstep

end SelectSort
