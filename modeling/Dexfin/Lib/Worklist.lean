import Mathlib

/-!
# Worklist searches

A search keeps a backlog of nodes still to visit and the nodes it has visited. Each iteration
takes some node from the backlog, visits it, and puts into the backlog those of its successors
that have not been visited yet. The order in which nodes are taken does not matter. Whatever it
is, when the backlog runs empty the visited nodes are exactly those reachable from the start.

`Inv` is the invariant behind this. The first backlog sets it up, every `Visit` keeps it, and
`Inv.mem_visited_iff` reads the answer off it at the end. A `Visit` is described by what the
new backlog and visited lists hold, so any list model of the two sets can use it.

The search ends because each visit adds a node that was not visited before, and every node the
search meets lies in any set that holds the start and is closed under successors. The number of
nodes of such a set that are not yet visited goes down at each visit (`Visit.countP_lt`).
-/

namespace Worklist

variable {α : Type*}

/-- `y` is reachable from `x` by following successors. -/
def Reach (succ : α → List α) (x y : α) : Prop :=
  Relation.ReflTransGen (fun a b => b ∈ succ a) x y

/-- A list that holds `x` and is closed under successors holds every node reachable
from `x`. -/
theorem Reach.mem_of_closed {succ : α → List α} {U : List α} {x y : α} (hx : x ∈ U)
    (hU : ∀ a ∈ U, ∀ b ∈ succ a, b ∈ U) (h : Reach succ x y) : y ∈ U := by
  induction h with
  | refl => exact hx
  | tail _ hedge ih => exact hU _ ih _ hedge

section Sets

variable [DecidableEq α]

/-- `std::set::insert` on a list model of the set: `a` joins at the end unless the set
holds it already. -/
def setInsert (l : List α) (a : α) : List α :=
  if a ∈ l then l else l ++ [a]

@[simp] theorem mem_setInsert {l : List α} {a x : α} : x ∈ setInsert l a ↔ x ∈ l ∨ x = a := by
  unfold setInsert
  split_ifs with h
  · exact ⟨Or.inl, fun hx => hx.elim id fun hxa => hxa ▸ h⟩
  · simp

@[simp] theorem any_setInsert (l : List α) (a : α) (f : α → Bool) :
    (setInsert l a).any f = (l.any f || f a) := by
  by_cases h : a ∈ l
  · cases hfa : f a
    · simp [setInsert, h]
    · simpa [setInsert, h] using ⟨a, h, hfa⟩
  · simp [setInsert, h]

theorem nodup_setInsert {l : List α} (hl : l.Nodup) (a : α) : (setInsert l a).Nodup := by
  unfold setInsert
  split_ifs with h
  · exact hl
  · exact hl.append (List.nodup_singleton a) (by simpa using h)

/-- Inserting into a set each node of `ns` that `V` does not hold. -/
def insertNew (V : List α) (b : List α) (n : α) : List α :=
  if n ∈ V then b else setInsert b n

theorem mem_insertNew {V b : List α} {n x : α} :
    x ∈ insertNew V b n ↔ x ∈ b ∨ (x = n ∧ n ∉ V) := by
  unfold insertNew
  split_ifs with h <;> simp [h]

theorem nodup_insertNew {V b : List α} (hb : b.Nodup) (n : α) : (insertNew V b n).Nodup := by
  unfold insertNew
  split_ifs
  · exact hb
  · exact nodup_setInsert hb n

theorem mem_foldl_insertNew {V : List α} (ns : List α) {b : List α} {x : α} :
    x ∈ ns.foldl (insertNew V) b ↔ x ∈ b ∨ (x ∈ ns ∧ x ∉ V) := by
  induction ns generalizing b with
  | nil => simp
  | cons n ns ih =>
    rw [List.foldl_cons, ih, mem_insertNew]
    constructor
    · rintro ((hb | ⟨rfl, hn⟩) | ⟨hns, hV⟩)
      · exact Or.inl hb
      · exact Or.inr ⟨List.mem_cons_self, hn⟩
      · exact Or.inr ⟨List.mem_cons_of_mem _ hns, hV⟩
    · rintro (hb | ⟨hns, hV⟩)
      · exact Or.inl (Or.inl hb)
      · rcases List.mem_cons.mp hns with rfl | hns
        · exact Or.inl (Or.inr ⟨rfl, hV⟩)
        · exact Or.inr ⟨hns, hV⟩

theorem nodup_foldl_insertNew {V : List α} (ns : List α) {b : List α} (hb : b.Nodup) :
    (ns.foldl (insertNew V) b).Nodup := by
  induction ns generalizing b with
  | nil => exact hb
  | cons n ns ih => exact ih (nodup_insertNew hb n)

end Sets

/-- The node an unordered container hands out first at iteration `k`: the one at position
`order k`, counted around the backlog. `none` exactly when the backlog is empty. -/
def pick (order : ℕ → ℕ) (k : ℕ) (backlog : List α) : Option α :=
  (backlog.drop (order k % backlog.length)).head?

theorem pick_eq_none_iff {order : ℕ → ℕ} {k : ℕ} {backlog : List α} :
    pick order k backlog = none ↔ backlog = [] := by
  unfold pick
  rw [List.head?_eq_none_iff, List.drop_eq_nil_iff]
  constructor
  · intro h
    by_contra hne
    have hpos : 0 < backlog.length := List.length_pos_iff.mpr hne
    have := Nat.mod_lt (order k) hpos
    omega
  · rintro rfl
    simp

theorem mem_of_pick_eq_some {order : ℕ → ℕ} {k : ℕ} {backlog : List α} {c : α}
    (h : pick order k backlog = some c) : c ∈ backlog :=
  List.mem_of_mem_drop (List.mem_of_mem_head? h)

/-- One iteration: `c` leaves backlog `b` for the visited nodes `v`, and its successors not
visited yet join the backlog. Stated by membership, for the backlog and the visited nodes are
sets. -/
structure Visit (succ : α → List α) (c : α) (b v b' v' : List α) : Prop where
  mem : c ∈ b
  mem_visited : ∀ x, x ∈ v' ↔ x ∈ v ∨ x = c
  mem_backlog : ∀ x, x ∈ b' ↔ (x ∈ b ∧ x ≠ c) ∨ (x ∈ succ c ∧ x ∉ v')

/-- The invariant of a search from `start`: the backlog and the visited nodes are disjoint and
reachable, the start is in one of them, and each successor of a visited node is too. -/
structure Inv (succ : α → List α) (start : α) (b v : List α) : Prop where
  disjoint : ∀ x ∈ b, x ∉ v
  reach : ∀ x, x ∈ b ∨ x ∈ v → Reach succ start x
  start_mem : start ∈ b ∨ start ∈ v
  closed : ∀ x ∈ v, ∀ y ∈ succ x, y ∈ b ∨ y ∈ v

variable {succ : α → List α} {start c : α} {b v b' v' : List α}

theorem inv_init (succ : α → List α) (start : α) : Inv succ start [start] [] where
  disjoint _ _ := List.not_mem_nil
  reach x hx := by
    simp only [List.mem_singleton, List.not_mem_nil, or_false] at hx
    exact hx ▸ Relation.ReflTransGen.refl
  start_mem := Or.inl (List.mem_singleton_self start)
  closed _ hx := absurd hx List.not_mem_nil

/-- The step lemma: a visit keeps the invariant. -/
theorem Inv.visit (h : Inv succ start b v) (hv : Visit succ c b v b' v') : Inv succ start b' v' where
  disjoint x hx hx' := by
    rcases (hv.mem_backlog x).mp hx with ⟨hb, hxc⟩ | ⟨-, hnv⟩
    · rcases (hv.mem_visited x).mp hx' with hxv | rfl
      · exact h.disjoint x hb hxv
      · exact hxc rfl
    · exact hnv hx'
  reach x hx := by
    have hc : Reach succ start c := h.reach c (Or.inl hv.mem)
    rcases hx with hx | hx
    · rcases (hv.mem_backlog x).mp hx with ⟨hb, -⟩ | ⟨hs, -⟩
      · exact h.reach x (Or.inl hb)
      · exact hc.tail hs
    · rcases (hv.mem_visited x).mp hx with hxv | rfl
      · exact h.reach x (Or.inr hxv)
      · exact hc
  start_mem := by
    by_cases hs : start ∈ v'
    · exact Or.inr hs
    · refine Or.inl ((hv.mem_backlog start).mpr (Or.inl ⟨?_, ?_⟩))
      · exact h.start_mem.resolve_right fun h' => hs ((hv.mem_visited start).mpr (Or.inl h'))
      · rintro rfl
        exact hs ((hv.mem_visited _).mpr (Or.inr rfl))
  closed x hx y hy := by
    -- a successor of the new node joins the backlog unless it is visited
    by_cases hyv : y ∈ v'
    · exact Or.inr hyv
    left
    rcases (hv.mem_visited x).mp hx with hxv | rfl
    · rcases h.closed x hxv y hy with hyb | hyv'
      · refine (hv.mem_backlog y).mpr (Or.inl ⟨hyb, ?_⟩)
        rintro rfl
        exact hyv ((hv.mem_visited _).mpr (Or.inr rfl))
      · exact absurd ((hv.mem_visited y).mpr (Or.inl hyv')) hyv
    · exact (hv.mem_backlog y).mpr (Or.inr ⟨hy, hyv⟩)

/-- The list model of a visit: `c` is erased from a backlog without repeats and inserted into
the visited set, and each successor not visited yet is inserted into the backlog. -/
theorem visit_foldl_insertNew [DecidableEq α] (hb : b.Nodup) (hc : c ∈ b) :
    Visit succ c b v ((succ c).foldl (insertNew (setInsert v c)) (b.erase c)) (setInsert v c) where
  mem := hc
  mem_visited _ := mem_setInsert
  mem_backlog x := by rw [mem_foldl_insertNew, hb.mem_erase_iff, and_comm]

/-- The node taken is not visited yet. -/
theorem Inv.not_mem_visited (h : Inv succ start b v) (hv : Visit succ c b v b' v') : c ∉ v :=
  h.disjoint c hv.mem

/-- When the backlog is empty, the visited nodes are exactly the reachable ones. -/
theorem Inv.mem_visited_iff (h : Inv succ start [] v) {x : α} : x ∈ v ↔ Reach succ start x := by
  refine ⟨fun hx => h.reach x (Or.inr hx), fun hx => ?_⟩
  induction hx with
  | refl => exact h.start_mem.resolve_left List.not_mem_nil
  | tail _ hedge ih => exact (h.closed _ ih _ hedge).resolve_left List.not_mem_nil

/-- Every node the search holds lies in a set that holds the start and is closed under
successors. -/
theorem Inv.mem_of_closed (h : Inv succ start b v) {U : List α} (hs : start ∈ U)
    (hU : ∀ a ∈ U, ∀ b ∈ succ a, b ∈ U) {x : α} (hx : x ∈ b ∨ x ∈ v) : x ∈ U :=
  (h.reach x hx).mem_of_closed hs hU

section Measure

/-- Counting a weaker predicate counts more, when one element satisfies only the weaker. -/
theorem countP_lt_of_imp {p q : α → Bool} {l : List α} (h : ∀ x ∈ l, p x = true → q x = true)
    {c : α} (hc : c ∈ l) (hq : q c = true) (hp : p c = false) : l.countP p < l.countP q := by
  induction l with
  | nil => exact absurd hc List.not_mem_nil
  | cons a l ih =>
    have hl : ∀ x ∈ l, p x = true → q x = true := fun x hx => h x (List.mem_cons_of_mem a hx)
    have hle : l.countP p ≤ l.countP q := List.countP_mono_left hl
    have ha : p a = true → q a = true := h a List.mem_cons_self
    rw [List.countP_cons, List.countP_cons]
    rcases List.mem_cons.mp hc with rfl | hc
    · simp only [hq, hp, if_true, Bool.false_eq_true, if_false]
      omega
    · have hlt := ih hl hc
      by_cases hpa : p a = true
      · simp only [hpa, ha hpa, if_true]
        omega
      · simp only [hpa, Bool.false_eq_true, if_false]
        split_ifs <;> omega

variable [DecidableEq α]

/-- The measure of the search: a visit of a node of `U` lowers the number of nodes of `U`
that are not visited. -/
theorem Visit.countP_lt (hv : Visit succ c b v b' v') (hcv : c ∉ v) {U : List α} (hcU : c ∈ U) :
    U.countP (fun x => decide (x ∉ v')) < U.countP (fun x => decide (x ∉ v)) := by
  refine countP_lt_of_imp (fun x _ => ?_) hcU (by simpa using hcv) ?_
  · simp only [decide_eq_true_eq]
    exact fun hx hxv => hx ((hv.mem_visited x).mpr (Or.inl hxv))
  · simpa using (hv.mem_visited c).mpr (Or.inr rfl)

end Measure

end Worklist
