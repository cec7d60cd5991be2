import Mathlib.Order.RelClasses
import Mathlib.Data.Set.Insert

/-!
# The best element of a set under a strict weak order

`IsBest r s x` says that `x` is in `s` and that nothing in `s` comes before it under `r`;
`BestOf r s o` says the same of an optional answer, where `none` means that `s` is empty.
Two ways of finding such an answer are covered: keeping the better of two candidates
(`pick`, which on a tie keeps the second), and taking the first element of a list sorted by
`r` that passes a filter. The first needs `r` to be transitive and connected (negatively
transitive), which is what makes a tie between two candidates harmless.
-/

namespace Best

variable {α : Type*} (r : α → α → Prop)

/-- `x` is an element of `s` that no element of `s` comes before. -/
def IsBest (s : Set α) (x : α) : Prop :=
  x ∈ s ∧ ∀ y ∈ s, ¬ r y x

/-- An optional answer for the best of `s`: a best element, or nothing when `s` is empty. -/
def BestOf (s : Set α) : Option α → Prop
  | some x => IsBest r s x
  | none => s = ∅

/-- The better of two optional candidates: the first when it comes before the second, the
second otherwise; a missing candidate gives way to the other. -/
def pick [DecidableRel r] : Option α → Option α → Option α
  | some a, some b => if r a b then some a else some b
  | some a, none => some a
  | none, b => b

variable {r} {s t : Set α} {a b : α}

@[simp] theorem bestOf_some : BestOf r s (some a) ↔ IsBest r s a := Iff.rfl

@[simp] theorem bestOf_none : BestOf r s none ↔ s = ∅ := Iff.rfl

theorem BestOf.of_eq {o : Option α} (h : BestOf r s o) (hst : s = t) : BestOf r t o :=
  hst ▸ h

theorem isBest_singleton [Std.Irrefl r] (a : α) : IsBest r {a} a :=
  ⟨rfl, fun y hy => by rw [Set.mem_singleton_iff.1 hy]; exact irrefl a⟩

/-- An element that nothing of `s` comes before is the best of `s` with it. -/
theorem isBest_insert [Std.Irrefl r] (h : ∀ y ∈ s, ¬ r y a) : IsBest r (insert a s) a := by
  refine ⟨Set.mem_insert a s, fun y hy => ?_⟩
  rcases hy with rfl | hy
  · exact irrefl y
  · exact h y hy

/-- The first candidate wins when it comes before the second: whatever comes before it
would come before the second too. -/
theorem IsBest.union_left [IsTrans α r] (ha : IsBest r s a) (hb : IsBest r t b) (hab : r a b) :
    IsBest r (s ∪ t) a := by
  refine ⟨Or.inl ha.1, fun y hy hya => ?_⟩
  rcases hy with hy | hy
  · exact ha.2 y hy hya
  · exact hb.2 y hy (trans_of r hya hab)

/-- The second candidate wins otherwise: nothing before it can fail to come before the
first, since not coming before is transitive. -/
theorem IsBest.union_right [IsOrderConnected α r] (ha : IsBest r s a) (hb : IsBest r t b)
    (hab : ¬ r a b) : IsBest r (s ∪ t) b := by
  refine ⟨Or.inr hb.1, fun y hy hyb => ?_⟩
  rcases hy with hy | hy
  · exact IsOrderConnected.neg_trans (ha.2 y hy) hab hyb
  · exact hb.2 y hy hyb

section Pick

variable [IsStrictOrder α r] [IsOrderConnected α r] [DecidableRel r]

/-- `pick` finds the best of a union from the best of each part. -/
theorem bestOf_pick {o₁ o₂ : Option α} (h₁ : BestOf r s o₁) (h₂ : BestOf r t o₂) :
    BestOf r (s ∪ t) (pick r o₁ o₂) := by
  cases o₁ with
  | none =>
    rw [bestOf_none] at h₁
    simpa [pick, h₁] using h₂
  | some a =>
    cases o₂ with
    | none =>
      rw [bestOf_none] at h₂
      simpa [pick, h₂] using h₁
    | some b =>
      by_cases hab : r a b
      · simpa [pick, hab] using IsBest.union_left h₁ h₂ hab
      · simpa [pick, hab] using IsBest.union_right h₁ h₂ hab

/-- One step of a scan that replaces its candidate only by a strictly better element. -/
theorem bestOf_pick_insert {o : Option α} (h : BestOf r s o) (a : α) :
    BestOf r (insert a s) (pick r (some a) o) := by
  rw [Set.insert_eq]
  exact bestOf_pick (isBest_singleton a) h

end Pick

/-- The first element of a sorted list that passes a filter is the best of those that do. -/
theorem bestOf_find? [Std.Irrefl r] {l : List α} (hl : l.Pairwise fun a b => ¬ r b a)
    (p : α → Bool) : BestOf r {x | x ∈ l ∧ p x = true} (l.find? p) := by
  induction l with
  | nil => simp
  | cons a l ih =>
    rw [List.pairwise_cons] at hl
    by_cases hp : p a = true
    · rw [List.find?_cons_of_pos hp]
      refine ⟨⟨List.mem_cons_self, hp⟩, fun y hy hya => ?_⟩
      rcases List.mem_cons.1 hy.1 with rfl | hyl
      · exact irrefl y hya
      · exact hl.1 y hyl hya
    · rw [List.find?_cons_of_neg hp]
      refine (ih hl.2).of_eq (Set.ext fun x => ?_)
      simp only [Set.mem_ofPred_eq, List.mem_cons]
      constructor
      · exact fun hx => ⟨Or.inr hx.1, hx.2⟩
      · rintro ⟨rfl | hx, hpx⟩
        · exact absurd hpx hp
        · exact ⟨hx, hpx⟩

end Best
