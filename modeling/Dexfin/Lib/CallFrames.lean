import Mathlib.Logic.Basic

/-!
# States with open call frames

A machine whose calls may call back into it keeps, for every call still open, the state from
before that call. When the call returns its snapshot is dropped; when it reverts the snapshot
comes back. An invariant kept by every change of the current state therefore holds of every
snapshot as well, whatever order calls open, return and revert in.
-/

namespace CallFrames

/-- A current state together with the states saved when each open call began,
innermost call first. -/
structure Stack (σ : Type*) where
  /-- The state as the running code sees it. -/
  current : σ
  /-- One snapshot per open call; reverting the innermost call restores the head. -/
  saved : List σ

variable {σ : Type*}

/-- Replace the current state, opening or closing no call. -/
def Stack.update (k : Stack σ) (s : σ) : Stack σ := ⟨s, k.saved⟩

/-- A call begins: the state before it is saved, and `s` is the state after the call's own
first effect. -/
def Stack.enter (k : Stack σ) (s : σ) : Stack σ := ⟨s, k.current :: k.saved⟩

/-- The innermost open call returns: its effects stay and its snapshot is dropped. -/
def Stack.leave (k : Stack σ) : Stack σ := ⟨k.current, k.saved.tail⟩

/-- The innermost open call reverts: the state from before it comes back. With no call
open nothing changes. -/
def Stack.abort (k : Stack σ) : Stack σ :=
  match k.saved with
  | [] => k
  | s :: rest => ⟨s, rest⟩

/-- Every state of the stack, current or saved, satisfies `P`. -/
def Stack.All (P : σ → Prop) (k : Stack σ) : Prop := P k.current ∧ ∀ s ∈ k.saved, P s

variable {P : σ → Prop} {k : Stack σ} {s : σ}

/-- A stack with no open call satisfies `P` exactly when its state does. -/
theorem Stack.all_mk_nil : (Stack.mk s []).All P ↔ P s := by
  simp [Stack.All]

theorem Stack.All.update (hk : k.All P) (hs : P s) : (k.update s).All P :=
  ⟨hs, hk.2⟩

theorem Stack.All.enter (hk : k.All P) (hs : P s) : (k.enter s).All P := by
  refine ⟨hs, ?_⟩
  intro t ht
  rcases List.mem_cons.mp ht with rfl | ht
  · exact hk.1
  · exact hk.2 t ht

theorem Stack.All.leave (hk : k.All P) : k.leave.All P :=
  ⟨hk.1, fun t ht => hk.2 t (List.mem_of_mem_tail ht)⟩

theorem Stack.All.abort (hk : k.All P) : k.abort.All P := by
  obtain ⟨current, saved⟩ := k
  cases saved with
  | nil => exact hk
  | cons t rest =>
    refine ⟨hk.2 t List.mem_cons_self, fun u hu => hk.2 u (List.mem_cons_of_mem t hu)⟩

/-- The general invariant rule: if `P` holds of the whole stack and a step of the machine
only ever replaces the current state by one satisfying `P`, opens a call on one, returns or
reverts, then `P` holds of the whole stack after the step. -/
theorem Stack.All.of_step {k' : Stack σ} (hk : k.All P)
    (hstep : k' = k ∨ (∃ s, P s ∧ (k' = k.update s ∨ k' = k.enter s)) ∨
      k' = k.leave ∨ k' = k.abort) : k'.All P := by
  rcases hstep with rfl | ⟨s, hs, rfl | rfl⟩ | rfl | rfl
  · exact hk
  · exact hk.update hs
  · exact hk.enter hs
  · exact hk.leave
  · exact hk.abort

end CallFrames
