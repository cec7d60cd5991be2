import Mathlib.Order.Defs.Unbundled

/-!
# Runs of a state monad over `Except`

A program in `StateT σ (Except ε)` runs from a state to a value and a state, or to an error.
A run that returns is peeled step by step (`run_bind_eq_ok`). `Keeps R x` says that every run of
`x` that returns relates the state it starts in to the state it ends in by `R`. For a
reflexive and transitive `R` it is kept by `pure`, `get`, `throw`, `bind` and `if`, and by
`modify f` when `R s (f s)` (`Keeps.bind`, `Keeps.modify`): a property of how a program moves
its state is proved once per primitive and then follows the program's text.
-/

namespace StateExcept

variable {σ ε α β : Type}

@[simp] theorem run_pure (a : α) (s : σ) : (pure a : StateT σ (Except ε) α).run s = .ok (a, s) :=
  rfl

@[simp] theorem run_get (s : σ) : (get : StateT σ (Except ε) σ).run s = .ok (s, s) := rfl

@[simp] theorem run_modify (f : σ → σ) (s : σ) :
    (modify f : StateT σ (Except ε) PUnit).run s = .ok (⟨⟩, f s) := rfl

@[simp] theorem run_throw (e : ε) (s : σ) : (throw e : StateT σ (Except ε) α).run s = .error e :=
  rfl

theorem run_bind (x : StateT σ (Except ε) α) (f : α → StateT σ (Except ε) β) (s : σ) :
    (x >>= f).run s = match x.run s with
      | .ok (a, s₁) => (f a).run s₁
      | .error e => .error e := by
  show Except.bind (x.run s) _ = _
  cases x.run s <;> rfl

theorem run_bind_of_ok {x : StateT σ (Except ε) α} {f : α → StateT σ (Except ε) β} {s s₁ : σ}
    {a : α} (hx : x.run s = .ok (a, s₁)) : (x >>= f).run s = (f a).run s₁ := by
  rw [run_bind, hx]

/-- A run of `x >>= f` that returns is a run of `x` that returns, then a run of `f`. -/
theorem run_bind_eq_ok {x : StateT σ (Except ε) α} {f : α → StateT σ (Except ε) β} {s s' : σ}
    {b : β} :
    (x >>= f).run s = .ok (b, s') ↔ ∃ a s₁, x.run s = .ok (a, s₁) ∧ (f a).run s₁ = .ok (b, s') := by
  constructor
  · intro h
    rw [run_bind] at h
    match hx : x.run s, h with
    | .ok (a, s₁), h => exact ⟨a, s₁, rfl, by simpa [hx] using h⟩
    | .error e, h => simp at h
  · rintro ⟨a, s₁, hx, hf⟩
    rw [run_bind_of_ok hx, hf]

/-- A plain `Except` computation `x >>= f` that returns is `x` returning, then `f`. -/
theorem bind_eq_ok {x : Except ε α} {f : α → Except ε β} {b : β} :
    (x >>= f) = .ok b ↔ ∃ a, x = .ok a ∧ f a = .ok b := by
  cases x with
  | error e => simp [bind, Except.bind]
  | ok a => simp [bind, Except.bind]

/-! ## Programs that keep a relation -/

/-- Every run of `x` that returns relates the state it starts in to the state it ends in by
`R`. -/
def Keeps (R : σ → σ → Prop) (x : StateT σ (Except ε) α) : Prop :=
  ∀ s a s', x.run s = .ok (a, s') → R s s'

section Keeps

variable {R : σ → σ → Prop}

theorem Keeps.pure [Std.Refl R] (a : α) : Keeps R (pure a : StateT σ (Except ε) α) := by
  intro s b s' h
  cases h
  exact refl_of R s

theorem Keeps.get [Std.Refl R] : Keeps R (get : StateT σ (Except ε) σ) := by
  intro s b s' h
  cases h
  exact refl_of R s

theorem Keeps.throw (e : ε) : Keeps R (throw e : StateT σ (Except ε) α) := by
  intro s b s' h
  cases h

theorem Keeps.modify {f : σ → σ} (hf : ∀ s, R s (f s)) :
    Keeps R (modify f : StateT σ (Except ε) PUnit) := by
  intro s b s' h
  cases h
  exact hf s

theorem Keeps.bind [IsTrans σ R] {x : StateT σ (Except ε) α} {f : α → StateT σ (Except ε) β}
    (hx : Keeps R x) (hf : ∀ a, Keeps R (f a)) : Keeps R (x >>= f) := by
  intro s b s' h
  obtain ⟨a, s₁, h₁, h₂⟩ := run_bind_eq_ok.mp h
  exact trans_of R (hx s a s₁ h₁) (hf a s₁ b s' h₂)

theorem Keeps.ite {c : Prop} [Decidable c] {x y : StateT σ (Except ε) α}
    (hx : Keeps R x) (hy : Keeps R y) : Keeps R (if c then x else y) := by
  split
  · exact hx
  · exact hy

end Keeps

end StateExcept
