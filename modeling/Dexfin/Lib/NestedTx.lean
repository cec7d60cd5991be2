import Mathlib.Logic.Function.Basic

/-!
# Nested transactions as a stack of maps

A stack of nested transactions over a base map. Each level sees a map from keys to values
and remembers which keys it wrote; writes go to the innermost level. Opening a level copies
the view of the one below. Rolling it back drops it. Committing it makes its view the view
of the level below, after stamping the values it wrote (a transaction may mark what it
commits), and adds its writes to those of that level.
-/

namespace NestedTx

variable {K V : Type}

/-- One transaction: the map it sees, the keys it wrote, and what committing does to the
values it wrote. -/
structure Level (K V : Type) where
  /-- The value of each key as this level sees it. -/
  view : K → Option V
  /-- The keys this level wrote. -/
  written : K → Bool
  /-- What committing does to a value this level wrote. -/
  stamp : V → V

/-- The base map and the open transactions, innermost first. -/
structure Stack (K V : Type) where
  /-- The map under every transaction. -/
  base : K → Option V
  /-- The open transactions, innermost first. -/
  levels : List (Level K V)

/-- The view of the innermost transaction, or the base when none is open. -/
def Stack.top (s : Stack K V) : K → Option V :=
  match s.levels with
  | [] => s.base
  | l :: _ => l.view

/-- Write a value, or the absence of one, to a key. -/
def Level.write [DecidableEq K] (l : Level K V) (k : K) (v : Option V) : Level K V :=
  { l with view := Function.update l.view k v, written := Function.update l.written k true }

/-- The view a level hands down when it commits: its written values stamped. -/
def Level.sealedView (l : Level K V) : K → Option V :=
  fun k => if l.written k then (l.view k).map l.stamp else l.view k

/-- Write to the innermost transaction. -/
def Stack.write [DecidableEq K] (s : Stack K V) (k : K) (v : Option V) : Stack K V :=
  match s.levels with
  | [] => s
  | l :: ls => ⟨s.base, l.write k v :: ls⟩

/-- Open a transaction over the innermost view. -/
def Stack.push (s : Stack K V) (stamp : V → V) : Stack K V :=
  ⟨s.base, ⟨s.top, fun _ => false, stamp⟩ :: s.levels⟩

/-- Roll back the innermost transaction. -/
def Stack.pop (s : Stack K V) : Stack K V :=
  ⟨s.base, s.levels.tail⟩

/-- Commit the innermost transaction into the level below, or into the base. -/
def Stack.commit (s : Stack K V) : Stack K V :=
  match s.levels with
  | [] => s
  | [l] => ⟨l.sealedView, []⟩
  | l :: p :: ls =>
    ⟨s.base, { p with view := l.sealedView, written := fun k => p.written k || l.written k } :: ls⟩

@[simp] theorem Level.write_view [DecidableEq K] (l : Level K V) (k : K) (v : Option V) :
    (l.write k v).view = Function.update l.view k v := rfl

@[simp] theorem Level.write_written [DecidableEq K] (l : Level K V) (k : K) (v : Option V) :
    (l.write k v).written = Function.update l.written k true := rfl

@[simp] theorem Level.write_stamp [DecidableEq K] (l : Level K V) (k : K) (v : Option V) :
    (l.write k v).stamp = l.stamp := rfl

/-- Rolling back a transaction just opened gives the stack back. -/
@[simp] theorem Stack.pop_push (s : Stack K V) (stamp : V → V) : (s.push stamp).pop = s := rfl

/-- A value a level did not write is handed down as it is. -/
theorem Level.sealedView_of_not_written {l : Level K V} {k : K} (h : l.written k = false) :
    l.sealedView k = l.view k := by
  simp [Level.sealedView, h]

/-- A written value is handed down stamped. -/
theorem Level.sealedView_of_written {l : Level K V} {k : K} (h : l.written k = true) :
    l.sealedView k = (l.view k).map l.stamp := by
  simp [Level.sealedView, h]

end NestedTx
