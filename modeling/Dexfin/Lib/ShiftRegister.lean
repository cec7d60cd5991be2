import Mathlib.Data.BitVec

/-!
# Checksums fed through a register

A checksum that feeds symbols through a register: each round steps the register with `f` and
exclusive-ors the next symbol in (`feed`). When `f` distributes over exclusive or, what the
starting value contributes separates from what the symbols contribute (`feed_eq_iterate_xor`).
When `f` is a plain left shift by `s` on values of `b` bits or fewer, feeding symbols of `s`
bits into zero packs them side by side, so the `s`-bit digits of a value are the one string of
symbols that brings a cleared register to it (`feed_zero_digits`, `digits_feed_zero`).

A loop that checks each symbol before feeding it, and gives up at the first that fails, returns
exactly when no symbol fails, and then what the unchecked loop returns (`foldlM_guard_eq_some`).
-/

namespace ShiftRegister

variable {w : ℕ}

/-! ## Bits -/

theorem getLsbD_eq_false_of_toNat_lt {x : BitVec w} {k i : ℕ} (hx : x.toNat < 2 ^ k)
    (hi : k ≤ i) : x.getLsbD i = false := by
  rw [← BitVec.testBit_toNat]
  exact Nat.testBit_lt_two_pow (lt_of_lt_of_le hx (Nat.pow_le_pow_right (by omega) hi))

theorem getLsbD_mask (s i : ℕ) :
    (BitVec.ofNat w (2 ^ s - 1)).getLsbD i = (decide (i < w) && decide (i < s)) := by
  rw [BitVec.getLsbD_ofNat, Nat.testBit_two_pow_sub_one]

/-- A value is its high part shifted back up, next to its low `s` bits. -/
theorem ushiftRight_shiftLeft_xor_and (m : BitVec w) (s : ℕ) :
    (m >>> s) <<< s ^^^ (m &&& BitVec.ofNat w (2 ^ s - 1)) = m := by
  apply BitVec.eq_of_getLsbD_eq
  intro i hi
  simp only [BitVec.getLsbD_xor, BitVec.getLsbD_shiftLeft, BitVec.getLsbD_ushiftRight,
    BitVec.getLsbD_and, getLsbD_mask]
  by_cases his : i < s
  · simp [his, hi]
  · simp [his, hi, show s + (i - s) = i by omega]

section Pack

variable {p g : BitVec w} {s : ℕ}

/-- Shifting `p` up by `s` and putting `g` below it loses nothing of `p` when `p` fits. -/
theorem shiftLeft_xor_ushiftRight (hp : p.toNat < 2 ^ (w - s)) (hg : g.toNat < 2 ^ s) :
    (p <<< s ^^^ g) >>> s = p := by
  apply BitVec.eq_of_getLsbD_eq
  intro i _
  simp only [BitVec.getLsbD_ushiftRight, BitVec.getLsbD_xor, BitVec.getLsbD_shiftLeft,
    getLsbD_eq_false_of_toNat_lt hg (show s ≤ s + i by omega)]
  by_cases hw : s + i < w
  · simp [hw, show s + i - s = i by omega]
  · simp [hw, getLsbD_eq_false_of_toNat_lt hp (show w - s ≤ i by omega)]

theorem shiftLeft_xor_and (hg : g.toNat < 2 ^ s) :
    (p <<< s ^^^ g) &&& BitVec.ofNat w (2 ^ s - 1) = g := by
  apply BitVec.eq_of_getLsbD_eq
  intro i hi
  simp only [BitVec.getLsbD_and, BitVec.getLsbD_xor, BitVec.getLsbD_shiftLeft, getLsbD_mask]
  by_cases his : i < s
  · simp [his, hi]
  · simp [his, getLsbD_eq_false_of_toNat_lt hg (show s ≤ i by omega)]

theorem toNat_shiftLeft_xor_lt {k : ℕ} (hp : p.toNat < 2 ^ k) (hg : g.toNat < 2 ^ s) :
    (p <<< s ^^^ g).toNat < 2 ^ (k + s) := by
  apply Nat.lt_pow_two_of_testBit
  intro i hi
  rw [BitVec.testBit_toNat, BitVec.getLsbD_xor, BitVec.getLsbD_shiftLeft,
    getLsbD_eq_false_of_toNat_lt hp (show k ≤ i - s by omega),
    getLsbD_eq_false_of_toNat_lt hg (show s ≤ i by omega)]
  simp

theorem toNat_ushiftRight_lt {m : BitVec w} {k : ℕ} (hm : m.toNat < 2 ^ (k + s)) :
    (m >>> s).toNat < 2 ^ k := by
  rw [BitVec.toNat_ushiftRight, Nat.shiftRight_eq_div_pow]
  exact Nat.div_lt_of_lt_mul (by rwa [← pow_add, Nat.add_comm])

end Pack

/-! ## Feeding symbols -/

variable (f : BitVec w → BitVec w)

/-- Feed `vs` into a register holding `c`: step it, then exclusive-or the next symbol in. -/
def feed (c : BitVec w) (vs : List (BitVec w)) : BitVec w :=
  vs.foldl (fun c v => f c ^^^ v) c

/-- The `n` digits of `s` bits that make up the low `n * s` bits of `m`, the most significant
first. -/
def digits (s : ℕ) : ℕ → BitVec w → List (BitVec w)
  | 0, _ => []
  | n + 1, m => digits s n (m >>> s) ++ [m &&& BitVec.ofNat w (2 ^ s - 1)]

variable {f}

@[simp] theorem feed_nil (c : BitVec w) : feed f c [] = c := rfl

@[simp] theorem feed_cons (c v : BitVec w) (vs : List (BitVec w)) :
    feed f c (v :: vs) = feed f (f c ^^^ v) vs := rfl

theorem feed_append (c : BitVec w) (xs ys : List (BitVec w)) :
    feed f c (xs ++ ys) = feed f (feed f c xs) ys :=
  List.foldl_append

theorem feed_append_singleton (c v : BitVec w) (vs : List (BitVec w)) :
    feed f c (vs ++ [v]) = f (feed f c vs) ^^^ v := by
  rw [feed_append, feed_cons, feed_nil]

/-- Feeding the images of a list is the loop that maps each element as it goes. -/
theorem feed_map {α : Type*} (h : α → BitVec w) (c : BitVec w) (l : List α) :
    feed f c (l.map h) = l.foldl (fun c x => f c ^^^ h x) c :=
  List.foldl_map

@[simp] theorem length_digits (s n : ℕ) (m : BitVec w) : (digits s n m).length = n := by
  induction n generalizing m with
  | zero => rfl
  | succ n ih => simp [digits, ih]

/-- Every digit has `s` bits. -/
theorem toNat_lt_of_mem_digits {s n : ℕ} {m g : BitVec w} (hg : g ∈ digits s n m) :
    g.toNat < 2 ^ s := by
  induction n generalizing m with
  | zero => simp [digits] at hg
  | succ n ih =>
    rcases List.mem_append.mp hg with hg | hg
    · exact ih hg
    · rw [List.mem_singleton.mp hg, BitVec.toNat_and, BitVec.toNat_ofNat]
      have hmask : (2 ^ s - 1) % 2 ^ w ≤ 2 ^ s - 1 := Nat.mod_le _ _
      have hpos : 0 < 2 ^ s := Nat.two_pow_pos s
      have := Nat.and_le_right (n := m.toNat) (m := (2 ^ s - 1) % 2 ^ w)
      omega

section Linear

variable (hf : ∀ x y, f (x ^^^ y) = f x ^^^ f y)
include hf

/-- What a second starting value adds to a run is its own steps, one for each symbol. -/
theorem feed_xor (x y : BitVec w) (vs : List (BitVec w)) :
    feed f (x ^^^ y) vs = feed f x vs ^^^ f^[vs.length] y := by
  induction vs generalizing x y with
  | nil => rfl
  | cons v vs ih =>
    calc feed f (x ^^^ y) (v :: vs) = feed f ((f x ^^^ v) ^^^ f y) vs := by
          rw [feed_cons, hf, BitVec.xor_assoc, BitVec.xor_comm (f y) v, ← BitVec.xor_assoc]
      _ = feed f (f x ^^^ v) vs ^^^ f^[vs.length] (f y) := ih _ _
      _ = feed f x (v :: vs) ^^^ f^[(v :: vs).length] y := by
          rw [feed_cons, List.length_cons, Function.iterate_succ_apply]

/-- A run from `c` is the register's own steps from `c` next to the run from zero. -/
theorem feed_eq_iterate_xor (c : BitVec w) (vs : List (BitVec w)) :
    feed f c vs = f^[vs.length] c ^^^ feed f 0 vs := by
  have h := feed_xor hf 0#w c vs
  rwa [BitVec.zero_xor, BitVec.xor_comm] at h

end Linear

section Shift

variable {s b : ℕ} (hshift : ∀ x : BitVec w, x.toNat < 2 ^ b → f x = x <<< s)
include hshift

/-- Feeding the digits of `m` into a cleared register brings it to `m`, while every value the
register passes through is still a plain shift. -/
theorem feed_zero_digits (n : ℕ) (hn : s * n ≤ s + b) (m : BitVec w)
    (hm : m.toNat < 2 ^ (s * n)) : feed f 0 (digits s n m) = m := by
  induction n generalizing m with
  | zero =>
    apply BitVec.eq_of_toNat_eq
    simp only [Nat.mul_zero, Nat.pow_zero, Nat.lt_one_iff] at hm
    simp [digits, hm]
  | succ n ih =>
    have hhigh : (m >>> s).toNat < 2 ^ (s * n) :=
      toNat_ushiftRight_lt (by rwa [← Nat.mul_succ])
    have hb : (m >>> s).toNat < 2 ^ b :=
      lt_of_lt_of_le hhigh (Nat.pow_le_pow_right (by omega) (by rw [Nat.mul_succ] at hn; omega))
    rw [digits, feed_append_singleton, ih (by rw [Nat.mul_succ] at hn; omega) _ hhigh,
      hshift _ hb, ushiftRight_shiftLeft_xor_and]

/-- Symbols fed into a cleared register stay within their total width. -/
theorem toNat_feed_zero_lt {gs : List (BitVec w)} (hgs : ∀ g ∈ gs, g.toNat < 2 ^ s)
    (hn : s * gs.length ≤ s + b) : (feed f 0 gs).toNat < 2 ^ (s * gs.length) := by
  induction gs using List.reverseRecOn with
  | nil => simp
  | append_singleton gs g ih =>
    simp only [List.length_append, List.length_singleton, Nat.mul_succ] at hn ⊢
    have hprev := ih (fun x hx => hgs x (List.mem_append_left _ hx)) (by omega)
    have hb : (feed f 0 gs).toNat < 2 ^ b :=
      lt_of_lt_of_le hprev (Nat.pow_le_pow_right (by omega) (by omega))
    rw [feed_append_singleton, hshift _ hb]
    exact toNat_shiftLeft_xor_lt hprev (hgs g (by simp))

/-- The digits of what a cleared register holds after symbols of `s` bits are those symbols. -/
theorem digits_feed_zero {gs : List (BitVec w)} (hgs : ∀ g ∈ gs, g.toNat < 2 ^ s)
    (hn : s * gs.length ≤ s + b) (hw : s * gs.length ≤ w) :
    digits s gs.length (feed f 0 gs) = gs := by
  induction gs using List.reverseRecOn with
  | nil => rfl
  | append_singleton gs g ih =>
    simp only [List.length_append, List.length_singleton, Nat.mul_succ] at hn hw
    have hgs' : ∀ x ∈ gs, x.toNat < 2 ^ s := fun x hx => hgs x (List.mem_append_left _ hx)
    have hg : g.toNat < 2 ^ s := hgs g (by simp)
    have hprev := toNat_feed_zero_lt hshift hgs' (by omega)
    have hb : (feed f 0 gs).toNat < 2 ^ b :=
      lt_of_lt_of_le hprev (Nat.pow_le_pow_right (by omega) (by omega))
    have hfit : (feed f 0 gs).toNat < 2 ^ (w - s) :=
      lt_of_lt_of_le hprev (Nat.pow_le_pow_right (by omega) (by omega))
    rw [List.length_append, List.length_singleton, feed_append_singleton, hshift _ hb, digits,
      shiftLeft_xor_ushiftRight hfit hg, shiftLeft_xor_and hg, ih hgs' (by omega) (by omega)]

end Shift

/-! ## Checked loops -/

/-- A loop that fails at the first element `p` holds of, and otherwise moves on by `g`,
returns exactly when `p` holds of no element, and then what the unchecked loop returns. -/
theorem foldlM_guard_eq_some {α σ : Type*} {F : σ → α → Option σ} {p : α → Prop}
    [DecidablePred p] {g : σ → α → σ} (hF : ∀ c x, F c x = if p x then none else some (g c x))
    {xs : List α} {c c' : σ} : xs.foldlM F c = some c' ↔ (∀ x ∈ xs, ¬ p x) ∧ xs.foldl g c = c' := by
  induction xs generalizing c with
  | nil => simp
  | cons x xs ih =>
    rw [List.foldlM_cons, hF]
    by_cases hx : p x
    · simp [hx]
    · simp [hx, ih]

end ShiftRegister
