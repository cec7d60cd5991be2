import Mathlib.Data.List.Basic
import Mathlib.Tactic.Ring

/-!
# Little-endian bytes

The value of a list of bytes read least significant first, and the bytes of a number
written that way. Binary formats that store lengths and numbers little-endian read them
with `leValue` and write them with `leBytes`; the lemmas here say that one undoes the
other and bound the lengths, and give the two bit tests on a byte that sign-magnitude
formats use.
-/

namespace Bytes

/-- The value of bytes, least significant first. -/
def leValue : List UInt8 → Nat
  | [] => 0
  | b :: bs => b.toNat + 256 * leValue bs

/-- The bytes of `n`, least significant first and without trailing zeros, at most `fuel`
of them. -/
def leBytes : Nat → Nat → List UInt8
  | 0, _ => []
  | fuel + 1, n => if n = 0 then [] else (n % 256).toUInt8 :: leBytes fuel (n / 256)

@[simp] theorem leValue_nil : leValue [] = 0 := rfl

@[simp] theorem leValue_cons (b : UInt8) (bs : List UInt8) :
    leValue (b :: bs) = b.toNat + 256 * leValue bs := rfl

/-- Appending bytes adds their value at the next place. -/
theorem leValue_append (l₁ l₂ : List UInt8) :
    leValue (l₁ ++ l₂) = leValue l₁ + 256 ^ l₁.length * leValue l₂ := by
  induction l₁ with
  | nil => simp
  | cons b l₁ ih =>
    rw [List.cons_append, leValue_cons, leValue_cons, ih, List.length_cons, Nat.pow_succ]
    ring

/-- A trailing zero byte does not change the value. -/
@[simp] theorem leValue_append_zero (l : List UInt8) : leValue (l ++ [0]) = leValue l := by
  simp [leValue_append]

/-- `k` bytes hold a value below `256 ^ k`. -/
theorem leValue_lt (l : List UInt8) : leValue l < 256 ^ l.length := by
  induction l with
  | nil => simp
  | cons b l ih =>
    have hb := b.toNat_lt
    rw [leValue_cons, List.length_cons, Nat.pow_succ]
    omega

/-- Writing a number below `256 ^ fuel` and reading it back gives the number. -/
theorem leValue_leBytes {fuel n : Nat} (h : n < 256 ^ fuel) : leValue (leBytes fuel n) = n := by
  induction fuel generalizing n with
  | zero => simp_all [leBytes]
  | succ fuel ih =>
    by_cases hn : n = 0
    · simp [leBytes, hn]
    · have hlt : n / 256 < 256 ^ fuel := by
        rw [Nat.pow_succ] at h
        omega
      simp only [leBytes, hn, if_false, leValue_cons, ih hlt]
      have hmod : ((n % 256).toUInt8).toNat = n % 256 := by simp
      rw [hmod]
      omega

/-- A number below `256 ^ k` takes at most `k` bytes. -/
theorem length_leBytes_le {fuel n k : Nat} (h : n < 256 ^ k) : (leBytes fuel n).length ≤ k := by
  induction fuel generalizing n k with
  | zero => simp [leBytes]
  | succ fuel ih =>
    by_cases hn : n = 0
    · simp [leBytes, hn]
    · cases k with
      | zero => simp at h; omega
      | succ k =>
        have hlt : n / 256 < 256 ^ k := by
          rw [Nat.pow_succ] at h
          omega
        simp only [leBytes, hn, if_false, List.length_cons]
        have := ih hlt
        omega

/-- A positive number has at least one byte. -/
theorem leBytes_ne_nil {fuel n : Nat} (hfuel : 0 < fuel) (hn : n ≠ 0) : leBytes fuel n ≠ [] := by
  cases fuel with
  | zero => omega
  | succ fuel => simp [leBytes, hn]

/-- The most significant byte written is not zero. -/
theorem getLast_leBytes_ne_zero {fuel n : Nat} {b : UInt8} (h : n < 256 ^ fuel)
    (hb : (leBytes fuel n).getLast? = some b) : b ≠ 0 := by
  induction fuel generalizing n with
  | zero => simp [leBytes] at hb
  | succ fuel ih =>
    by_cases hn : n = 0
    · simp [leBytes, hn] at hb
    · have hlt : n / 256 < 256 ^ fuel := by
        rw [Nat.pow_succ] at h
        omega
      simp only [leBytes, hn, if_false] at hb
      by_cases hq : n / 256 = 0
      · have hnil : leBytes fuel (n / 256) = [] := by cases fuel <;> simp [leBytes, hq]
        rw [hnil] at hb
        simp only [List.getLast?_singleton, Option.some.injEq] at hb
        subst hb
        intro h0
        have := congrArg UInt8.toNat h0
        simp at this
        omega
      · have hne : leBytes fuel (n / 256) ≠ [] := by
          cases fuel with
          | zero => simp at hlt; omega
          | succ => exact leBytes_ne_nil (by omega) hq
        rw [List.getLast?_cons, List.getLast?_eq_some_getLast hne] at hb
        exact ih hlt (by rw [List.getLast?_eq_some_getLast hne]; simpa using hb)

/-! ## Fixed widths -/

/-- A byte string of exactly `n` bytes, such as a hash or a transaction id. -/
structure Fixed (n : Nat) where
  /-- The bytes, in memory order. -/
  bytes : List UInt8
  /-- There are `n` of them. -/
  length_eq : bytes.length = n
  deriving DecidableEq, Repr

/-- The `k` low bytes of `n`, least significant first: how a `k`-byte integer is stored
little-endian. -/
def leFixed : Nat → Nat → List UInt8
  | 0, _ => []
  | k + 1, n => (n % 256).toUInt8 :: leFixed k (n / 256)

@[simp] theorem length_leFixed (k n : Nat) : (leFixed k n).length = k := by
  induction k generalizing n with
  | zero => rfl
  | succ k ih => simp [leFixed, ih]

/-- Reading `k` stored bytes gives the number modulo `256 ^ k`. -/
theorem leValue_leFixed (k n : Nat) : leValue (leFixed k n) = n % 256 ^ k := by
  induction k generalizing n with
  | zero => simp [leFixed, Nat.mod_one]
  | succ k ih =>
    have hmod : ((n % 256).toUInt8).toNat = n % 256 := by simp
    rw [leFixed, leValue_cons, ih, hmod, Nat.pow_succ, Nat.mul_comm (256 ^ k), Nat.mod_mul]

/-- The value of bytes, most significant first. -/
def beValue (l : List UInt8) : Nat := leValue l.reverse

/-- A leading byte counts at the place of the bytes after it. -/
theorem beValue_cons (b : UInt8) (l : List UInt8) :
    beValue (b :: l) = beValue l + 256 ^ l.length * b.toNat := by
  simp [beValue, leValue_append]

/-- `k` bytes hold a big-endian value below `256 ^ k`. -/
theorem beValue_lt (l : List UInt8) : beValue l < 256 ^ l.length := by
  simpa [beValue] using leValue_lt l.reverse

/-- `memcmp` of the first `n` bytes, as the order of the first pair of bytes that differ;
the bytes compare unsigned. -/
def memcmp : List UInt8 → List UInt8 → Nat → Ordering
  | a :: as, b :: bs, n + 1 => if a < b then .lt else if b < a then .gt else memcmp as bs n
  | _, _, _ => .eq

/-- The top bit of a byte is clear exactly below `0x80`. -/
theorem and_0x80_eq_zero_iff (b : UInt8) : b &&& 0x80 = 0 ↔ b.toNat < 128 := by
  have key : ∀ n : Fin 256, (n.val &&& 128 = 0 ↔ n.val < 128) := by decide +kernel
  rw [← UInt8.toNat_inj, UInt8.toNat_and]
  simpa using key ⟨b.toNat, b.toNat_lt⟩

/-- The low seven bits of a byte are clear exactly for `0` and `0x80`. -/
theorem and_0x7f_eq_zero_iff (b : UInt8) : b &&& 0x7f = 0 ↔ b.toNat = 0 ∨ b.toNat = 128 := by
  have key : ∀ n : Fin 256, (n.val &&& 127 = 0 ↔ n.val = 0 ∨ n.val = 128) := by decide +kernel
  rw [← UInt8.toNat_inj, UInt8.toNat_and]
  simpa using key ⟨b.toNat, b.toNat_lt⟩

end Bytes
