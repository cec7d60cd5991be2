import Mathlib.Data.Nat.Digits.Defs
import Mathlib.Data.BitVec

/-!
# Decimal numbers in text

The digits that `Nat.toDigits` prints (as `%u` and `PRIu64` do), and `strtoull` of the C
library in base 10: white space, an optional sign, the longest run of digits, and their value
(`Nat.ofDigitChars`) saturated at `ULLONG_MAX` with `ERANGE` when it does not fit in 64 bits.
Printing and reading back give the number and the text after it (`strtoull_toDigits_append`).
-/

namespace Decimal

/-- `isspace` in the C locale. -/
def isCSpace (c : Char) : Bool :=
  c = ' ' || c = '\t' || c = '\n' || c = '\x0b' || c = '\x0c' || c = '\r'

/-- `strtoull(s, &end, 10)`: the value, whether `errno` is set to `ERANGE`, and the text from
`end` on. With no digits nothing is converted and `end` is `s`. -/
def strtoull (s : List Char) : BitVec 64 × Bool × List Char :=
  let t := s.dropWhile isCSpace
  let (negative, u) : Bool × List Char := match t with
    | '-' :: u => (true, u)
    | '+' :: u => (false, u)
    | u => (false, u)
  let digits := u.takeWhile Char.isDigit
  if digits = [] then (0, false, s)
  else
    let v := Nat.ofDigitChars 10 digits 0
    if 2 ^ 64 ≤ v then (BitVec.allOnes 64, true, u.dropWhile Char.isDigit)
    else (if negative then -BitVec.ofNat 64 v else BitVec.ofNat 64 v, false,
      u.dropWhile Char.isDigit)

/-- Every character `Nat.toDigits` prints is a digit. -/
theorem isDigit_of_mem_toDigits {n : ℕ} {c : Char} (hc : c ∈ Nat.toDigits 10 n) :
    c.isDigit = true :=
  Nat.isDigit_of_mem_toDigits (by decide) (by decide) hc

/-- What does not start with a digit ends the printed digits. -/
def StopsDigits (rest : List Char) : Prop := ∀ c ∈ rest.head?, c.isDigit = false

theorem takeWhile_toDigits_append {n : ℕ} {rest : List Char} (hrest : StopsDigits rest) :
    (Nat.toDigits 10 n ++ rest).takeWhile Char.isDigit = Nat.toDigits 10 n := by
  rw [List.takeWhile_append_of_pos fun c hc => isDigit_of_mem_toDigits hc]
  cases rest with
  | nil => simp
  | cons c rest => simp [hrest c rfl]

theorem dropWhile_toDigits_append {n : ℕ} {rest : List Char} (hrest : StopsDigits rest) :
    (Nat.toDigits 10 n ++ rest).dropWhile Char.isDigit = rest := by
  rw [List.dropWhile_append_of_pos fun c hc => isDigit_of_mem_toDigits hc]
  cases rest with
  | nil => rfl
  | cons c rest => simp [hrest c rfl]

/-- Printed digits start neither with white space nor with a sign. -/
theorem strtoull_start {n : ℕ} {rest : List Char} :
    (Nat.toDigits 10 n ++ rest).dropWhile isCSpace = Nat.toDigits 10 n ++ rest ∧
      ∀ u, Nat.toDigits 10 n ++ rest ≠ '-' :: u ∧ Nat.toDigits 10 n ++ rest ≠ '+' :: u := by
  obtain ⟨c, cs, hcs⟩ := List.exists_cons_of_ne_nil (Nat.toDigits_ne_nil (n := n) (b := 10))
  have hdigit : c.isDigit = true := isDigit_of_mem_toDigits (hcs ▸ List.mem_cons_self)
  have hspace : isCSpace c = false := by
    by_contra h
    simp only [isCSpace, Bool.not_eq_false, Bool.or_eq_true, decide_eq_true_eq] at h
    rcases h with (((((rfl | rfl) | rfl) | rfl) | rfl) | rfl) <;> revert hdigit <;> decide
  refine ⟨?_, fun u => ⟨?_, ?_⟩⟩
  · rw [hcs, List.cons_append, List.dropWhile_cons, hspace]
    rfl
  · rw [hcs, List.cons_append]
    rintro ⟨⟩
    simp [Char.isDigit] at hdigit
  · rw [hcs, List.cons_append]
    rintro ⟨⟩
    simp [Char.isDigit] at hdigit

/-- `strtoull` reads back a number that `%u` printed: its value when it fits in 64 bits,
else `ULLONG_MAX` with `ERANGE`, and the text after the digits. -/
theorem strtoull_toDigits_append (n : ℕ) {rest : List Char} (hrest : StopsDigits rest) :
    strtoull (Nat.toDigits 10 n ++ rest) =
      if 2 ^ 64 ≤ n then (BitVec.allOnes 64, true, rest) else (BitVec.ofNat 64 n, false, rest) := by
  obtain ⟨hspace, hsign⟩ := @strtoull_start n rest
  have hmatch : (match Nat.toDigits 10 n ++ rest with
      | '-' :: u => (true, u)
      | '+' :: u => (false, u)
      | u => (false, u) : Bool × List Char) = (false, Nat.toDigits 10 n ++ rest) := by
    split
    next u heq => exact absurd heq (hsign u).1
    next u heq => exact absurd heq (hsign u).2
    next => rfl
  simp only [strtoull, hspace, hmatch, takeWhile_toDigits_append hrest,
    dropWhile_toDigits_append hrest, Nat.ofDigitChars_toDigits (by decide : 1 < 10) le_rfl,
    Nat.toDigits_ne_nil, if_false,
    Bool.false_eq_true]

end Decimal
