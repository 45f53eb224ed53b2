import Mathlib.Tactic.Linarith

/-! # Integers of a fixed width -/

namespace PhpRuntime.Integers

/-- An `int` that is given the value `n`. -/
def int (n : Int) : Int := n.bmod (2 ^ 32)

theorem int_eq {n : Int} (lower : -2 ^ 31 ≤ n) (upper : n < 2 ^ 31) : int n = n := by
  apply Int.bmod_eq_of_le <;> omega

/-- The values of an `int`, and that it is congruent to what it was given. -/
theorem int_spec (n : Int) : -2 ^ 31 ≤ int n ∧ int n < 2 ^ 31 ∧ int n % 2 ^ 32 = n % 2 ^ 32 := by
  rw [int, Int.bmod_def]
  split <;> omega

theorem int_int_add (n k : Int) : int (int n + k) = int (n + k) := Int.bmod_add_bmod

theorem int_of_lt {n : Nat} (small : n < 2 ^ 31) : int n = n := by
  apply int_eq <;> omega

/-- A number in the upper half of the unsigned ones. -/
theorem int_of_ge {n : Nat} (large : 2 ^ 31 ≤ n) (small : n < 2 ^ 32) :
    int n = n - 2 ^ 32 := by
  have spec := int_spec n
  omega

/-- An `int` that counts up and has come to `n`; `none` where it has overflowed on the way. -/
def counted (n : Nat) : Option Nat := if n < 2 ^ 31 then some n else none

theorem counted_eq {n : Nat} (small : n < 2 ^ 31) : counted n = some n := if_pos small

theorem counted_eq_none {n : Nat} (large : 2 ^ 31 ≤ n) : counted n = none :=
  if_neg (Nat.not_lt.mpr large)

/-- A `long` that is given the value `n`. -/
def long (n : Int) : Int := n.bmod (2 ^ 64)

theorem long_eq {n : Int} (lower : -2 ^ 63 ≤ n) (upper : n < 2 ^ 63) : long n = n := by
  apply Int.bmod_eq_of_le <;> omega

/-- `LONG_MAX` -/
def longMax : Int := 2 ^ 63 - 1

/-- `LONG_MIN` -/
def longMin : Int := -2 ^ 63

/-- A `size_t` that is given the value `n`. -/
def sizeT (n : Int) : Nat := (n % 2 ^ 64).toNat

theorem sizeT_eq {n : Nat} {value : Int} (equal : value = n) (small : n < 2 ^ 64) :
    sizeT value = n := by
  simp only [sizeT]
  omega

/-- `abs`, which takes and returns an `int`; of the smallest one it is undefined. -/
def intAbs (n : Int) : Option Nat :=
  if int n = -2 ^ 31 then none else some (int n).natAbs

end PhpRuntime.Integers
