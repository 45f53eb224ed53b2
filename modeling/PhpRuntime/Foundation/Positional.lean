import Mathlib.Tactic.Ring

/-! # Numbers in a base

The number that a list of digits writes, most significant digit first, between the powers of
the base that its length gives.
-/

namespace PhpRuntime.Positional

variable {α : Type*} (base : Nat) (digit : α → Nat)

/-- The number that the digits write, behind the digits that make up `read`. -/
def number (read : Nat) (text : List α) : Nat :=
  text.foldl (fun read c => read * base + digit c) read

variable {base digit}

theorem number_cons (read : Nat) (c : α) (rest : List α) :
    number base digit read (c :: rest) = number base digit (read * base + digit c) rest := rfl

theorem le_number (read : Nat) (text : List α) :
    read * base ^ text.length ≤ number base digit read text := by
  induction text generalizing read with
  | nil => simp [number]
  | cons c rest induction =>
      calc
        read * base ^ (c :: rest).length = read * base * base ^ rest.length := by
          rw [List.length_cons, pow_succ]
          ring
        _ ≤ (read * base + digit c) * base ^ rest.length :=
          Nat.mul_le_mul_right _ (Nat.le_add_right _ _)
        _ ≤ number base digit read (c :: rest) := induction _

theorem number_lt {text : List α} (small : ∀ c ∈ text, digit c < base) (read : Nat) :
    number base digit read text < (read + 1) * base ^ text.length := by
  induction text generalizing read with
  | nil => simp [number]
  | cons c rest induction =>
      have first := small c List.mem_cons_self
      calc
        number base digit read (c :: rest)
            < (read * base + digit c + 1) * base ^ rest.length :=
          induction (fun d member => small d (List.mem_cons_of_mem _ member)) _
        _ ≤ (read * base + base) * base ^ rest.length := by
          apply Nat.mul_le_mul_right
          omega
        _ = (read + 1) * base ^ (c :: rest).length := by
          rw [List.length_cons, pow_succ]
          ring

/-- Digits with the value zero can be left out in front. -/
theorem number_dropWhile {zero : α → Bool} (isZero : ∀ c, zero c = true → digit c = 0)
    (text : List α) :
    number base digit 0 (text.dropWhile zero) = number base digit 0 text := by
  induction text with
  | nil => rfl
  | cons c rest induction =>
      by_cases first : zero c = true
      · rw [List.dropWhile_cons_of_pos first, induction, number_cons, isZero c first,
          Nat.zero_mul]
      · rw [List.dropWhile_cons_of_neg first]

/-- The leading digit gives a lower bound. -/
theorem digit_mul_le_number (c : α) (rest : List α) :
    digit c * base ^ rest.length ≤ number base digit 0 (c :: rest) := by
  rw [number_cons, Nat.zero_mul, Nat.zero_add]
  exact le_number _ rest

/-- Of two numbers with the same length, the first different digit decides. -/
theorem number_lt_number {c d : α} {left right : List α} (same : left.length = right.length)
    (less : digit c < digit d) (small : ∀ e ∈ left, digit e < base) (read : Nat) :
    number base digit read (c :: left) < number base digit read (d :: right) := by
  calc
    number base digit read (c :: left)
        < (read * base + digit c + 1) * base ^ left.length := number_lt small _
    _ ≤ (read * base + digit d) * base ^ right.length := by
      rw [same]
      apply Nat.mul_le_mul_right
      omega
    _ ≤ number base digit read (d :: right) := le_number _ right

end PhpRuntime.Positional
