import Mathlib.Data.List.Infix
import Mathlib.Tactic.Ring

/-! # Decimal numerals

Numbers written with the ten digits, most significant digit first, as bytes. Reading
goes from left to right, and printing from right to left; a numeral without a leading
zero is determined by its value.
-/

namespace PhpRuntime.Decimal

/-- The code of an ASCII character. -/
def byte (c : Char) : UInt8 := c.toUInt8

def isDigit (c : UInt8) : Bool := byte '0' ≤ c && c ≤ byte '9'

/-- One digit or more, and nothing else. -/
def isDigits (text : List UInt8) : Bool := !text.isEmpty && text.all isDigit

/-- The value of a digit. -/
def digit (c : UInt8) : Nat := c.toNat - 48

/-- The digit of a value below ten. -/
def glyph (n : Nat) : UInt8 := UInt8.ofNat (48 + n)

/-- The number that the digits write, behind the digits that make up `read`. -/
def valueFrom (read : Nat) (text : List UInt8) : Nat :=
  text.foldl (fun read c => read * 10 + digit c) read

def value (text : List UInt8) : Nat := valueFrom 0 text

/-- The last digits of `n` in front of `tail`; there is room for `room` digits. -/
def print : Nat → Nat → List UInt8 → List UInt8
  | 0, _, tail => tail
  | room + 1, n, tail =>
      if 0 < n / 10 then
        print room (n / 10) (glyph (n % 10) :: tail)
      else
        glyph (n % 10) :: tail

/-! ## Single digits -/

/-- What a list is tested for, element by element. -/
theorem forall_of_all {α : Type} {holds : α → Prop} [DecidablePred holds] {text : List α}
    (tested : (text.all fun c => decide (holds c)) = true) : ∀ c ∈ text, holds c :=
  fun c member => of_decide_eq_true (List.all_eq_true.mp tested c member)

theorem isDigit_iff {c : UInt8} : isDigit c = true ↔ 48 ≤ c.toNat ∧ c.toNat ≤ 57 := by
  simp only [isDigit, Bool.and_eq_true, decide_eq_true_eq, UInt8.le_iff_toNat_le]
  exact Iff.rfl

theorem toNat_glyph {n : Nat} (small : n < 10) : (glyph n).toNat = 48 + n := by
  simp only [glyph, UInt8.toNat_ofNat']
  omega

theorem isDigit_glyph {n : Nat} (small : n < 10) : isDigit (glyph n) = true := by
  rw [isDigit_iff, toNat_glyph small]
  omega

theorem digit_glyph {n : Nat} (small : n < 10) : digit (glyph n) = n := by
  rw [digit, toNat_glyph small]
  omega

theorem digit_lt {c : UInt8} (isDigit : isDigit c = true) : digit c < 10 := by
  have bounds := isDigit_iff.mp isDigit
  simp only [digit]
  omega

theorem digit_pos {c : UInt8} (isDigit : isDigit c = true) (leading : c ≠ byte '0') :
    0 < digit c := by
  have range := isDigit_iff.mp isDigit
  have different : c.toNat ≠ 48 := fun equal => leading (UInt8.toNat_inj.mp equal)
  rw [digit]
  omega

/-! ## Reading -/

theorem isDigits_iff {text : List UInt8} :
    isDigits text = true ↔ text ≠ [] ∧ ∀ c ∈ text, isDigit c = true := by
  simp [isDigits]

theorem valueFrom_nil (read : Nat) : valueFrom read [] = read := rfl

theorem valueFrom_cons (read : Nat) (c : UInt8) (rest : List UInt8) :
    valueFrom read (c :: rest) = valueFrom (read * 10 + digit c) rest := by
  simp only [valueFrom, List.foldl_cons]

theorem value_cons (c : UInt8) (rest : List UInt8) :
    value (c :: rest) = valueFrom (digit c) rest := by
  rw [value, valueFrom_cons, Nat.zero_mul, Nat.zero_add]

theorem valueFrom_append (read : Nat) (text more : List UInt8) :
    valueFrom read (text ++ more) = valueFrom (valueFrom read text) more :=
  List.foldl_append

theorem value_append_singleton (text : List UInt8) (c : UInt8) :
    value (text ++ [c]) = value text * 10 + digit c :=
  valueFrom_append 0 text [c]

theorem valueFrom_lt {text : List UInt8} (digits : ∀ c ∈ text, isDigit c = true) (read : Nat) :
    valueFrom read text < (read + 1) * 10 ^ text.length := by
  induction text generalizing read with
  | nil => simp [valueFrom_nil]
  | cons c rest induction =>
      have small := digit_lt (digits c List.mem_cons_self)
      have later := induction (fun c member => digits c (List.mem_cons_of_mem _ member))
        (read * 10 + digit c)
      rw [valueFrom_cons, List.length_cons, Nat.pow_succ]
      calc valueFrom (read * 10 + digit c) rest
          < (read * 10 + digit c + 1) * 10 ^ rest.length := later
        _ ≤ ((read + 1) * 10) * 10 ^ rest.length := Nat.mul_le_mul_right _ (by omega)
        _ = (read + 1) * (10 ^ rest.length * 10) := by
          rw [Nat.mul_assoc, Nat.mul_comm 10]

theorem value_lt {text : List UInt8} (digits : ∀ c ∈ text, isDigit c = true) :
    value text < 10 ^ text.length := by
  have bound := valueFrom_lt digits 0
  rwa [Nat.zero_add, Nat.one_mul] at bound

/-! ## Printing -/

theorem print_append (room n : Nat) (tail : List UInt8) :
    print room n tail = print room n [] ++ tail := by
  induction room generalizing n tail with
  | zero => rfl
  | succ room induction =>
      simp only [print]
      split
      · rw [induction _ (_ :: tail), induction _ [_], List.append_assoc]
        rfl
      · rfl

/-- One round of printing: the last digit, behind the others. -/
theorem print_succ (room n : Nat) :
    print (room + 1) n [] =
      (if 0 < n / 10 then print room (n / 10) [] else []) ++ [glyph (n % 10)] := by
  simp only [print]
  split
  · rw [print_append]
  · rfl

theorem value_print {room n : Nat} (fits : n < 10 ^ room) (positive : 0 < room) :
    value (print room n []) = n := by
  induction room generalizing n with
  | zero => contradiction
  | succ room induction =>
      have last : digit (glyph (n % 10)) = n % 10 := digit_glyph (Nat.mod_lt _ (by omega))
      rw [print_succ, value_append_singleton, last]
      split
      · next more =>
        have fewer : n / 10 < 10 ^ room := by
          rw [Nat.pow_succ] at fits
          omega
        have positive : 0 < room := by
          apply Nat.pos_of_ne_zero
          rintro rfl
          simp at fewer
          omega
        rw [induction fewer positive]
        omega
      · simp only [value, valueFrom_nil]
        omega

theorem print_digits (room n : Nat) : ∀ c ∈ print room n [], isDigit c = true := by
  induction room generalizing n with
  | zero => simp [print]
  | succ room induction =>
      intro c member
      rw [print_succ, List.mem_append, List.mem_singleton] at member
      cases member with
      | inl earlier =>
          split at earlier
          · exact induction _ c earlier
          · simp at earlier
      | inr last =>
          rw [last]
          exact isDigit_glyph (Nat.mod_lt _ (by omega))

theorem print_ne_nil (room n : Nat) : print (room + 1) n [] ≠ [] := by
  rw [print_succ]
  simp

theorem length_print {room n size : Nat} (fits : n < 10 ^ (size + 1)) :
    (print room n []).length ≤ size + 1 := by
  induction room generalizing n size with
  | zero => simp [print]
  | succ room induction =>
      rw [print_succ]
      split
      · next more =>
        cases size with
        | zero =>
            simp at fits
            omega
        | succ size =>
            have fewer : n / 10 < 10 ^ (size + 1) := by
              rw [Nat.pow_succ] at fits
              omega
            have shorter := induction fewer
            simpa using shorter
      · simp

end PhpRuntime.Decimal
