import PhpRuntime.Foundation.Decimal
import Mathlib.Data.List.Nodup

/-! # PHP values

Values without references as trees, and arrays as lists of keys and elements in their order.
`ZEND_HANDLE_NUMERIC_EX` (`zend_hash.h`) turns a string key that is the text of a `long` into
that `long`, and no other string key.
-/

namespace PhpRuntime.Values

open Decimal

/-- Digits read into an `unsigned long`. -/
def readUnsigned (text : List UInt8) : BitVec 64 :=
  text.foldl (fun idx c => idx * 10#64 + BitVec.ofNat 64 (digit c)) 0#64

/-! ## Arrays -/

inductive Key
  | long (n : BitVec 64)
  | string (bytes : List UInt8)
  deriving DecidableEq, Repr

/-- The number `idx` of a key of at most 19 digits behind the sign; numbers with leading
zeros are refused. -/
def numericIdx (key digits : List UInt8) : Option (BitVec 64) :=
  if isDigits (digits.take 1) = false then none
  else if digits.head? = some (byte '0') ∧ 1 < key.length then none
  else if 19 < digits.length then none
  else if digits.all isDigit then some (readUnsigned digits)
  else none

/-- `ZEND_HANDLE_NUMERIC_EX` on the bytes in front of the terminator -/
def zendHandleNumeric (key : List UInt8) : Option (BitVec 64) :=
  if key.head? = some (byte '-') then
    (numericIdx key key.tail).bind fun idx =>
      if .intMax 64 < idx - 1#64 then none else some (0#64 - idx)
  else
    (numericIdx key key).bind fun idx => if .intMax 64 < idx then none else some idx

/-- An array with the element of `key` set: in its old place, or behind the others. -/
def put (elements : List (Key × α)) (key : Key) (data : α) : List (Key × α) :=
  match elements with
  | [] => [(key, data)]
  | (other, old) :: rest =>
      if other = key then (other, data) :: rest else (other, old) :: put rest key data

/-- The key under which `zend_symtable_update` stores an element. -/
def symtableKey (bytes : List UInt8) : Key :=
  match zendHandleNumeric bytes with
  | some idx => .long idx
  | none => .string bytes

theorem lookup_put (elements : List (Key × α)) (key other : Key) (data : α) :
    (put elements key data).lookup other =
      if other = key then some data else elements.lookup other := by
  induction elements with
  | nil =>
      by_cases equal : other = key
      · simp [put, equal]
      · simp [put, List.lookup_cons, equal, beq_eq_false_iff_ne.mpr equal]
  | cons entry rest induction =>
      rcases entry with ⟨first, old⟩
      by_cases here : first = key
      · subst here
        by_cases equal : other = first
        · simp [put, equal]
        · simp [put, List.lookup_cons, equal, beq_eq_false_iff_ne.mpr equal]
      · rw [put, if_neg here]
        by_cases equal : other = first
        · subst equal
          simp [here]
        · simp [List.lookup_cons, beq_eq_false_iff_ne.mpr equal, induction]

/-! ## Values -/

/-- A value without references and objects; doubles are left out. -/
inductive Value
  | null
  | bool (b : Bool)
  | long (n : BitVec 64)
  | string (bytes : List UInt8)
  | array (entries : List (Key × Value))

namespace Value

mutual

/-- How deep arrays are nested. -/
def depth : Value → Nat
  | .array entries => depthAll entries + 1
  | _ => 0

def depthAll : List (Key × Value) → Nat
  | [] => 0
  | (_, value) :: rest => max value.depth (depthAll rest)

end

theorem depth_le_depthAll {entries : List (Key × Value)} {entry : Key × Value}
    (member : entry ∈ entries) : entry.2.depth ≤ depthAll entries := by
  induction member with
  | head rest => exact Nat.le_max_left _ _
  | tail first _ induction => exact Nat.le_trans induction (Nat.le_max_right _ _)

end Value

end PhpRuntime.Values
