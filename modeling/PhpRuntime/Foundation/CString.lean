import PhpRuntime.Foundation.Decimal
import Mathlib.Data.List.TakeWhile

/-! # C strings

Reading through a pointer into a string that ends with a NUL, and the classes of characters
in the C locale. A pointer is the part of the string behind it.
-/

namespace PhpRuntime.CString

open Decimal

/-- The byte that a pointer, moved by `offset`, points to. -/
def read (text : List UInt8) (offset : Nat) : UInt8 := text.getD offset 0

def slash : UInt8 := byte '/'

def dot : UInt8 := byte '.'

def cr : UInt8 := 13

def lf : UInt8 := 10

/-- `MAX_LENGTH_OF_LONG` -/
def maxLengthOfLong : Nat := 20

/-- `isspace` -/
def isSpace (c : UInt8) : Bool := c == byte ' ' || (9 ≤ c && c ≤ 13)

/-- `iscntrl` -/
def isCntrl (c : UInt8) : Bool := c < 32 || c == 127

/-- `isxdigit` -/
def isXdigit (c : UInt8) : Bool :=
  isDigit c || (byte 'a' ≤ c && c ≤ byte 'f') || (byte 'A' ≤ c && c ≤ byte 'F')

/-- `tolower` -/
def toLower (c : UInt8) : UInt8 := if byte 'A' ≤ c ∧ c ≤ byte 'Z' then c + 32 else c

/-- The value of a hexadecimal digit. -/
def hexDigit (c : UInt8) : Option Nat :=
  if byte '0' ≤ c ∧ c ≤ byte '9' then some (c.toNat - 48)
  else if byte 'a' ≤ c ∧ c ≤ byte 'f' then some (c.toNat - (97 - 10))
  else if byte 'A' ≤ c ∧ c ≤ byte 'F' then some (c.toNat - (65 - 10))
  else none

/-- The bytes of a C string. -/
def cString (bytes : List UInt8) : List UInt8 := bytes.takeWhile (· != 0)

theorem cString_of_notMem {bytes : List UInt8} (noNul : 0 ∉ bytes) : cString bytes = bytes := by
  rw [cString, List.takeWhile_eq_self_iff]
  intro c member
  rw [bne_iff_ne]
  rintro rfl
  exact noNul member

/-- `memchr` does not find a byte that is not there. -/
theorem findIdx?_eq_none {bytes : List UInt8} {byte : UInt8} :
    bytes.findIdx? (· == byte) = none ↔ byte ∉ bytes := by
  rw [List.findIdx?_eq_none_iff]
  constructor
  · intro different member
    simpa using different byte member
  · intro missing other member
    rw [beq_eq_false_iff_ne]
    intro equal
    exact missing (equal ▸ member)

end PhpRuntime.CString
