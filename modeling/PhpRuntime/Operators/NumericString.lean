import PhpRuntime.Foundation.CString

/-! # Numeric strings

`is_numeric_string_ex` of `Zend/zend_operators.h` with 64-bit longs. `str` is the text behind
the leading whitespace, and `ptr` an index into it. `lval` and `oflow_info` are given, `dval`
may be `NULL`. Of `zend_strtod` and `zend_hex_strtod` the end pointers are modelled and the
doubles are given.
-/

namespace PhpRuntime.Operators

open Decimal CString

/-! ## Library functions -/

/-- The doubles that `zend_strtod.c` makes of a text. -/
structure Conversions where
  zendStrtod : List UInt8 → UInt64
  zendHexStrtod : List UInt8 → UInt64

def isSign (c : UInt8) : Bool := c == byte '-' || c == byte '+'

/-- The sign in front of a number takes one byte or none. -/
def signLength (str : List UInt8) : Nat := if isSign (read str 0) then 1 else 0

def isExponent (c : UInt8) : Bool := c == byte 'e' || c == byte 'E'

/-- How many bytes from `ptr` on pass the test. -/
def run (test : UInt8 → Bool) (str : List UInt8) (ptr : Nat) : Nat :=
  ((str.drop ptr).takeWhile test).length

/-- Where the digits of an exponent at `ptr` start. -/
def exponentStart (str : List UInt8) (ptr : Nat) : Nat :=
  if isSign (read str (ptr + 1)) then ptr + 2 else ptr + 1

/-- The end of the exponent at `ptr`, or `ptr` if there is none. -/
def exponentEnd (str : List UInt8) (ptr : Nat) : Nat :=
  if isExponent (read str ptr) then
    let e := exponentStart str ptr
    if isDigit (read str e) then e + run isDigit str e else ptr
  else
    ptr

/-- The end pointer of `zend_strtod`; the text has no leading whitespace. -/
def zendStrtodEnd (str : List UInt8) : Nat :=
  let start := signLength str
  let point := start + run isDigit str start
  if read str point = byte '.' then
    let fraction := run isDigit str (point + 1)
    if point = start ∧ fraction = 0 then 0 else exponentEnd str (point + 1 + fraction)
  else if point = start then
    0
  else
    exponentEnd str point

/-- The end pointer of `zend_hex_strtod`. -/
def zendHexStrtodEnd (str : List UInt8) : Nat :=
  let start :=
    if read str 0 = byte '0' ∧ (read str 1 = byte 'x' ∨ read str 1 = byte 'X') then 2 else 0
  let any := run isXdigit str start
  if str.length < 2 ∨ any = 0 then 0 else start + any

def strcmp : List UInt8 → List UInt8 → Ordering
  | [], [] => .eq
  | [], _ :: _ => .lt
  | _ :: _, [] => .gt
  | c :: left, d :: right =>
      if c = d then strcmp left right else if c < d then .lt else .gt

/-- The value of a hexadecimal digit. -/
def xdigit (c : UInt8) : Nat :=
  if isDigit c then digit c
  else if byte 'a' ≤ c then c.toNat - 87
  else c.toNat - 55

def hexValue (text : List UInt8) : Nat := text.foldl (fun read c => read * 16 + xdigit c) 0

/-- `strtol` stays in the range of a `long`. -/
def clampLong (number : Int) : BitVec 64 :=
  BitVec.ofInt 64 (max (-2 ^ 63) (min number (2 ^ 63 - 1)))

/-- `strtol` in base 10; the text has no leading whitespace. -/
def strtol (str : List UInt8) : BitVec 64 :=
  let digits := (str.drop (signLength str)).takeWhile isDigit
  clampLong (if read str 0 = byte '-' then -(value digits : Int) else value digits)

/-- `strtol` in base 16 of a text that starts with `0x`. -/
def strtolHex (str : List UInt8) : BitVec 64 :=
  clampLong (hexValue ((str.drop 2).takeWhile isXdigit))

/-! ## The scanner -/

def longMinDigits : List UInt8 := "9223372036854775808".toList.map byte

/-- How the loop over the digits ends: at its own end, or with a jump to `process_double`. -/
inductive Exit
  | stop (ptr digits : Nat)
  | double (ptr digits : Nat)

/-- A byte that belongs to the number. -/
def isNumeral (hex : Bool) (c : UInt8) : Bool := isDigit c || (hex && isXdigit c)

/-- The loop at a byte that is no digit. -/
def leaveDigits (str : List UInt8) (hex : Bool) (dpOrE : Int) (ptr digits : Nat) : Exit :=
  if hex then
    .stop ptr digits
  else if read str ptr = byte '.' ∧ dpOrE < 1 then
    .double ptr digits
  else if isExponent (read str ptr) = true ∧ dpOrE < 2 then
    -- the pointer moves to the sign even if no digit follows
    let e := exponentStart str ptr
    let ptr := if isSign (read str (ptr + 1)) then ptr + 1 else ptr
    if isDigit (read str e) then .double ptr digits else .stop ptr digits
  else
    .stop ptr digits

/-- The loop from `check_digits` on, with `digits` counted; `limited` when the loop stops at a
number of digits that is too large for a `long`. -/
def checkDigits (str : List UInt8) (limited hex : Bool) (dpOrE : Int) : Nat → Nat → Nat → Exit
  | 0, ptr, digits => .stop ptr digits
  | fuel + 1, ptr, digits =>
      if isNumeral hex (read str ptr) then
        if limited && maxLengthOfLong ≤ digits + 1 then
          .stop (ptr + 1) (digits + 1)
        else
          checkDigits str limited hex dpOrE fuel (ptr + 1) (digits + 1)
      else
        leaveDigits str hex dpOrE ptr digits

/-- The jumps between `process_double` and `check_digits` without `dval`. -/
def scanDouble (str : List UInt8) : Nat → Nat → Nat → Nat × Nat
  | 0, ptr, digits => (ptr, digits)
  | fuel + 1, ptr, digits =>
      let dpOrE := if read str ptr = byte '.' then 1 else 2
      match checkDigits str false false dpOrE (str.length + 1) (ptr + 1) digits with
      | .stop ptr digits => (ptr, digits)
      | .double ptr digits => scanDouble str fuel ptr digits

/-- The test for a hexadecimal number, which has no sign. -/
def isHexText (str : List UInt8) : Bool :=
  decide (2 < str.length) && read str 0 == byte '0' &&
    (read str 1 == byte 'x' || read str 1 == byte 'X')

inductive NumericType
  | none
  | long
  | double
  deriving DecidableEq

/-- The results, with what is stored through the pointers. -/
structure Numeric where
  type : NumericType
  lval : Option (BitVec 64)
  dval : Option UInt64
  oflowInfo : Option Int
  notice : Bool
  deriving DecidableEq

section Scanner

variable (conversions : Conversions) (dval : Bool) (allowErrors : Int)

/-- The part behind the test of `ptr`, for each type. -/
def finish (str : List UInt8) (ptr : Nat) (oflowInfo : Int) (result : Numeric) : Numeric :=
  if ptr ≠ str.length then
    if allowErrors = 0 then
      { type := .none, lval := none, dval := none, oflowInfo := some oflowInfo, notice := false }
    else
      { result with notice := allowErrors = -1 }
  else
    result

/-- A double that ends at `ptr`. -/
def finishDouble (str : List UInt8) (ptr : Nat) (localDval : UInt64) (oflowInfo : Int) : Numeric :=
  finish allowErrors str ptr oflowInfo
    { type := .double, lval := none, dval := if dval then some localDval else none,
      oflowInfo := some oflowInfo, notice := false }

/-- A number without point and exponent that ends at `ptr`. -/
def finishLong (str : List UInt8) (ptr digits : Nat) (hex : Bool) : Numeric :=
  let cmp := strcmp (cString (str.drop (ptr - digits))) longMinDigits
  let oflow : Int := if read str 0 = byte '-' then -1 else 1
  finish allowErrors str ptr 0
    (if digits = maxLengthOfLong - 1 ∧ ¬ (cmp = .lt ∨ (cmp = .eq ∧ read str 0 = byte '-')) then
      { type := .double, lval := none,
        dval := if dval then some (conversions.zendStrtod str) else none,
        oflowInfo := some oflow, notice := false }
    else
      { type := .long, lval := some (if hex then strtolHex str else strtol str), dval := none,
        oflowInfo := some 0, notice := false })

/-- The label `process_double`, reached from the digits or from a point. -/
def processDouble (str : List UInt8) (ptr digits : Nat) : Numeric :=
  if dval then
    finishDouble dval allowErrors str (zendStrtodEnd str) (conversions.zendStrtod str) 0
  else if allowErrors ≠ 1 then
    let (ptr, digits) := scanDouble str 2 ptr digits
    let oflow : Int := if read str 0 = byte '-' then -1 else 1
    finishDouble dval allowErrors str ptr 0 (if maxLengthOfLong ≤ digits then oflow else 0)
  else
    finishDouble dval allowErrors str ptr 0 0

/-- A text whose first byte behind the sign is a digit. -/
def scanNumber (str : List UInt8) : Numeric :=
  let hex := isHexText str
  let start := if hex then 2 else signLength str
  let ptr := start + run (· == byte '0') str start
  match checkDigits str (dval || allowErrors == 1) hex 0 (str.length + 1) ptr 0 with
  | .double ptr digits => processDouble conversions dval allowErrors str ptr digits
  | .stop ptr digits =>
      if hex then
        if digits < 16 ∨ (digits = 16 ∧ read str (ptr - digits) ≤ byte '7') then
          finishLong conversions dval allowErrors str ptr digits true
        else
          finishDouble dval allowErrors str (if dval then zendHexStrtodEnd str else ptr)
            (conversions.zendHexStrtod str) 1
      else if maxLengthOfLong ≤ digits then
        let oflow : Int := if read str 0 = byte '-' then -1 else 1
        finishDouble dval allowErrors str (if dval then zendStrtodEnd str else ptr)
          (conversions.zendStrtod str) oflow
      else
        finishLong conversions dval allowErrors str ptr digits false

/-- `is_numeric_string_ex` -/
def isNumericStringEx (text : List UInt8) : Numeric :=
  if text = [] then
    { type := .none, lval := none, dval := none, oflowInfo := none, notice := false }
  else
    let str := text.dropWhile isSpace
    let start := signLength str
    if isDigit (read str start) then
      scanNumber conversions dval allowErrors str
    else if read str start = byte '.' ∧ isDigit (read str (start + 1)) = true then
      processDouble conversions dval allowErrors str start 0
    else
      { type := .none, lval := none, dval := none, oflowInfo := some 0, notice := false }

end Scanner

end PhpRuntime.Operators
