import PhpRuntime.Foundation.CString
import PhpRuntime.Foundation.Integers
import PhpRuntime.Foundation.Positional

/-! # Validating integers

`php_filter_int` of `ext/filter/logical_filters.c`, with 64-bit longs. A pointer is the text
behind it, and `len` says how much of that text belongs to the number: what has been trimmed at
the end is still there.
-/

namespace PhpRuntime.Validation

open Decimal CString Integers Positional

/-! ## The digit loops -/

def ulongMax : Nat := 2 ^ 64 - 1

/-- What a parser returns: `-1`, or `1` without a store to `*ret`, or `1` with one. -/
inductive Parsed where
  | failed
  | kept
  | stored (ret : Int)
deriving DecidableEq

/-- What the caller has then, who starts with zero. -/
def Parsed.result : Parsed → Option Int
  | .failed => none
  | .kept => some 0
  | .stored ret => some ret

/-- The `while` loop of `php_filter_parse_int`. -/
def intLoop (sign : Bool) : Int → List UInt8 → Parsed
  | ctxValue, [] => .stored ctxValue
  | ctxValue, c :: rest =>
      if isDigit c then
        if sign = false ∧ ctxValue ≤ (longMax - digit c).tdiv 10 then
          intLoop sign (ctxValue * 10 + digit c) rest
        else if sign = true ∧ ctxValue ≥ (longMin + digit c).tdiv 10 then
          intLoop sign (ctxValue * 10 - digit c) rest
        else
          .failed
      else
        .failed

/-- `php_filter_parse_int` behind the sign. -/
def parseDigits (sign : Bool) (str : List UInt8) (strLen : Nat) : Parsed :=
  if read str 0 = byte '0' ∧ strLen = 1 then
    .kept
  else if 0 < strLen ∧ byte '1' ≤ read str 0 ∧ read str 0 ≤ byte '9' then
    let ctxValue := (if sign then -1 else 1) * (digit (read str 0) : Int)
    if strLen - 1 > maxLengthOfLong - 1 then
      .failed
    else
      intLoop sign ctxValue ((str.drop 1).take (strLen - 1))
  else
    .failed

def phpFilterParseInt (str : List UInt8) (strLen : Nat) : Parsed :=
  if read str 0 = byte '-' then
    parseDigits true (str.drop 1) (strLen - 1)
  else if read str 0 = byte '+' then
    parseDigits false (str.drop 1) (strLen - 1)
  else
    parseDigits false str strLen

/-- The loop of the unsigned parsers; a `digit` that is `none` ends it. -/
def unsignedLoop (base : Nat) (digit : UInt8 → Option Nat) : Nat → List UInt8 → Parsed
  | ctxValue, [] => .stored (long ctxValue)
  | ctxValue, c :: rest =>
      match digit c with
      | none => .failed
      | some n =>
          if ctxValue > ulongMax / base ∨ ctxValue * base % 2 ^ 64 > ulongMax - n then
            .failed
          else
            unsignedLoop base digit (ctxValue * base % 2 ^ 64 + n) rest

def octalDigit (c : UInt8) : Option Nat :=
  if byte '0' ≤ c ∧ c ≤ byte '7' then some (c.toNat - 48) else none

def phpFilterParseOctal (str : List UInt8) (strLen : Nat) : Parsed :=
  unsignedLoop 8 octalDigit 0 (str.take strLen)

def phpFilterParseHex (str : List UInt8) (strLen : Nat) : Parsed :=
  unsignedLoop 16 hexDigit 0 (str.take strLen)

/-! ## The filter -/

def filterFlagAllowOctal : Nat := 0x0001
def filterFlagAllowHex : Nat := 0x0002

/-- The options `min_range` and `max_range`, if they are set. -/
structure RangeOptions where
  minRange : Option Int := none
  maxRange : Option Int := none

def isBlank (c : UInt8) : Bool :=
  c == byte ' ' || c == byte '\t' || c == byte '\r' || c == 11 || c == byte '\n'

/-- `PHP_FILTER_TRIM_DEFAULT`: the pointer and the length, unless the text is empty. -/
def trimDefault (text : List UInt8) : Option (List UInt8 × Nat) :=
  let p := text.dropWhile isBlank
  if p.length < 1 then none else some (p, (p.reverse.dropWhile isBlank).length)

/-- The switch over the form of the number. -/
def parseForm (flags : Nat) (p : List UInt8) (len : Nat) : Parsed :=
  if read p 0 = byte '0' then
    let p := p.drop 1
    let len := len - 1
    if flags &&& filterFlagAllowHex ≠ 0 ∧ (read p 0 = byte 'x' ∨ read p 0 = byte 'X') then
      phpFilterParseHex (p.drop 1) (len - 1)
    else if flags &&& filterFlagAllowOctal ≠ 0 then
      phpFilterParseOctal p len
    else if len ≠ 0 then
      .failed
    else
      .kept
  else
    phpFilterParseInt p len

/-- `php_filter_int`; `none` is a failed validation. -/
def phpFilterInt (flags : Nat) (range : RangeOptions) (value : List UInt8) : Option Int :=
  if value.length = 0 then
    none
  else
    match trimDefault value with
    | none => none
    | some (p, len) =>
        match (parseForm flags p len).result with
        | none => none
        | some ctxValue =>
            if range.minRange.any (ctxValue < ·) || range.maxRange.any (ctxValue > ·) then none
            else some ctxValue

/-! ## The integers that are written -/

/-- Decimal digits without leading zeros. -/
def Plain (digits : List UInt8) : Prop :=
  isDigits digits = true ∧ (digits.head? = some (byte '0') → digits.length = 1)

/-- A decimal integer with an optional sign, and its value. -/
inductive Decimals : List UInt8 → Int → Prop where
  | unsigned {digits : List UInt8} (plain : Plain digits) : Decimals digits (value digits)
  | plus {digits : List UInt8} (plain : Plain digits) :
      Decimals (byte '+' :: digits) (value digits)
  | minus {digits : List UInt8} (plain : Plain digits) :
      Decimals (byte '-' :: digits) (-value digits)

def InLong (n : Int) : Prop := longMin ≤ n ∧ n ≤ longMax

instance (n : Int) : Decidable (InLong n) := inferInstanceAs (Decidable (_ ∧ _))

/-- The digits of a base, and the number that they write. -/
def Writes (base : Nat) (digit : UInt8 → Option Nat) (digits : List UInt8) (n : Nat) : Prop :=
  (∀ c ∈ digits, (digit c).isSome) ∧ number base (fun c => (digit c).getD 0) 0 digits = n

/-- The forms that are accepted under the flags, with their values as longs. -/
def Accepted (flags : Nat) (text : List UInt8) (result : Int) : Prop :=
  (Decimals text result ∧ InLong result)
  ∨ (flags &&& filterFlagAllowOctal ≠ 0 ∧ ∃ digits n, text = byte '0' :: digits
      ∧ Writes 8 octalDigit digits n ∧ n < 2 ^ 64 ∧ result = long n)
  ∨ (flags &&& filterFlagAllowHex ≠ 0 ∧ ∃ x digits n, (x = byte 'x' ∨ x = byte 'X')
      ∧ text = byte '0' :: x :: digits ∧ digits ≠ []
      ∧ Writes 16 hexDigit digits n ∧ n < 2 ^ 64 ∧ result = long n)

/-! ## Unsigned numbers -/

section Unsigned

variable {base : Nat} {digit : UInt8 → Option Nat} {text : List UInt8} {ctxValue : Nat}

theorem unsignedLoop_stored (valid : ∀ c n, digit c = some n → n < base) (bound : base ≤ ulongMax)
    (small : ctxValue < 2 ^ 64) {ret : Int} :
    unsignedLoop base digit ctxValue text = .stored ret ↔
      (∀ c ∈ text, (digit c).isSome)
      ∧ number base (fun c => (digit c).getD 0) ctxValue text < 2 ^ 64
      ∧ ret = long (number base (fun c => (digit c).getD 0) ctxValue text) := by
  induction text generalizing ctxValue with
  | nil =>
      rw [unsignedLoop, Parsed.stored.injEq, eq_comm]
      exact ⟨fun equal => ⟨nofun, small, equal⟩, fun all => all.2.2⟩
  | cons c rest induction =>
      cases known : digit c with
      | none =>
          rw [unsignedLoop, known]
          refine ⟨nofun, fun all => ?_⟩
          have isSome := all.1 c List.mem_cons_self
          rw [known] at isSome
          contradiction
      | some n =>
          have less := valid c n known
          have positive : 0 < base := by omega
          have next : number base (fun c => (digit c).getD 0) ctxValue (c :: rest)
              = number base (fun c => (digit c).getD 0) (ctxValue * base + n) rest := by
            rw [number_cons, known]
            rfl
          -- the two tests together find out whether the next value overflows
          have guard : (ctxValue > ulongMax / base ∨ ctxValue * base % 2 ^ 64 > ulongMax - n)
              ↔ 2 ^ 64 ≤ ctxValue * base + n := by
            rw [gt_iff_lt, Nat.div_lt_iff_lt_mul positive]
            simp only [ulongMax] at bound ⊢
            omega
          rw [next]
          simp only [unsignedLoop, known]
          split
          · next overflow =>
            refine ⟨nofun, fun all => ?_⟩
            have large := @le_number _ base (fun c => (digit c).getD 0) (ctxValue * base + n) rest
            have whole := Nat.le_mul_of_pos_right (ctxValue * base + n)
              (Nat.pow_pos (n := rest.length) positive)
            have passed := guard.mp overflow
            omega
          · next fits =>
            have inside := mt guard.mpr fits
            rw [Nat.mod_eq_of_lt (by omega), induction (by omega)]
            simp [known]

theorem unsignedLoop_ne_kept : unsignedLoop base digit ctxValue text ≠ .kept := by
  induction text generalizing ctxValue with
  | nil => nofun
  | cons c rest induction =>
      rw [unsignedLoop]
      split
      · nofun
      · split
        · nofun
        · exact induction

theorem unsignedLoop_result (valid : ∀ c n, digit c = some n → n < base)
    (bound : base ≤ ulongMax) {result : Int} :
    (unsignedLoop base digit 0 text).result = some result ↔
      ∃ n, Writes base digit text n ∧ n < 2 ^ 64 ∧ result = long n := by
  have stored := @unsignedLoop_stored base digit text 0 valid bound (by decide) result
  have returned : (unsignedLoop base digit 0 text).result = some result
      ↔ unsignedLoop base digit 0 text = .stored result := by
    have notKept := @unsignedLoop_ne_kept base digit text 0
    cases outcome : unsignedLoop base digit 0 text with
    | failed => simp [Parsed.result]
    | kept => exact absurd outcome notKept
    | stored ret => simp [Parsed.result]
  rw [returned, stored]
  constructor
  · exact fun ⟨digits, less, equal⟩ => ⟨_, ⟨digits, rfl⟩, less, equal⟩
  · rintro ⟨_, ⟨digits, rfl⟩, less, equal⟩
    exact ⟨digits, less, equal⟩

theorem octalDigit_lt (c : UInt8) (n : Nat) (known : octalDigit c = some n) : n < 8 := by
  simp only [octalDigit, Option.ite_none_right_eq_some, Option.some.injEq,
    UInt8.le_iff_toNat_le] at known
  have upper : c.toNat ≤ 55 := known.1.2
  omega

theorem hexDigit_lt (c : UInt8) (n : Nat) (known : hexDigit c = some n) : n < 16 := by
  simp only [hexDigit, UInt8.le_iff_toNat_le] at known
  split_ifs at known with decimal lower upper
  · have bound : c.toNat ≤ 57 := decimal.2
    cases known
    omega
  · have bound : c.toNat ≤ 102 := lower.2
    cases known
    omega
  · have bound : c.toNat ≤ 70 := upper.2
    cases known
    omega

end Unsigned

/-! ## Decimal integers -/

section Signed

variable {sign : Bool} {read : Nat} {text digits : List UInt8} {ret : Int}

def signed (sign : Bool) (n : Nat) : Int := if sign then -n else n

/-- The tests in front of a step, which divide towards zero, find out whether it overflows. -/
theorem guard_iff {d : Nat} (small : d < 10) (sign : Bool) :
    InLong (signed sign (read * 10 + d)) ↔
      if sign then signed sign read ≥ (longMin + d).tdiv 10
      else signed sign read ≤ (longMax - d).tdiv 10 := by
  cases sign with
  | false =>
      have quotient : (longMax - d).tdiv 10 = (longMax - d) / 10 :=
        Int.tdiv_eq_ediv_of_nonneg (by simp only [longMax]; omega)
      rw [if_neg Bool.false_ne_true, quotient]
      simp only [InLong, signed, Bool.false_eq_true, if_false, longMin, longMax]
      omega
  | true =>
      have quotient : (longMin + d).tdiv 10 = -((2 ^ 63 - d : Int) / 10) := by
        rw [show longMin + (d : Int) = -(2 ^ 63 - d) by simp only [longMin]; omega, Int.neg_tdiv,
          Int.tdiv_eq_ediv_of_nonneg (by omega)]
      rw [if_pos rfl, quotient]
      simp only [InLong, signed, if_true, longMin, longMax]
      omega

theorem signed_step {d : Nat} (sign : Bool) :
    signed sign (read * 10 + d) = if sign then signed sign read * 10 - d
      else signed sign read * 10 + d := by
  cases sign <;> simp only [signed, if_true, if_false, Bool.false_eq_true] <;> omega

theorem le_valueFrom (read : Nat) (text : List UInt8) : read ≤ valueFrom read text := by
  have bound : read * 10 ^ text.length ≤ valueFrom read text := le_number read text
  exact Nat.le_trans (Nat.le_mul_of_pos_right _ (Nat.pow_pos (by decide))) bound

theorem InLong.of_le {n m : Nat} (less : n ≤ m) (inside : InLong (signed sign m)) :
    InLong (signed sign n) := by
  cases sign <;> simp only [InLong, signed, longMin, longMax, if_true, if_false,
    Bool.false_eq_true] at inside ⊢ <;> omega

theorem intLoop_result :
    (intLoop sign (signed sign read) text).result = some ret ∧ InLong (signed sign read) ↔
      (∀ c ∈ text, isDigit c = true) ∧ InLong (signed sign (valueFrom read text))
      ∧ ret = signed sign (valueFrom read text) := by
  induction text generalizing read with
  | nil =>
      rw [intLoop, Parsed.result, Option.some.injEq, valueFrom_nil, eq_comm]
      exact ⟨fun both => ⟨nofun, both.2, both.1⟩, fun all => ⟨all.2.2, all.2.1⟩⟩
  | cons c rest induction =>
      rw [intLoop]
      by_cases isDigit : isDigit c = true
      · have later := @induction (read * 10 + digit c)
        have guard := @guard_iff read _ (digit_lt isDigit) sign
        have step := @signed_step read (digit c) sign
        rw [if_pos isDigit, valueFrom_cons, List.forall_mem_cons]
        by_cases fits : InLong (signed sign (read * 10 + digit c))
        · have before := fits.of_le (show read ≤ read * 10 + digit c by omega)
          have taken := guard.mp fits
          rw [and_iff_left fits] at later
          rw [and_iff_left before, and_iff_right isDigit, ← later]
          cases sign with
          | false => rw [if_pos ⟨rfl, taken⟩, step]; rfl
          | true => rw [if_neg (by simp), if_pos ⟨rfl, taken⟩, step]; rfl
        · have stops := mt guard.mpr fits
          constructor
          · intro both
            cases sign with
            | false =>
                rw [if_neg (fun test => stops test.2), if_neg (by simp)] at both
                exact absurd both.1 (by simp [Parsed.result])
            | true =>
                rw [if_neg (by simp), if_neg (fun test => stops test.2)] at both
                exact absurd both.1 (by simp [Parsed.result])
          · exact fun all => absurd (all.2.1.of_le (le_valueFrom _ _)) fits
      · rw [if_neg isDigit, List.forall_mem_cons]
        exact ⟨fun both => absurd both.1 (by simp [Parsed.result]),
          fun all => absurd all.1.1 isDigit⟩

theorem not_plain_nil : ¬Plain [] := fun plain => absurd plain.1 (by decide)

theorem plain_cons {c : UInt8} : Plain (c :: digits) ↔ isDigit c = true
    ∧ (∀ d ∈ digits, isDigit d = true) ∧ (c = byte '0' → digits = []) := by
  simp [Plain, isDigits_iff, and_assoc]

theorem parseDigits_result :
    (parseDigits sign digits digits.length).result = some ret ↔
      Plain digits ∧ InLong (signed sign (value digits)) ∧ ret = signed sign (value digits) := by
  cases digits with
  | nil => simp [parseDigits, Parsed.result, Plain, isDigits]
  | cons c rest =>
      rw [parseDigits, value_cons, plain_cons]
      simp only [CString.read, List.getD_cons_zero, List.drop_succ_cons, List.drop_zero,
        List.length_cons, Nat.add_sub_cancel, List.take_length]
      by_cases zero : c = byte '0'
      · subst zero
        by_cases alone : rest = []
        · subst alone
          have none : signed sign (valueFrom (digit (byte '0')) []) = 0 := by cases sign <;> rfl
          rw [if_pos ⟨rfl, rfl⟩, none]
          refine ⟨fun equal => ⟨⟨rfl, by simp, fun _ => rfl⟩, by decide, ?_⟩, fun all => ?_⟩
          · exact (Option.some.inj equal).symm
          · rw [all.2.2]
            rfl
        · rw [if_neg (fun both => alone (List.length_eq_zero_iff.mp (by omega))),
            if_neg (fun all => absurd all.2.1 (by decide))]
          simp [Parsed.result, alone]
      · rw [if_neg (fun both => zero both.1)]
        by_cases isDigit : isDigit c = true
        · have range := isDigit_iff.mp isDigit
          have positive : 1 ≤ digit c := digit_pos isDigit zero
          have lower : byte '1' ≤ c := by
            rw [digit] at positive
            exact UInt8.le_iff_toNat_le.mpr (show 49 ≤ c.toNat by omega)
          have upper : c ≤ byte '9' := UInt8.le_iff_toNat_le.mpr range.2
          have start : (if sign then -1 else 1) * (digit c : Int) = signed sign (digit c) := by
            cases sign <;> simp [signed]
          have inside : InLong (signed sign (digit c)) := by
            have less := digit_lt isDigit
            cases sign <;> simp only [InLong, signed, longMin, longMax, if_true, if_false,
              Bool.false_eq_true] <;> omega
          have loop := @intLoop_result sign (digit c) rest ret
          rw [and_iff_left inside] at loop
          rw [if_pos ⟨Nat.succ_pos _, lower, upper⟩, start]
          split
          · next long =>
            refine ⟨fun failed => absurd failed (by simp [Parsed.result]), fun all => ?_⟩
            -- so many digits are more than a long can hold
            have large : digit c * 10 ^ rest.length ≤ valueFrom (digit c) rest := le_number _ _
            have power : 10 ^ 20 ≤ 10 ^ rest.length := Nat.pow_le_pow_right (by decide) long
            have huge := Nat.mul_le_mul positive power
            have bounds := all.2.1.of_le (Nat.le_trans huge large)
            cases sign <;> simp [InLong, signed, longMin, longMax] at bounds
          · rw [loop]
            simp [isDigit, zero]
        · rw [if_neg]
          · simp [Parsed.result, isDigit]
          · rintro ⟨_, lower, upper⟩
            apply isDigit
            have least := UInt8.le_iff_toNat_le.mp lower
            have most := UInt8.le_iff_toNat_le.mp upper
            exact isDigit_iff.mpr ⟨Nat.le_trans (by decide) least, most⟩

theorem Plain.isDigit_head {c : UInt8} (plain : Plain (c :: digits)) : isDigit c = true :=
  (plain_cons.mp plain).1

theorem phpFilterParseInt_result :
    (phpFilterParseInt text text.length).result = some ret ↔ Decimals text ret ∧ InLong ret := by
  cases text with
  | nil =>
      rw [phpFilterParseInt, if_neg (by decide), if_neg (by decide), parseDigits_result]
      refine ⟨fun all => absurd all.1 not_plain_nil, fun both => ?_⟩
      cases both.1 with
      | unsigned plain => exact absurd plain not_plain_nil
  | cons c rest =>
      simp only [phpFilterParseInt, CString.read, List.getD_cons_zero, List.drop_succ_cons,
        List.drop_zero, List.length_cons, Nat.add_sub_cancel]
      split_ifs with minus plus
      · subst minus
        rw [parseDigits_result]
        refine ⟨fun ⟨plain, inside, equal⟩ => equal ▸ ⟨.minus plain, inside⟩, fun both => ?_⟩
        rcases both with ⟨_ | _ | plain, inside⟩
        · next plain => exact absurd plain.isDigit_head (by decide)
        · exact ⟨plain, inside, rfl⟩
      · subst plus
        rw [parseDigits_result]
        refine ⟨fun ⟨plain, inside, equal⟩ => equal ▸ ⟨.plus plain, inside⟩, fun both => ?_⟩
        rcases both with ⟨_ | plain | _, inside⟩
        · next plain => exact absurd plain.isDigit_head (by decide)
        · exact ⟨plain, inside, rfl⟩
      · rw [← List.length_cons, parseDigits_result]
        refine ⟨fun ⟨plain, inside, equal⟩ => equal ▸ ⟨.unsigned plain, inside⟩, fun both => ?_⟩
        rcases both with ⟨plain | _ | _, inside⟩
        · exact ⟨plain, inside, rfl⟩
        · exact absurd rfl plus
        · exact absurd rfl minus

/-- A decimal integer that starts with a zero is zero. -/
theorem decimals_zero_cons : Decimals (byte '0' :: text) ret ↔ text = [] ∧ ret = 0 := by
  constructor
  · rintro (plain | _ | _)
    obtain rfl := (plain_cons.mp plain).2.2 rfl
    exact ⟨rfl, rfl⟩
  · rintro ⟨rfl, rfl⟩
    exact .unsigned ⟨rfl, fun _ => rfl⟩

end Signed

/-! ## All forms -/

section Forms

variable {flags : Nat} {text : List UInt8} {result : Int}

theorem parseForm_hex (hex : flags &&& filterFlagAllowHex ≠ 0) {x : UInt8}
    (isX : x = byte 'x' ∨ x = byte 'X') (some_ : text ≠ []) :
    (parseForm flags (byte '0' :: x :: text) (text.length + 2)).result = some result ↔
      Accepted flags (byte '0' :: x :: text) result := by
  have octal : octalDigit x = none := by rcases isX with rfl | rfl <;> rfl
  have zero : read (byte '0' :: x :: text) 0 = byte '0' := rfl
  rw [parseForm, if_pos zero]
  simp only [CString.read, List.drop_succ_cons, List.drop_zero, List.getD_cons_zero]
  rw [if_pos ⟨hex, isX⟩, phpFilterParseHex, show text.length + 2 - 1 - 1 = text.length by omega,
    List.take_length, unsignedLoop_result hexDigit_lt (by decide)]
  constructor
  · exact fun ⟨n, written, less, equal⟩ =>
      .inr (.inr ⟨hex, x, text, n, isX, rfl, some_, written, less, equal⟩)
  · rintro (⟨decimals, _⟩ | ⟨_, digits, n, equal, written, _⟩ |
      ⟨_, y, digits, n, _, equal, _, written, less, value⟩)
    · exact absurd (decimals_zero_cons.mp decimals).1 (List.cons_ne_nil _ _)
    · cases equal
      have isOctal := written.1 x List.mem_cons_self
      rw [octal] at isOctal
      contradiction
    · cases equal
      exact ⟨n, written, less, value⟩

theorem parseForm_octal (notHex : flags &&& filterFlagAllowHex ≠ 0 →
      read text 0 ≠ byte 'x' ∧ read text 0 ≠ byte 'X') :
    (parseForm flags (byte '0' :: text) (text.length + 1)).result = some result ↔
      Accepted flags (byte '0' :: text) result := by
  have zero : read (byte '0' :: text) 0 = byte '0' := rfl
  rw [parseForm, if_pos zero]
  simp only [List.drop_succ_cons, List.drop_zero, Nat.add_sub_cancel]
  rw [if_neg (fun both => both.2.elim (notHex both.1).1 (notHex both.1).2)]
  have forms : Accepted flags (byte '0' :: text) result ↔ (text = [] ∧ result = 0)
      ∨ (flags &&& filterFlagAllowOctal ≠ 0 ∧ ∃ n, Writes 8 octalDigit text n ∧ n < 2 ^ 64
        ∧ result = long n) := by
    constructor
    · rintro (⟨decimals, _⟩ | ⟨octal, digits, n, equal, spec⟩ |
        ⟨hex, x, digits, n, isX, equal, _⟩)
      · exact .inl (decimals_zero_cons.mp decimals)
      · cases equal
        exact .inr ⟨octal, n, spec⟩
      · cases equal
        exact isX.elim (fun isX => absurd isX (notHex hex).1) fun isX => absurd isX (notHex hex).2
    · rintro (both | ⟨octal, n, spec⟩)
      · exact .inl ⟨decimals_zero_cons.mpr both, by rw [both.2]; decide⟩
      · exact .inr (.inl ⟨octal, text, n, rfl, spec⟩)
  rw [forms]
  split_ifs with octal some_
  · rw [phpFilterParseOctal, List.take_length, unsignedLoop_result octalDigit_lt (by decide)]
    refine ⟨fun known => .inr ⟨octal, known⟩, ?_⟩
    rintro (⟨rfl, rfl⟩ | ⟨_, known⟩)
    · exact ⟨0, ⟨nofun, rfl⟩, by decide, rfl⟩
    · exact known
  · refine ⟨nofun, ?_⟩
    rintro (⟨rfl, rfl⟩ | ⟨allowed, _⟩)
    · exact absurd rfl some_
    · exact absurd allowed octal
  · have empty : text = [] := List.length_eq_zero_iff.mp (by omega)
    refine ⟨fun equal => .inl ⟨empty, (Option.some.inj equal).symm⟩, ?_⟩
    rintro (⟨_, rfl⟩ | ⟨allowed, _⟩)
    · rfl
    · exact absurd allowed octal

theorem phpFilterInt_eq {flags : Nat} {text : List UInt8}
    (trimmed : trimDefault text = some (text, text.length)) :
    phpFilterInt flags {} text = (parseForm flags text text.length).result := by
  have nonempty : text.length ≠ 0 := by
    intro empty
    rw [List.length_eq_zero_iff.mp empty] at trimmed
    contradiction
  rw [phpFilterInt, if_neg nonempty, trimmed]
  dsimp only
  cases (parseForm flags text text.length).result with
  | none => rfl
  | some ctxValue => rfl

/-- Apart from `0x` without digits, exactly the integers that the flags allow are accepted. -/
theorem phpFilterInt_accepts (trimmed : trimDefault text = some (text, text.length))
    (digits : flags &&& filterFlagAllowHex ≠ 0 →
      text ≠ [byte '0', byte 'x'] ∧ text ≠ [byte '0', byte 'X']) :
    phpFilterInt flags {} text = some result ↔ Accepted flags text result := by
  rw [phpFilterInt_eq trimmed]
  by_cases zero : read text 0 = byte '0'
  · obtain ⟨rest, rfl⟩ : ∃ rest, text = byte '0' :: rest := by
      cases text with
      | nil => contradiction
      | cons c rest => exact ⟨rest, congrArg (· :: rest) zero⟩
    by_cases form : flags &&& filterFlagAllowHex ≠ 0 ∧
        (read rest 0 = byte 'x' ∨ read rest 0 = byte 'X')
    · obtain ⟨x, more, rfl⟩ : ∃ x more, rest = x :: more := by
        cases rest with
        | nil => exact absurd form.2 (by decide)
        | cons x more => exact ⟨x, more, rfl⟩
      apply parseForm_hex form.1 form.2
      rintro rfl
      rcases form.2 with isX | isX
      · exact (digits form.1).1 (congrArg (fun x => [byte '0', x]) isX)
      · exact (digits form.1).2 (congrArg (fun x => [byte '0', x]) isX)
    · exact parseForm_octal fun hex => not_or.mp fun isX => form ⟨hex, isX⟩
  · rw [parseForm, if_neg zero, phpFilterParseInt_result]
    refine ⟨.inl, ?_⟩
    rintro (decimals | ⟨_, digits, n, rfl, _⟩ | ⟨_, x, digits, n, _, rfl, _⟩)
    · exact decimals
    · exact absurd rfl zero
    · exact absurd rfl zero

/-- `0x` is accepted as zero wherever hexadecimal numbers are allowed. -/
theorem phpFilterInt_zero_x (hex : flags &&& filterFlagAllowHex ≠ 0) {x : UInt8}
    (isX : x = byte 'x' ∨ x = byte 'X') :
    phpFilterInt flags {} [byte '0', x] = some 0 ∧ ¬Accepted flags [byte '0', x] 0 := by
  constructor
  · have trimmed : trimDefault [byte '0', x] = some ([byte '0', x], 2) := by
      rcases isX with rfl | rfl <;> decide
    have zero : read [byte '0', x] 0 = byte '0' := rfl
    rw [phpFilterInt_eq trimmed, parseForm, if_pos zero]
    simp only [CString.read, List.drop_succ_cons, List.drop_zero, List.getD_cons_zero]
    rw [if_pos ⟨hex, isX⟩]
    rfl
  · rintro (⟨decimals, _⟩ | ⟨_, digits, n, equal, written, _⟩ |
      ⟨_, y, digits, n, _, equal, some_, _⟩)
    · exact absurd (decimals_zero_cons.mp decimals).1 (List.cons_ne_nil _ _)
    · cases equal
      have isOctal := written.1 x List.mem_cons_self
      rcases isX with rfl | rfl <;> exact absurd isOctal (by decide)
    · cases equal
      exact some_ rfl

/-- Exactly the integers that the flags allow are accepted, unless hexadecimal numbers are
allowed and the text is `0x` without digits. -/
theorem phpFilterInt_accepts_iff (trimmed : trimDefault text = some (text, text.length)) :
    (∀ result, phpFilterInt flags {} text = some result ↔ Accepted flags text result) ↔
      (flags &&& filterFlagAllowHex ≠ 0 →
        text ≠ [byte '0', byte 'x'] ∧ text ≠ [byte '0', byte 'X']) := by
  constructor
  · intro agrees hex
    constructor
    · rintro rfl
      rcases phpFilterInt_zero_x hex (.inl rfl) with ⟨accepted, notMeant⟩
      exact notMeant ((agrees 0).mp accepted)
    · rintro rfl
      rcases phpFilterInt_zero_x hex (.inr rfl) with ⟨accepted, notMeant⟩
      exact notMeant ((agrees 0).mp accepted)
  · exact fun digits result => phpFilterInt_accepts trimmed digits

theorem phpFilterInt_accepts_iff_hex :
    let text := [byte '0', byte 'x', byte 'F']
    trimDefault text = some (text, 3) ∧
      ∀ result, phpFilterInt filterFlagAllowHex {} text = some result ↔
        Accepted filterFlagAllowHex text result :=
  ⟨by decide, (phpFilterInt_accepts_iff (by decide)).mpr (by decide)⟩

theorem phpFilterInt_bare_hex :
    let text := [byte '0', byte 'x']
    trimDefault text = some (text, text.length)
    ∧ phpFilterInt filterFlagAllowHex {} text = some 0
    ∧ ¬Accepted filterFlagAllowHex text 0 :=
  ⟨by decide, phpFilterInt_zero_x (by decide) (.inl rfl)⟩

end Forms

end PhpRuntime.Validation
