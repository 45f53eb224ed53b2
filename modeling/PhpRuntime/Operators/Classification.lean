import PhpRuntime.Operators.Numerals
import PhpRuntime.Foundation.Positional

/-! # Classifying numeric strings

What `is_numeric_string_ex` returns for the forms of numbers. The type and the value are the
ones of the form; the overflow information is also set for other texts with many digits.
-/

namespace PhpRuntime.Operators

open Decimal CString Positional

/-! ## What is to be returned -/

/-- The part of the text behind whitespace. -/
def BehindSpace (text body : List UInt8) : Prop :=
  ∃ space, (∀ c ∈ space, isSpace c = true) ∧ text = space ++ body

def InRange (number : Int) : Prop := -2 ^ 63 ≤ number ∧ number < 2 ^ 63

/-- The text is an integer. -/
def Denotes (text : List UInt8) (number : Int) : Prop :=
  ∃ body, BehindSpace text body ∧ (IsDecimal body number ∨ IsHex body number)

/-- The results are those of the form of the text. -/
structure Classified (text : List UInt8) (result : Numeric) : Prop where
  long : ∀ number, result.type = .long ∧ result.lval.map BitVec.toInt = some number ↔
    Denotes text number ∧ InRange number
  double : result.type = .double ↔
    (∃ number, Denotes text number ∧ ¬ InRange number) ∨
      ∃ body, BehindSpace text body ∧ IsFloating body
  none : result.type = .none ↔ ¬ (∃ number, Denotes text number) ∧
    ¬ ∃ body, BehindSpace text body ∧ IsFloating body
  overflow : result.oflowInfo = some 1 ↔
    ∃ body number, BehindSpace text body ∧ IsDecimal body number ∧ 2 ^ 63 ≤ number
  underflow : result.oflowInfo = some (-1) ↔
    ∃ body number, BehindSpace text body ∧ IsDecimal body number ∧ number < -2 ^ 63

/-- A hexadecimal number that is too large, with anything behind it. -/
def HexTooLarge (body : List UInt8) : Prop :=
  ∃ x rest, (x = byte 'x' ∨ x = byte 'X') ∧ body = byte '0' :: x :: rest ∧
    2 ^ 63 ≤ hexValue (rest.takeWhile isXdigit)

/-- The digits that are counted: those in front of the point, and without `dval` all of them. -/
def countedDigits (dval : Bool) (int fraction exponent : List UInt8) : Nat :=
  (int.dropWhile (· == byte '0')).length +
    if dval then 0 else fraction.length + exponentCount exponent

/-- Too many digits for a `long`, in a text that is no integer. -/
def LongNumeral (dval : Bool) (body : List UInt8) : Prop :=
  ∃ sign int point fraction exponent junk, IsSignText sign ∧
    Parts int point fraction exponent junk ∧ (int ≠ [] ∨ fraction ≠ []) ∧
    body = sign ++ (int ++ (point ++ (fraction ++ (exponent ++ junk)))) ∧
    point ++ (fraction ++ (exponent ++ junk)) ≠ [] ∧
    maxLengthOfLong ≤ countedDigits dval int fraction exponent

/-! ## Values -/

theorem isXdigit_iff {c : UInt8} : isXdigit c = true ↔
    (48 ≤ c.toNat ∧ c.toNat ≤ 57) ∨ (97 ≤ c.toNat ∧ c.toNat ≤ 102) ∨
      (65 ≤ c.toNat ∧ c.toNat ≤ 70) := by
  simp only [isXdigit, Bool.or_eq_true, isDigit_iff, Bool.and_eq_true, decide_eq_true_eq,
    UInt8.le_iff_toNat_le, or_assoc]
  exact Iff.rfl

theorem xdigit_eq (c : UInt8) :
    xdigit c = if 48 ≤ c.toNat ∧ c.toNat ≤ 57 then c.toNat - 48
      else if 97 ≤ c.toNat then c.toNat - 87 else c.toNat - 55 := by
  simp only [xdigit, isDigit_iff, UInt8.le_iff_toNat_le, digit]
  rfl

theorem xdigit_lt {c : UInt8} (isX : isXdigit c = true) : xdigit c < 16 := by
  rw [xdigit_eq]
  have ranges := isXdigit_iff.mp isX
  split_ifs <;> omega

theorem xdigit_le_seven_iff {c : UInt8} (isX : isXdigit c = true) :
    c ≤ byte '7' ↔ xdigit c ≤ 7 := by
  have ranges := isXdigit_iff.mp isX
  have seven : c ≤ byte '7' ↔ c.toNat ≤ 55 := UInt8.le_iff_toNat_le
  rw [xdigit_eq, seven]
  split_ifs <;> omega

theorem xdigit_pos {c : UInt8} (isX : isXdigit c = true) (leading : c ≠ byte '0') :
    0 < xdigit c := by
  have ranges := isXdigit_iff.mp isX
  have different : c.toNat ≠ 48 := fun equal => leading (UInt8.toNat_inj.mp equal)
  rw [xdigit_eq]
  split_ifs <;> omega

theorem compare_digit {c d : UInt8} (left : isDigit c = true) (right : isDigit d = true) :
    (c < d ↔ digit c < digit d) ∧ (digit c = digit d → c = d) := by
  have leftRange := isDigit_iff.mp left
  have rightRange := isDigit_iff.mp right
  rw [UInt8.lt_iff_toNat_lt, digit, digit]
  refine ⟨by omega, fun equal => UInt8.toNat_inj.mp ?_⟩
  omega

/-- Digits of the same number compare like the numbers that they write. -/
theorem strcmp_eq {left right : List UInt8} (same : left.length = right.length)
    (leftDigits : ∀ c ∈ left, isDigit c = true) (rightDigits : ∀ c ∈ right, isDigit c = true)
    (read : Nat) :
    strcmp left right = compare (number 10 digit read left) (number 10 digit read right) := by
  induction left generalizing right read with
  | nil =>
      cases right with
      | nil => simp [strcmp, number]
      | cons d right => cases same
  | cons c left induction =>
      cases right with
      | nil => cases same
      | cons d right =>
          have lengths := Nat.succ.inj same
          have first := compare_digit (leftDigits c List.mem_cons_self)
            (rightDigits d List.mem_cons_self)
          have leftSmall : ∀ e ∈ left, digit e < 10 := fun e member =>
            digit_lt (leftDigits e (List.mem_cons_of_mem _ member))
          have rightSmall : ∀ e ∈ right, digit e < 10 := fun e member =>
            digit_lt (rightDigits e (List.mem_cons_of_mem _ member))
          rw [strcmp]
          by_cases equal : c = d
          · rw [if_pos equal]
            subst equal
            exact induction lengths (fun e member => leftDigits e (List.mem_cons_of_mem _ member))
              (fun e member => rightDigits e (List.mem_cons_of_mem _ member)) _
          · rw [if_neg equal]
            rcases Nat.lt_or_gt_of_ne (fun same => equal (first.2 same)) with less | greater
            · rw [if_pos (first.1.mpr less),
                compare_lt_iff_lt.mpr (number_lt_number lengths less leftSmall read)]
            · rw [if_neg (mt first.1.mp (Nat.lt_asymm greater)),
                compare_gt_iff_gt.mpr (number_lt_number lengths.symm greater rightSmall read)]

section Significant

variable {digits : List UInt8}

/-- Leading zeros do not count. -/
theorem value_significant (digits : List UInt8) :
    value (digits.dropWhile (· == byte '0')) = value digits :=
  number_dropWhile (fun c isZero => by rw [beq_iff_eq.mp isZero]; rfl) digits

theorem hexValue_significant (digits : List UInt8) :
    hexValue (digits.dropWhile (· == byte '0')) = hexValue digits :=
  number_dropWhile (fun c isZero => by rw [beq_iff_eq.mp isZero]; rfl) digits

theorem head_significant {c : UInt8} {rest : List UInt8}
    (split : digits.dropWhile (· == byte '0') = c :: rest) : c ≠ byte '0' := by
  have stopped := List.head?_dropWhile_not (· == byte '0') digits
  rw [split] at stopped
  simpa using stopped

theorem mem_significant {c : UInt8} (member : c ∈ digits.dropWhile (· == byte '0')) :
    c ∈ digits := (List.dropWhile_sublist _).subset member

/-- With 20 digits or more a number is out of range, with 18 or less it is not. -/
theorem value_bounds (areDigits : ∀ c ∈ digits, isDigit c = true) :
    (20 ≤ (digits.dropWhile (· == byte '0')).length → 2 ^ 63 < value digits) ∧
      ((digits.dropWhile (· == byte '0')).length ≤ 18 → value digits < 2 ^ 63) := by
  have upper := value_lt fun c member => areDigits c (mem_significant member)
  rw [value_significant] at upper
  constructor
  · intro long
    cases split : digits.dropWhile (· == byte '0') with
    | nil =>
        rw [split] at long
        cases long
    | cons c rest =>
        rw [split, List.length_cons] at long
        have isDigit := areDigits c (mem_significant (by rw [split]; exact List.mem_cons_self))
        have positive := digit_pos isDigit (head_significant split)
        calc
          2 ^ 63 < 1 * 10 ^ 19 := by decide
          _ ≤ digit c * 10 ^ rest.length :=
            Nat.mul_le_mul positive (Nat.pow_le_pow_right (by decide) (by omega))
          _ ≤ number 10 digit 0 (c :: rest) := digit_mul_le_number c rest
          _ = value digits := by
            rw [← split]
            exact value_significant digits
  · intro short
    calc
      value digits < 10 ^ (digits.dropWhile (· == byte '0')).length := upper
      _ ≤ 10 ^ 18 := Nat.pow_le_pow_right (by decide) short
      _ < 2 ^ 63 := by decide

/-- The tests on a hexadecimal number decide whether it fits. -/
theorem hex_fits (areDigits : ∀ c ∈ digits, isXdigit c = true) :
    ((digits.dropWhile (· == byte '0')).length < 16 ∨
      ((digits.dropWhile (· == byte '0')).length = 16 ∧
        read (digits.dropWhile (· == byte '0')) 0 ≤ byte '7')) ↔ hexValue digits < 2 ^ 63 := by
  have upper := @number_lt _ 16 xdigit (digits.dropWhile (· == byte '0'))
    (fun c member => xdigit_lt (areDigits c (mem_significant member))) 0
  change hexValue (digits.dropWhile (· == byte '0')) < _ at upper
  rw [hexValue_significant, Nat.zero_add, Nat.one_mul] at upper
  cases split : digits.dropWhile (· == byte '0') with
  | nil =>
      rw [split] at upper
      simp only [List.length_nil, pow_zero] at upper
      simp only [List.length_nil, Nat.reduceLT, true_or, true_iff]
      omega
  | cons c rest =>
      have isX := areDigits c (mem_significant (by rw [split]; exact List.mem_cons_self))
      have positive := xdigit_pos isX (head_significant split)
      have small := xdigit_lt isX
      have equal : hexValue digits = number 16 xdigit 0 (c :: rest) := by
        rw [← hexValue_significant, split]
        rfl
      have lower := @digit_mul_le_number _ 16 xdigit c rest
      have within := @number_lt _ 16 xdigit rest (fun d member =>
        xdigit_lt (areDigits d (mem_significant (by
          rw [split]
          exact List.mem_cons_of_mem _ member)))) (xdigit c)
      have first : number 16 xdigit 0 (c :: rest) = number 16 xdigit (xdigit c) rest := by
        rw [number_cons, Nat.zero_mul, Nat.zero_add]
      have head : read (c :: rest) 0 = c := rfl
      rw [head, xdigit_le_seven_iff isX, List.length_cons, equal]
      rw [first] at lower ⊢
      generalize number 16 xdigit (xdigit c) rest = total at lower within
      rcases Nat.lt_trichotomy rest.length 15 with less | exact | more
      · have power : 16 ^ rest.length ≤ 16 ^ 14 := Nat.pow_le_pow_right (by decide) (by omega)
        have bound : (xdigit c + 1) * 16 ^ rest.length ≤ 16 * 16 ^ 14 :=
          Nat.mul_le_mul (by omega) power
        constructor
        · intro _
          omega
        · intro _
          omega
      · rw [exact] at lower within ⊢
        constructor
        · intro fits
          omega
        · intro fits
          omega
      · have power : 16 ^ 16 ≤ 16 ^ rest.length := Nat.pow_le_pow_right (by decide) (by omega)
        have bound : 1 * 16 ^ 16 ≤ xdigit c * 16 ^ rest.length := Nat.mul_le_mul positive power
        constructor
        · intro fits
          omega
        · intro fits
          omega

end Significant

/-! ## Results -/

section Results

variable {conversions : Conversions} {dval : Bool}

/-- What `oflow_info` is set to by a sign. -/
def oflowOf (sign : List UInt8) : Int := if sign = [byte '-'] then -1 else 1

/-- The text behind the sign starts with a digit or a point. -/
theorem sign_facts {sign rest : List UInt8} (isSignText : IsSignText sign)
    (starts : isDigit (read rest 0) = true ∨ read rest 0 = byte '.') :
    signLength (sign ++ rest) = sign.length ∧
      (read (sign ++ rest) 0 = byte '-' ↔ sign = [byte '-']) := by
  rcases isSignText with rfl | rfl | rfl
  · rw [List.nil_append]
    have noSign : isSign (read rest 0) = false := by
      cases starts with
      | inl digit => exact isSign_of_digit digit
      | inr point =>
          rw [point]
          decide
    have noMinus : read rest 0 ≠ byte '-' := by
      intro minus
      rw [minus] at noSign
      exact absurd noSign (by decide)
    rw [signLength, noSign]
    exact ⟨rfl, by simp [noMinus]⟩
  · exact ⟨rfl, by simp [CString.read]⟩
  · exact ⟨rfl, by simp [CString.read]⟩

theorem oflow_eq {sign rest : List UInt8} (minus : read (sign ++ rest) 0 = byte '-' ↔
    sign = [byte '-']) :
    (if read (sign ++ rest) 0 = byte '-' then (-1 : Int) else 1) = oflowOf sign := by
  simp only [oflowOf, minus]

theorem finishDouble_type {str : List UInt8} {ptr : Nat} {localDval : UInt64} {oflow : Int} :
    ((finishDouble dval 0 str ptr localDval oflow).type = if ptr = str.length then .double
      else .none) ∧ (finishDouble dval 0 str ptr localDval oflow).oflowInfo = some oflow := by
  rw [finishDouble, finish]
  split_ifs with outside inside <;> simp_all

theorem finishLong_junk {str : List UInt8} {ptr digits : Nat} {hex : Bool}
    (inside : ptr < str.length) :
    (finishLong conversions dval 0 str ptr digits hex).type = .none ∧
      (finishLong conversions dval 0 str ptr digits hex).oflowInfo = some 0 := by
  rw [finishLong, finish, if_pos (Nat.ne_of_lt inside)]
  exact ⟨rfl, rfl⟩

/-- What is behind the digits of a text that is no integer. -/
inductive Tail (point fraction exponent junk : List UInt8) : Prop
  | point (isPoint : point = [byte '.'])
  | exponent (noPoint : point = []) (noFraction : fraction = [])
      (isExponentText : IsExponentText exponent) (ends : Ends isDigit junk)
  | junk (noPoint : point = []) (noFraction : fraction = []) (noExponent : exponent = [])
      (noStart : ¬ StartsExponent junk) (noPointHead : junk.head? ≠ some (byte '.'))

theorem Parts.tail {int point fraction exponent junk : List UInt8}
    (parts : Parts int point fraction exponent junk) : Tail point fraction exponent junk := by
  cases parts.point_cases with
  | inl isPoint => exact .point isPoint
  | inr noPoint =>
      rcases noPoint with ⟨noPoint, noFraction⟩
      cases parts.exponent_cases with
      | inl empty =>
          have head := parts.no_point noPoint
          rw [empty, List.nil_append] at head
          exact .junk noPoint noFraction empty (parts.no_exponent empty) head
      | inr isExponentText =>
          apply Tail.exponent noPoint noFraction isExponentText
          apply parts.exponent_ends
          rcases isExponentText with ⟨_, _, _, _, _, _, rfl⟩
          simp

variable {sign int point fraction exponent junk : List UInt8}

theorem strtodEnd_eq_length_iff (parts : Parts int point fraction exponent junk)
    (digits : int ≠ [] ∨ fraction ≠ [])
    (isSigned : signLength (sign ++ (int ++ (point ++ (fraction ++ (exponent ++ junk))))) =
      sign.length) :
    zendStrtodEnd (sign ++ (int ++ (point ++ (fraction ++ (exponent ++ junk))))) =
      (sign ++ (int ++ (point ++ (fraction ++ (exponent ++ junk))))).length ↔ junk = [] := by
  rw [zendStrtodEnd_parts parts digits isSigned, ← List.length_eq_zero_iff]
  simp only [List.length_append]
  omega

/-- A point behind digits, or in front of them. -/
theorem processDouble_point (isSignText : IsSignText sign)
    (parts : Parts int [byte '.'] fraction exponent junk) (digits : int ≠ [] ∨ fraction ≠ [])
    (starts : isDigit (read (int ++ ([byte '.'] ++ (fraction ++ (exponent ++ junk)))) 0) = true ∨
      read (int ++ ([byte '.'] ++ (fraction ++ (exponent ++ junk)))) 0 = byte '.') (count : Nat) :
    let str := sign ++ (int ++ ([byte '.'] ++ (fraction ++ (exponent ++ junk))))
    let result := processDouble conversions dval 0 str (sign.length + int.length) count
    (result.type = if junk = [] then .double else .none) ∧
      result.oflowInfo = some (if dval = false ∧
        maxLengthOfLong ≤ count + fraction.length + exponentCount exponent then oflowOf sign
      else 0) := by
  have facts := sign_facts isSignText starts
  simp only [processDouble, oflow_eq facts.2]
  cases dval with
  | true =>
      simp only [if_true, finishDouble_type, strtodEnd_eq_length_iff parts digits facts.1,
        Bool.true_eq_false, false_and, if_false, and_self]
  | false =>
      rcases @scanDouble_point (sign ++ int) int fraction exponent junk count parts with
        ⟨ptr, scan, atEnd⟩
      rw [List.append_assoc, List.length_append] at scan
      rw [List.append_assoc] at atEnd
      simp only [Bool.false_eq_true, if_false, Int.reduceEq, ne_eq, not_false_eq_true, if_true,
        scan, finishDouble_type, atEnd, true_and, and_self]

/-- An exponent behind digits. -/
theorem processDouble_exponent (isSignText : IsSignText sign)
    (parts : Parts int [] [] exponent junk) (nonempty : int ≠ [])
    (starts : isDigit (read (int ++ ([] ++ ([] ++ (exponent ++ junk)))) 0) = true)
    {e : UInt8} {exponentSign digits : List UInt8} (isE : isExponent e = true)
    (isExponentSign : IsSignText exponentSign) (areDigits : isDigits digits = true)
    (split : exponent = e :: (exponentSign ++ digits)) (ends : Ends isDigit junk) (count : Nat) :
    let str := sign ++ (int ++ ([] ++ ([] ++ (exponent ++ junk))))
    let result := processDouble conversions dval 0 str
      (sign.length + int.length + exponentSign.length) count
    (result.type = if junk = [] then .double else .none) ∧
      result.oflowInfo = some (if dval = false ∧
        maxLengthOfLong ≤ count + exponentCount exponent then oflowOf sign else 0) := by
  have facts := sign_facts isSignText (Or.inl starts)
  simp only [processDouble, oflow_eq facts.2]
  cases dval with
  | true =>
      simp only [if_true, finishDouble_type,
        strtodEnd_eq_length_iff parts (Or.inl nonempty) facts.1,
        Bool.true_eq_false, false_and, if_false, and_self]
  | false =>
      have scan := @scanDouble_exponent (sign ++ int) e exponentSign digits junk 1 count isE
        isExponentSign areDigits ends
      rw [List.append_assoc, List.length_append, ← split] at scan
      have atEnd : (sign ++ int ++ exponent).length =
          (sign ++ (int ++ ([] ++ ([] ++ (exponent ++ junk))))).length ↔ junk = [] := by
        rw [← List.length_eq_zero_iff]
        simp only [List.length_append, List.nil_append]
        omega
      have counted : exponentCount exponent = digits.length := by
        rw [split]
        exact exponentCount_eq isE isExponentSign (isDigits_iff.mp areDigits).2
      simp only [List.nil_append] at atEnd ⊢
      simp only [Bool.false_eq_true, if_false, Int.reduceEq, ne_eq, not_false_eq_true, if_true,
        scan, finishDouble_type, atEnd, true_and, and_self, counted]

/-- The digits of a number and the zeros in front of them. -/
theorem zeros_append (digits : List UInt8) :
    digits = digits.takeWhile (· == byte '0') ++ digits.dropWhile (· == byte '0') :=
  List.takeWhile_append_dropWhile.symm

theorem ends_zero {hex : Bool} {digits rest : List UInt8} (ends : Ends (isNumeral hex) rest) :
    Ends (· == byte '0') (digits.dropWhile (· == byte '0') ++ rest) := by
  cases split : digits.dropWhile (· == byte '0') with
  | nil =>
      intro c member
      rw [beq_eq_false_iff_ne]
      rintro rfl
      exact absurd (ends _ member) (by cases hex <;> decide)
  | cons c more =>
      intro d member
      rw [List.cons_append, List.head?_cons, Option.mem_some_iff] at member
      rw [← member, beq_eq_false_iff_ne]
      exact head_significant split

section Loop

variable {before digits tail : List UInt8} {hex : Bool}

/-- Where the scan for digits starts: behind the zeros. -/
theorem scan_start (ends : Ends (isNumeral hex) tail) :
    run (· == byte '0') (before ++ (digits ++ tail)) before.length =
      (digits.takeWhile (· == byte '0')).length := by
  have text : before ++ (digits ++ tail) = before ++ (digits.takeWhile (· == byte '0') ++
      (digits.dropWhile (· == byte '0') ++ tail)) := by
    rw [← List.append_assoc (digits.takeWhile _), ← zeros_append]
  rw [text]
  exact run_append (forall_takeWhile _ _) (ends_zero ends)

/-- The loop over the digits: it ends behind them, or when there are too many. -/
theorem scan_digits (limited : Bool) (pass : ∀ c ∈ digits, isNumeral hex c = true)
    (ends : Ends (isNumeral hex) tail) :
    checkDigits (before ++ (digits ++ tail)) limited hex 0
        ((before ++ (digits ++ tail)).length + 1)
        (before.length + (digits.takeWhile (· == byte '0')).length) 0 =
      if limited = true ∧ maxLengthOfLong ≤ (digits.dropWhile (· == byte '0')).length then
        .stop (before.length + (digits.takeWhile (· == byte '0')).length + maxLengthOfLong)
          maxLengthOfLong
      else
        leaveDigits (before ++ (digits ++ tail)) hex 0 (before.length + digits.length)
          (digits.dropWhile (· == byte '0')).length := by
  have text : before ++ (digits ++ tail) = (before ++ digits.takeWhile (· == byte '0')) ++
      (digits.dropWhile (· == byte '0') ++ tail) := by
    rw [List.append_assoc, ← List.append_assoc (digits.takeWhile _), ← zeros_append]
  have whole : (digits.takeWhile (· == byte '0')).length +
      (digits.dropWhile (· == byte '0')).length = digits.length := by
    rw [← List.length_append, ← zeros_append]
  have passLater : ∀ c ∈ digits.dropWhile (· == byte '0'), isNumeral hex c = true :=
    fun c member => pass c (mem_significant member)
  have enough : (digits.dropWhile (· == byte '0')).length <
      ((before ++ digits.takeWhile (· == byte '0')) ++
        (digits.dropWhile (· == byte '0') ++ tail)).length + 1 := by
    simp only [List.length_append]
    omega
  rw [text, ← List.length_append]
  split_ifs with many
  · rw [many.1, checkDigits_limit _ _ passLater enough (by decide) (by simpa using many.2)]
    rfl
  · have index : (before ++ digits.takeWhile (· == byte '0')).length +
        (digits.dropWhile (· == byte '0')).length = before.length + digits.length := by
      rw [List.length_append]
      omega
    rw [checkDigits_run _ _ passLater ends enough
      (fun isLimited => by
        rw [Nat.zero_add]
        exact Nat.not_le.mp fun large => many ⟨isLimited, large⟩), index, Nat.zero_add]

end Loop

/-- A text that starts with digits and is no integer. -/
theorem scanNumber_noInteger (isSignText : IsSignText sign)
    (parts : Parts int point fraction exponent junk) (nonempty : int ≠ [])
    (more : point ++ (fraction ++ (exponent ++ junk)) ≠ [])
    (notHex : isHexText (sign ++ (int ++ (point ++ (fraction ++ (exponent ++ junk))))) = false) :
    let str := sign ++ (int ++ (point ++ (fraction ++ (exponent ++ junk))))
    let result := scanNumber conversions dval 0 str
    (result.type = if junk = [] then .double else .none) ∧
      result.oflowInfo = some (if maxLengthOfLong ≤ countedDigits dval int fraction exponent then
        oflowOf sign else 0) := by
  have first : isDigit (read (int ++ (point ++ (fraction ++ (exponent ++ junk)))) 0) = true := by
    cases int with
    | nil => exact absurd rfl nonempty
    | cons c rest => exact parts.int_digits c List.mem_cons_self
  have facts := sign_facts isSignText (Or.inl first)
  have ends := parts.int_ends
  have pass := parts.int_digits
  rw [← isNumeral_decimal] at ends pass
  have start := @scan_start sign int _ false ends
  have loop := @scan_digits sign int _ false dval pass ends
  have strtodEnd := strtodEnd_eq_length_iff parts (Or.inl nonempty) facts.1
  simp only [scanNumber, notHex, Bool.false_eq_true, if_false, facts.1, start, loop,
    oflow_eq facts.2, Int.reduceBEq, Bool.or_false]
  by_cases many : dval = true ∧ maxLengthOfLong ≤ (int.dropWhile (· == byte '0')).length
  · have counted : maxLengthOfLong ≤ countedDigits dval int fraction exponent :=
      Nat.le_trans many.2 (Nat.le_add_right _ _)
    simp only [many, and_self, if_true, Nat.le_refl, finishDouble_type, strtodEnd]
    rw [many.1] at counted
    rw [if_pos counted]
    exact ⟨trivial, rfl⟩
  · rw [if_neg many]
    -- without `dval` all digits are counted, with it the loop has seen less than 20
    have countedIff (later : Nat) (isLater : later = fraction.length + exponentCount exponent) :
        (dval = false ∧ maxLengthOfLong ≤ (int.dropWhile (· == byte '0')).length + later) ↔
          maxLengthOfLong ≤ countedDigits dval int fraction exponent := by
      rw [countedDigits, ← isLater]
      cases dval with
      | true =>
          simp only [Bool.true_eq_false, false_and, if_true, Nat.add_zero, false_iff]
          exact fun large => many ⟨rfl, large⟩
      | false => simp
    cases parts.tail with
    | point isPoint =>
        subst isPoint
        have leaves := @leave_point (sign ++ int) 0 (int.dropWhile (· == byte '0')).length
          (fraction ++ (exponent ++ junk)) (by decide)
        rw [List.append_assoc, List.length_append] at leaves
        rw [List.singleton_append, leaves]
        have result := @processDouble_point conversions dval sign int fraction exponent junk
          isSignText parts (Or.inl nonempty) (Or.inl first) (int.dropWhile (· == byte '0')).length
        simp only [Nat.add_assoc, countedIff _ rfl] at result
        exact result
    | exponent noPoint noFraction isExponentText behind =>
        subst noPoint noFraction
        have whole := isExponentText
        rcases whole with ⟨e, exponentSign, digits, isE, isExponentSign, areDigits, split⟩
        rcases isDigits_cons areDigits with ⟨c, rest, isDigits, digit, _⟩
        have text : exponent ++ junk = e :: (exponentSign ++ c :: (rest ++ junk)) := by
          rw [split, isDigits]
          simp
        have leaves := @leave_exponent (sign ++ int) 0 (int.dropWhile (· == byte '0')).length e c
          exponentSign (rest ++ junk) isE isExponentSign digit (by decide)
        rw [← text, List.append_assoc, List.length_append] at leaves
        have result := @processDouble_exponent conversions dval sign int exponent junk isSignText
          parts nonempty first e exponentSign digits isE isExponentSign areDigits split behind
          (int.dropWhile (· == byte '0')).length
        simp only [countedIff (exponentCount exponent) (by simp)] at result
        simp only [List.nil_append] at leaves result ⊢
        rw [leaves]
        exact result
    | junk noPoint noFraction noExponent noStart noPointHead =>
        subst noPoint noFraction noExponent
        simp only [List.nil_append] at more ⊢
        rcases @leave_junk (sign ++ int) junk 0 (int.dropWhile (· == byte '0')).length
          (fun _ => noPointHead) (fun _ => noStart) with ⟨ptr, leaves, _, inside⟩
        have short := inside more
        rw [List.append_assoc] at leaves short
        rw [List.length_append] at leaves
        rw [leaves]
        simp only [more, if_false]
        have counted := countedIff 0 rfl
        rw [Nat.add_zero] at counted
        by_cases large : maxLengthOfLong ≤ (int.dropWhile (· == byte '0')).length
        · have noDval : dval = false := by
            cases dval with
            | true => exact absurd ⟨rfl, large⟩ many
            | false => rfl
          rw [if_pos large, if_pos (counted.mp ⟨noDval, large⟩), noDval]
          simp only [Bool.false_eq_true, if_false, finishDouble_type, Nat.ne_of_lt short, and_self]
        · rw [if_neg large, if_neg (fun isCounted => large (counted.mpr isCounted).2)]
          exact finishLong_junk short

theorem toInt_clampLong {number : Int} (inRange : InRange number) :
    (clampLong number).toInt = number := by
  have bounds := inRange
  rw [InRange] at bounds
  have clamped : max (-2 ^ 63) (min number (2 ^ 63 - 1)) = number := by omega
  rw [clampLong, clamped, BitVec.toInt_ofInt]
  apply Int.bmod_eq_of_le <;> omega

/-- The number of a text of digits. -/
def decimalNumber (sign int : List UInt8) : Int :=
  if sign = [byte '-'] then -(value int : Int) else value int

/-- The test at 19 digits decides whether the number is in range. -/
theorem inRange_iff (areDigits : ∀ c ∈ int, isDigit c = true) :
    InRange (decimalNumber sign int) ↔
      ¬ (maxLengthOfLong ≤ (int.dropWhile (· == byte '0')).length) ∧
      ¬ ((int.dropWhile (· == byte '0')).length = maxLengthOfLong - 1 ∧
        ¬ (strcmp (int.dropWhile (· == byte '0')) longMinDigits = .lt ∨
          (strcmp (int.dropWhile (· == byte '0')) longMinDigits = .eq ∧ sign = [byte '-']))) := by
  have bounds := value_bounds areDigits
  have max : maxLengthOfLong = 20 := rfl
  by_cases nineteen : (int.dropWhile (· == byte '0')).length = 19
  · have compared := @strcmp_eq (int.dropWhile (· == byte '0')) longMinDigits
      (by rw [nineteen]; rfl) (fun c member => areDigits c (mem_significant member))
      (forall_of_all (by decide)) 0
    have equal : number 10 digit 0 (int.dropWhile (· == byte '0')) = value int :=
      value_significant int
    have least : number 10 digit 0 longMinDigits = 2 ^ 63 := by decide
    rw [equal, least] at compared
    rw [compared, compare_lt_iff_lt, compare_eq_iff_eq, InRange, decimalNumber, nineteen, max]
    split_ifs with minus
    · simp only [minus, and_true, Nat.add_one_sub_one, true_and]
      omega
    · simp only [minus, and_false, or_false, Nat.add_one_sub_one, true_and]
      omega
  · rw [InRange, decimalNumber, max]
    split_ifs <;> omega

theorem cString_digits {digits : List UInt8} (areDigits : ∀ c ∈ digits, isDigit c = true) :
    cString digits = digits := by
  apply cString_of_notMem
  intro member
  exact absurd (areDigits 0 member) (by decide)

theorem isDigit_first (areDigits : isDigits int = true) : isDigit (read int 0) = true := by
  rcases isDigits_cons areDigits with ⟨c, rest, rfl, digit, _⟩
  exact digit

theorem notHex_integer (isSignText : IsSignText sign) (areDigits : ∀ c ∈ int, isDigit c = true) :
    isHexText (sign ++ int) = false := by
  rw [isHexText]
  rcases isSignText with rfl | rfl | rfl
  · rw [List.nil_append]
    match int with
    | [] | [_] => rfl
    | c :: d :: rest =>
        have second := areDigits d (by simp)
        have isSecond : read (c :: d :: rest) 1 = d := rfl
        rw [isSecond, Bool.and_eq_false_iff]
        right
        rw [Bool.eq_false_iff]
        intro isX
        simp only [Bool.or_eq_true, beq_iff_eq] at isX
        rcases isX with rfl | rfl
        · exact absurd second (by decide)
        · exact absurd second (by decide)
  · have first : (read ([byte '+'] ++ int) 0 == byte '0') = false := rfl
    rw [first]
    simp
  · have first : (read ([byte '-'] ++ int) 0 == byte '0') = false := rfl
    rw [first]
    simp

theorem Parts.of_digits (areDigits : ∀ c ∈ int, isDigit c = true) : Parts int [] [] [] [] where
  int_digits := areDigits
  fraction_digits := by simp
  point_cases := Or.inr ⟨rfl, rfl⟩
  exponent_cases := Or.inl rfl
  int_ends := fun c member => by cases member
  fraction_ends := fun c member => by cases member
  no_point := by simp
  no_exponent := by
    rintro _ ⟨_, _, _, _, _, _, _, equal⟩
    cases equal
  exponent_ends := by simp

theorem leaveDigits_end {str : List UInt8} {digits : Nat} :
    leaveDigits str false 0 str.length digits = .stop str.length digits := by
  have atEnd : read str str.length = 0 := by
    have behind := read_behind str []
    rw [List.append_nil] at behind
    exact behind
  rw [leaveDigits, atEnd]
  rfl

/-- How a sign and digits are read: the number of digits decides. -/
theorem scanNumber_decimal (isSignText : IsSignText sign) (areDigits : isDigits int = true) :
    scanNumber conversions dval 0 (sign ++ int) =
      if maxLengthOfLong ≤ (int.dropWhile (· == byte '0')).length then
        finishDouble dval 0 (sign ++ int) (sign ++ int).length
          (conversions.zendStrtod (sign ++ int)) (oflowOf sign)
      else
        finishLong conversions dval 0 (sign ++ int) (sign ++ int).length
          (int.dropWhile (· == byte '0')).length false := by
  have all := (isDigits_iff.mp areDigits).2
  have facts := @sign_facts sign int isSignText (Or.inl (isDigit_first areDigits))
  have ends : Ends (isNumeral false) [] := fun c member => by cases member
  have pass := all
  rw [← isNumeral_decimal] at pass
  have start := @scan_start sign int [] false ends
  have loop := @scan_digits sign int [] false dval pass ends
  have leaves : leaveDigits (sign ++ int) false 0 (sign.length + int.length)
      (int.dropWhile (· == byte '0')).length =
        .stop (sign ++ int).length (int.dropWhile (· == byte '0')).length := by
    rw [← List.length_append]
    exact leaveDigits_end
  have strtodEnd := (strtodEnd_eq_length_iff (.of_digits all)
    (Or.inl (isDigits_iff.mp areDigits).1) (by simpa using facts.1)).mpr rfl
  simp only [List.append_nil] at start loop strtodEnd
  simp only [scanNumber, notHex_integer isSignText all, Bool.false_eq_true, if_false, facts.1,
    start, loop, oflow_eq facts.2, Int.reduceBEq, Bool.or_false]
  by_cases many : maxLengthOfLong ≤ (int.dropWhile (· == byte '0')).length
  · cases dval with
    | true => simp only [many, and_self, if_true, Nat.le_refl, strtodEnd]
    | false =>
        simp only [many, Bool.false_eq_true, false_and, if_false, if_true, leaves]
  · simp only [many, and_false, if_false, leaves]

/-- A sign and digits. -/
theorem scanNumber_integer (isSignText : IsSignText sign) (areDigits : isDigits int = true) :
    let result := scanNumber conversions dval 0 (sign ++ int)
    (InRange (decimalNumber sign int) → result.type = .long ∧
      result.lval.map BitVec.toInt = some (decimalNumber sign int) ∧ result.oflowInfo = some 0) ∧
    (¬ InRange (decimalNumber sign int) → result.type = .double ∧
      result.oflowInfo = some (oflowOf sign)) := by
  have all := (isDigits_iff.mp areDigits).2
  have facts := @sign_facts sign int isSignText (Or.inl (isDigit_first areDigits))
  have significant : cString ((sign ++ int).drop
      ((sign ++ int).length - (int.dropWhile (· == byte '0')).length)) =
        int.dropWhile (· == byte '0') := by
    have split := zeros_append int
    have index : (sign ++ int).length - (int.dropWhile (· == byte '0')).length =
        (sign ++ int.takeWhile (· == byte '0')).length := by
      have whole := congrArg List.length split
      simp only [List.length_append] at whole ⊢
      omega
    have text : sign ++ int = (sign ++ int.takeWhile (· == byte '0')) ++
        int.dropWhile (· == byte '0') := by
      rw [List.append_assoc, ← split]
    rw [index, text, List.drop_left]
    exact cString_digits fun c member => all c (mem_significant member)
  have number : strtol (sign ++ int) = clampLong (decimalNumber sign int) := by
    have digits : int.takeWhile isDigit = int := List.takeWhile_eq_self_iff.mpr all
    simp only [strtol, facts.1, List.drop_left, digits, facts.2, decimalNumber]
  rw [scanNumber_decimal isSignText areDigits]
  simp only [inRange_iff all]
  split_ifs with many
  · simp [many, finishDouble_type]
  · simp only [finishLong, finish, significant, facts.2, ne_eq, not_true_eq_false, if_false,
      Bool.false_eq_true, number, many, not_false_eq_true, true_and]
    rw [← oflowOf]
    generalize (if dval = true then some (conversions.zendStrtod (sign ++ int)) else none) = d
    split_ifs with large
    · simp only [large, not_true_eq_false, not_false_eq_true, false_implies, true_implies, true_and]
    · have inRange := (inRange_iff all).mpr ⟨many, large⟩
      simp only [large, not_true_eq_false, not_false_eq_true, false_implies, true_implies,
        and_true, Option.map_some, toInt_clampLong inRange]

theorem isNumeral_hex : isNumeral true = isXdigit := by
  funext c
  simp only [isNumeral, isXdigit, Bool.true_and]
  cases isDigit c <;> simp

section Hex

variable {x : UInt8} {digits : List UInt8}

theorem hexStrtodEnd (isX : x = byte 'x' ∨ x = byte 'X')
    (areDigits : ∀ c ∈ digits, isXdigit c = true) (ends : Ends isXdigit junk)
    (nonempty : digits ≠ []) :
    zendHexStrtodEnd ([byte '0', x] ++ (digits ++ junk)) = 2 + digits.length := by
  have any : run isXdigit ([byte '0', x] ++ (digits ++ junk)) 2 = digits.length :=
    @run_append [byte '0', x] isXdigit digits junk areDigits ends
  have first : read ([byte '0', x] ++ (digits ++ junk)) 0 = byte '0' := rfl
  have second : read ([byte '0', x] ++ (digits ++ junk)) 1 = x := rfl
  have long : ¬ ([byte '0', x] ++ (digits ++ junk)).length < 2 := by simp
  have some : ¬ digits.length = 0 := fun empty => nonempty (List.length_eq_zero_iff.mp empty)
  simp only [zendHexStrtodEnd, first, second, isX, and_self, if_true, any, long, some, or_self,
    if_false]

/-- How hexadecimal digits are read. -/
theorem scanNumber_hexDigits (isX : x = byte 'x' ∨ x = byte 'X')
    (areDigits : ∀ c ∈ digits, isXdigit c = true) (ends : Ends isXdigit junk)
    (more : digits ++ junk ≠ []) :
    scanNumber conversions dval 0 ([byte '0', x] ++ (digits ++ junk)) =
      if hexValue digits < 2 ^ 63 then
        finishLong conversions dval 0 ([byte '0', x] ++ (digits ++ junk)) (2 + digits.length)
          (digits.dropWhile (· == byte '0')).length true
      else
        finishDouble dval 0 ([byte '0', x] ++ (digits ++ junk)) (2 + digits.length)
          (conversions.zendHexStrtod ([byte '0', x] ++ (digits ++ junk))) 1 := by
  have isHex : isHexText ([byte '0', x] ++ (digits ++ junk)) = true := by
    have long : 2 < ([byte '0', x] ++ (digits ++ junk)).length := by
      have positive := List.length_pos_iff.mpr more
      rw [List.length_append]
      simp only [List.length_cons, List.length_nil]
      omega
    have first : read ([byte '0', x] ++ (digits ++ junk)) 0 = byte '0' := rfl
    have second : read ([byte '0', x] ++ (digits ++ junk)) 1 = x := rfl
    rw [isHexText, first, second, decide_eq_true long]
    simpa using isX
  have pass := areDigits
  have behind := ends
  rw [← isNumeral_hex] at pass behind
  have start := @scan_start [byte '0', x] digits junk true behind
  have loop := @scan_digits [byte '0', x] digits junk true dval pass behind
  have fits := hex_fits areDigits
  have two : [byte '0', x].length = 2 := rfl
  rw [two] at start loop
  simp only [scanNumber, isHex, if_true, start, loop, Int.reduceBEq, Bool.or_false]
  have max : maxLengthOfLong = 20 := rfl
  by_cases many : dval = true ∧ maxLengthOfLong ≤ (digits.dropWhile (· == byte '0')).length
  · have large : ¬ hexValue digits < 2 ^ 63 := by
      rw [← fits]
      omega
    have nonempty : digits ≠ [] := by
      rintro rfl
      exact large (by decide)
    rw [if_pos many]
    simp only [many.1, if_true, max, Nat.reduceLT, Nat.reduceEqDiff, false_and, or_self,
      if_false, large, hexStrtodEnd isX areDigits ends nonempty]
  · have leading : (digits.dropWhile (· == byte '0')).length = 16 →
        read ([byte '0', x] ++ (digits ++ junk))
          (2 + digits.length - (digits.dropWhile (· == byte '0')).length) =
        read (digits.dropWhile (· == byte '0')) 0 := by
      intro sixteen
      have split := zeros_append digits
      have index : 2 + digits.length - (digits.dropWhile (· == byte '0')).length =
          ([byte '0', x] ++ digits.takeWhile (· == byte '0')).length := by
        have whole := congrArg List.length split
        simp only [List.length_append, two] at whole ⊢
        omega
      have text : [byte '0', x] ++ (digits ++ junk) =
          ([byte '0', x] ++ digits.takeWhile (· == byte '0')) ++
            (digits.dropWhile (· == byte '0') ++ junk) := by
        rw [List.append_assoc, ← List.append_assoc (digits.takeWhile _), ← split]
      rw [index, text, read_behind]
      cases significant : digits.dropWhile (· == byte '0') with
      | nil =>
          rw [significant] at sixteen
          cases sixteen
      | cons c rest => rfl
    have test : ((digits.dropWhile (· == byte '0')).length < 16 ∨
        (digits.dropWhile (· == byte '0')).length = 16 ∧
          read ([byte '0', x] ++ (digits ++ junk))
            (2 + digits.length - (digits.dropWhile (· == byte '0')).length) ≤ byte '7') ↔
        hexValue digits < 2 ^ 63 := by
      rw [← fits]
      apply or_congr_right
      apply and_congr_right
      intro sixteen
      rw [leading sixteen]
    rw [if_neg many, leaveDigits, if_pos rfl]
    simp only [test]
    split_ifs with small isDval
    · rfl
    · have nonempty : digits ≠ [] := by
        rintro rfl
        exact small (by decide)
      rw [hexStrtodEnd isX areDigits ends nonempty]
    · rfl

/-- A hexadecimal number, with anything behind it. -/
theorem scanNumber_hex (isX : x = byte 'x' ∨ x = byte 'X')
    (areDigits : ∀ c ∈ digits, isXdigit c = true) (ends : Ends isXdigit junk)
    (more : digits ++ junk ≠ []) :
    let result := scanNumber conversions dval 0 ([byte '0', x] ++ (digits ++ junk))
    (hexValue digits < 2 ^ 63 → (result.type = if junk = [] then .long else .none) ∧
      (junk = [] → result.lval.map BitVec.toInt = some (hexValue digits : Int)) ∧
      result.oflowInfo = some 0) ∧
    (¬ hexValue digits < 2 ^ 63 → (result.type = if junk = [] then .double else .none) ∧
      result.oflowInfo = some 1) := by
  have atEnd : 2 + digits.length = ([byte '0', x] ++ (digits ++ junk)).length ↔ junk = [] := by
    rw [← List.length_eq_zero_iff]
    simp only [List.length_append, List.length_cons, List.length_nil]
    omega
  rw [scanNumber_hexDigits isX areDigits ends more]
  by_cases small : hexValue digits < 2 ^ 63
  · have inRange : InRange (hexValue digits : Int) := by
      rw [InRange]
      omega
    have number : strtolHex ([byte '0', x] ++ (digits ++ junk)) = clampLong (hexValue digits) := by
      rw [strtolHex]
      change clampLong (hexValue ((digits ++ junk).takeWhile isXdigit)) = _
      rw [takeWhile_ends areDigits ends]
    have short : ¬ (digits.dropWhile (· == byte '0')).length = maxLengthOfLong - 1 := by
      have fits := (hex_fits areDigits).mpr small
      have max : maxLengthOfLong = 20 := rfl
      omega
    rw [if_pos small]
    simp only [small, not_true_eq_false, false_implies, true_implies, and_true]
    by_cases empty : junk = []
    · rw [finishLong, finish, if_neg (not_not.mpr (atEnd.mpr empty))]
      simp only [empty, short, false_and, if_true, if_false, true_implies]
      rw [empty] at number
      simp only [number, Option.map_some, toInt_clampLong inRange, and_self]
    · have inside : 2 + digits.length < ([byte '0', x] ++ (digits ++ junk)).length := by
        have different := mt atEnd.mp empty
        simp only [List.length_append, List.length_cons, List.length_nil] at different ⊢
        omega
      simp only [finishLong_junk inside, empty, if_false, false_implies, and_self]
  · rw [if_neg small]
    simp only [small, not_false_eq_true, false_implies, true_implies, finishDouble_type,
      atEnd, and_self]

end Hex

end Results

end PhpRuntime.Operators
