import PhpRuntime.Operators.Shapes
import PhpRuntime.Operators.Power
import PhpRuntime.Operators.Identical
import Mathlib.Data.Int.ConditionallyCompleteOrder

/-! # Comparing numeric strings

`zendi_smart_strcmp` of `Zend/zend_operators.c` with 64-bit longs. A double is given by its
bits; what the comparisons need of it is its number, which may be infinite.
-/

namespace PhpRuntime.Operators

open Decimal CString Hash

/-! ## Doubles -/

abbrev Extended := WithBot (WithTop ℚ)

def finite (number : ℚ) : Extended := ((number : WithTop ℚ) : WithBot (WithTop ℚ))

/-- The number of a double, with the infinities at the ends; `none` for NaN. -/
def doubleValue (bits : UInt64) : Option Extended :=
  let exponent : Nat := bits.toNat / 2 ^ 52 % 2048
  let mantissa : Nat := bits.toNat % 2 ^ 52
  let negative := decide (2 ^ 63 ≤ bits.toNat)
  if exponent = 2047 then
    if mantissa = 0 then some (if negative then ⊥ else ⊤) else none
  else
    let magnitude : ℚ :=
      if exponent = 0 then mantissa / 2 ^ 1074
      else (2 ^ 52 + mantissa) * 2 ^ exponent / 2 ^ 1075
    some (finite (if negative then -magnitude else magnitude))

/-- `zend_finite` -/
def isFinite (number : Extended) : Bool := decide (number ≠ ⊥ ∧ number ≠ ⊤)

/-- The sign of a difference of doubles, which is 0 only for equal ones; `none` for NaN. -/
def differenceSign : Option Extended → Option Extended → Option Int
  | some a, some b =>
      if a = b then if isFinite a then some 0 else none
      else some (if a < b then -1 else 1)
  | _, _ => none

/-! ## The comparison -/

/-- `ZEND_NORMALIZE_BOOL` -/
def normalizeBool (n : Int) : Int := if 0 < n then 1 else if n < 0 then -1 else 0

/-- `zend_binary_strcmp` -/
def zendBinaryStrcmp (s1 s2 : List UInt8) : Int :=
  if memcmp s1 s2 = 0 then s1.length - s2.length else memcmp s1 s2

/-- The label `string_cmp`. -/
def stringCmp (s1 s2 : List UInt8) : Int := normalizeBool (zendBinaryStrcmp s1 s2)

section Compare

variable (conversions : Conversions) (arith : DoubleArithmetic)

def zendiSmartStrcmp (s1 s2 : List UInt8) : Int :=
  let n1 := isNumericStringEx conversions true 0 s1
  let n2 := isNumericStringEx conversions true 0 s2
  if n1.type ≠ .none ∧ n2.type ≠ .none then
    let oflow1 := n1.oflowInfo.getD 0
    let oflow2 := n2.oflowInfo.getD 0
    let dval1 := doubleValue (n1.dval.getD 0)
    let dval2 := doubleValue (n2.dval.getD 0)
    let lval1 := n1.lval.getD 0
    let lval2 := n2.lval.getD 0
    if oflow1 ≠ 0 ∧ oflow1 = oflow2 ∧ differenceSign dval1 dval2 = some 0 then
      stringCmp s1 s2
    else if n1.type = .double ∨ n2.type = .double then
      if n1.type ≠ .double then
        if oflow2 ≠ 0 then -1 * oflow2
        else (differenceSign (doubleValue (arith.ofLong lval1)) dval2).getD 0
      else if n2.type ≠ .double then
        if oflow1 ≠ 0 then oflow1
        else (differenceSign dval1 (doubleValue (arith.ofLong lval2))).getD 0
      else if dval1 = dval2 ∧ dval1.any (fun number => !isFinite number) = true then
        stringCmp s1 s2
      else
        (differenceSign dval1 dval2).getD 0
    else if lval2.toInt < lval1.toInt then 1 else if lval1.toInt < lval2.toInt then -1 else 0
  else
    stringCmp s1 s2

end Compare

/-! ## Byte comparison -/

theorem normalizeBool_eq_sign (n : Int) : normalizeBool n = n.sign := by
  unfold normalizeBool
  split_ifs with positive negative
  · exact (Int.sign_eq_one_of_pos positive).symm
  · exact (Int.sign_eq_neg_one_of_neg negative).symm
  · rw [show n = 0 by omega, Int.sign_zero]

theorem memcmp_comm (s1 s2 : List UInt8) : memcmp s2 s1 = -memcmp s1 s2 := by
  induction s1 generalizing s2 with
  | nil => cases s2 <;> rfl
  | cons a as induction =>
      cases s2 with
      | nil => rfl
      | cons b bs =>
          rw [memcmp, memcmp]
          by_cases equal : a = b
          · rw [if_pos equal, if_pos equal.symm, induction]
          · rw [if_neg equal, if_neg (Ne.symm equal)]
            omega

theorem stringCmp_comm (s1 s2 : List UInt8) : stringCmp s2 s1 = -stringCmp s1 s2 := by
  have swapped : zendBinaryStrcmp s2 s1 = -zendBinaryStrcmp s1 s2 := by
    rw [zendBinaryStrcmp, zendBinaryStrcmp, memcmp_comm s1 s2]
    split_ifs <;> omega
  rw [stringCmp, stringCmp, normalizeBool_eq_sign, normalizeBool_eq_sign, swapped, Int.sign_neg]

theorem eq_of_stringCmp {s1 s2 : List UInt8} (zero : stringCmp s1 s2 = 0) : s1 = s2 := by
  rw [stringCmp, normalizeBool_eq_sign] at zero
  have equal := Int.sign_eq_zero_iff_zero.mp zero
  unfold zendBinaryStrcmp at equal
  split_ifs at equal with same
  · exact (memcmp_eq_zero (by omega)).mp same
  · exact absurd equal same

/-! ## Integers -/

/-- `zend_strtod` rounds integers correctly: to a number that does not decrease with the integer
and is exact for the bounds of the longs. -/
structure RoundsIntegers (conversions : Conversions) (rounded : Int → Extended) : Prop where
  value : ∀ text number, IsDecimal text number →
    doubleValue (conversions.zendStrtod text) = some (rounded number)
  monotone : Monotone rounded
  upper : rounded (2 ^ 63) = finite (2 ^ 63)
  lower : rounded (-2 ^ 63) = finite (-2 ^ 63)

/-- Both integers are beyond the same end of the range. -/
def SameSide (n1 n2 : Int) : Prop :=
  (2 ^ 63 ≤ n1 ∧ 2 ^ 63 ≤ n2) ∨ (n1 < -2 ^ 63 ∧ n2 < -2 ^ 63)

variable {conversions : Conversions} {arith : DoubleArithmetic} {rounded : Int → Extended}
  {text s1 s2 : List UInt8} {number n1 n2 : Int}

/-- What is read from an integer. -/
structure ReadAs (conversions : Conversions) (rounded : Int → Extended) (number : Int)
    (result : Numeric) : Prop where
  inside : InRange number → result.type = .long ∧ (result.lval.getD 0).toInt = number ∧
    result.oflowInfo.getD 0 = 0
  above : 2 ^ 63 ≤ number → result.oflowInfo.getD 0 = 1
  below : number < -2 ^ 63 → result.oflowInfo.getD 0 = -1
  outside : ¬ InRange number → result.type = .double ∧
    doubleValue (result.dval.getD 0) = some (rounded number)

theorem finishLong_dval {str : List UInt8} {digits : Nat}
    (double : (finishLong conversions true 0 str str.length digits false).type = .double) :
    (finishLong conversions true 0 str str.length digits false).dval =
      some (conversions.zendStrtod str) := by
  unfold finishLong finish at double ⊢
  simp only [ne_eq, not_true_eq_false, if_false, if_true] at double ⊢
  split_ifs at double ⊢ <;> rfl

theorem readAs_of_decimal (rounds : RoundsIntegers conversions rounded)
    (form : IsDecimal text number) :
    ReadAs conversions rounded number (isNumericStringEx conversions true 0 text) := by
  have noSpace : text.dropWhile isSpace = text :=
    dropWhile_behindSpace ⟨[], by simp, rfl⟩ form.ends_space
  have results := @result_decimal conversions true text number (by rwa [noSpace])
  obtain ⟨sign, int, isSignText, areDigits, body, equal⟩ := form
  have isNumber : decimalNumber sign int = number := equal.symm
  have integer := @result_integer conversions true text sign int isSignText areDigits
    (noSpace.trans body)
  rw [isNumber] at integer
  refine ⟨?_, ?_, ?_, ?_⟩
  · intro inRange
    obtain ⟨type, value, oflow⟩ := integer.1 inRange
    obtain ⟨lval, isLval, isNumber⟩ := Option.map_eq_some_iff.mp value
    rw [isLval, oflow]
    exact ⟨type, isNumber, rfl⟩
  · exact fun large => congrArg (·.getD 0) (results.2.2.1 large)
  · exact fun small => congrArg (·.getD 0) (results.2.2.2 small)
  · intro outside
    have type := (integer.2 outside).1
    refine ⟨type, ?_⟩
    have dval : (isNumericStringEx conversions true 0 text).dval =
        some (conversions.zendStrtod text) := by
      have first := isDigit_first areDigits
      have facts := @sign_facts sign int isSignText (.inl first)
      have scanned := @isNumericStringEx_digit conversions true text 0
        (by rw [noSpace, body, facts.1, read_behind]; exact first)
      rw [noSpace] at scanned
      rw [scanned, body, scanNumber_decimal isSignText areDigits] at type
      rw [scanned, body, scanNumber_decimal isSignText areDigits]
      split_ifs at type ⊢
      · simp [finishDouble, finish]
      · exact finishLong_dval type
    rw [dval, Option.getD_some]
    exact rounds.value text number ⟨sign, int, isSignText, areDigits, body, equal⟩

theorem RoundsIntegers.lt_iff (rounds : RoundsIntegers conversions rounded)
    (different : rounded n1 ≠ rounded n2) : rounded n1 < rounded n2 ↔ n1 < n2 := by
  constructor
  · intro less
    by_contra notLess
    exact absurd (rounds.monotone (not_lt.mp notLess)) (not_le.mpr less)
  · exact fun less => lt_of_le_of_ne (rounds.monotone less.le) different

/-- Integers beyond different ends of the range have different doubles. -/
theorem RoundsIntegers.sameSide (rounds : RoundsIntegers conversions rounded)
    (outside1 : ¬ InRange n1) (outside2 : ¬ InRange n2) (equal : rounded n1 = rounded n2) :
    SameSide n1 n2 := by
  have apart : ∀ large small, 2 ^ 63 ≤ large → small < -2 ^ 63 → rounded small < rounded large := by
    intro large small above below
    calc rounded small ≤ rounded (-2 ^ 63) := rounds.monotone below.le
      _ = finite (-2 ^ 63) := rounds.lower
      _ < finite (2 ^ 63) := by
        apply WithBot.coe_lt_coe.mpr
        apply WithTop.coe_lt_coe.mpr
        rw [Rat.lt_iff]
        decide
      _ = rounded (2 ^ 63) := rounds.upper.symm
      _ ≤ rounded large := rounds.monotone above
  unfold InRange at outside1 outside2
  by_cases above1 : 2 ^ 63 ≤ n1
  · by_cases above2 : 2 ^ 63 ≤ n2
    · exact .inl ⟨above1, above2⟩
    · exact absurd equal.symm (apart n1 n2 above1 (by omega)).ne
  · by_cases above2 : 2 ^ 63 ≤ n2
    · exact absurd equal (apart n2 n1 above2 (by omega)).ne
    · exact .inr ⟨by omega, by omega⟩

theorem differenceSign_of_ne {a b : Extended} (different : a ≠ b) :
    differenceSign (some a) (some b) = some (if a < b then -1 else 1) := by
  rw [differenceSign, if_neg different]

/-- The overflow of an integer beyond the range. -/
theorem ReadAs.oflow {result : Numeric} (read : ReadAs conversions rounded number result)
    (outside : ¬ InRange number) :
    result.oflowInfo.getD 0 = if number < 0 then -1 else 1 := by
  unfold InRange at outside
  split_ifs with negative
  · exact read.below (by omega)
  · exact read.above (by omega)

theorem ReadAs.oflow_ne_zero {result : Numeric} (read : ReadAs conversions rounded number result)
    (outside : ¬ InRange number) : result.oflowInfo.getD 0 ≠ 0 := by
  rw [read.oflow outside]
  split_ifs <;> decide

/-- Beyond the same end the doubles decide, and equal ones leave it to the bytes. -/
theorem zendiSmartStrcmp_equal (rounds : RoundsIntegers conversions rounded)
    (form1 : IsDecimal s1 n1) (form2 : IsDecimal s2 n2) (side : SameSide n1 n2)
    (equal : rounded n1 = rounded n2) :
    zendiSmartStrcmp conversions arith s1 s2 = stringCmp s1 s2 := by
  have read1 := readAs_of_decimal rounds form1
  have read2 := readAs_of_decimal rounds form2
  have outside1 : ¬ InRange n1 := by
    unfold InRange
    unfold SameSide at side
    omega
  have outside2 : ¬ InRange n2 := by
    unfold InRange
    unfold SameSide at side
    omega
  obtain ⟨type1, dval1⟩ := read1.outside outside1
  obtain ⟨type2, dval2⟩ := read2.outside outside2
  have oflow : (isNumericStringEx conversions true 0 s1).oflowInfo.getD 0 =
      (isNumericStringEx conversions true 0 s2).oflowInfo.getD 0 := by
    rw [read1.oflow outside1, read2.oflow outside2]
    unfold SameSide at side
    split_ifs <;> omega
  have nonzero := read2.oflow_ne_zero outside2
  unfold zendiSmartStrcmp
  simp only [type1, type2, dval1, dval2, equal, oflow, differenceSign]
  by_cases isFin : isFinite (rounded n2) = true
  · simp [nonzero, isFin]
  · simp [isFin]

theorem zendiSmartStrcmp_different (rounds : RoundsIntegers conversions rounded)
    (form1 : IsDecimal s1 n1) (form2 : IsDecimal s2 n2)
    (different : ¬ (SameSide n1 n2 ∧ rounded n1 = rounded n2)) :
    zendiSmartStrcmp conversions arith s1 s2 = normalizeBool (n1 - n2) := by
  have read1 := readAs_of_decimal rounds form1
  have read2 := readAs_of_decimal rounds form2
  unfold zendiSmartStrcmp
  by_cases inside1 : InRange n1
  · obtain ⟨type1, value1, oflow1⟩ := read1.inside inside1
    by_cases inside2 : InRange n2
    · obtain ⟨type2, value2, oflow2⟩ := read2.inside inside2
      simp only [type1, type2, oflow1, value1, value2, ne_eq, reduceCtorEq, not_false_eq_true,
        and_self, not_true_eq_false, false_and, or_self, if_true, if_false, normalizeBool]
      split_ifs <;> omega
    · obtain ⟨type2, dval2⟩ := read2.outside inside2
      have nonzero := read2.oflow_ne_zero inside2
      simp only [type1, type2, oflow1, nonzero, ne_eq, reduceCtorEq, not_false_eq_true,
        and_self, not_true_eq_false, false_and, or_true, if_true, if_false]
      rw [read2.oflow inside2]
      unfold InRange at inside1 inside2
      unfold normalizeBool
      split_ifs <;> omega
  · obtain ⟨type1, dval1⟩ := read1.outside inside1
    have nonzero := read1.oflow_ne_zero inside1
    by_cases inside2 : InRange n2
    · obtain ⟨type2, value2, oflow2⟩ := read2.inside inside2
      simp only [type1, type2, oflow2, nonzero, ne_eq, reduceCtorEq, not_false_eq_true,
        and_self, not_true_eq_false, false_and, and_false, true_or, if_true, if_false]
      rw [read1.oflow inside1]
      unfold InRange at inside1 inside2
      unfold normalizeBool
      split_ifs <;> omega
    · obtain ⟨type2, dval2⟩ := read2.outside inside2
      have apart : rounded n1 ≠ rounded n2 :=
        fun equal => different ⟨rounds.sameSide inside1 inside2 equal, equal⟩
      have signs : (if n1 < n2 then -1 else 1 : Int) ≠ 0 := by
        split_ifs <;> decide
      have notEqual : n1 ≠ n2 := fun equal => apart (congrArg rounded equal)
      simp only [type1, type2, dval1, dval2, differenceSign_of_ne apart, Option.some.injEq, signs,
        apart, ne_eq, reduceCtorEq, not_false_eq_true, and_self, not_true_eq_false, false_and,
        and_false, or_self, if_true, if_false, Option.getD_some, rounds.lt_iff apart]
      unfold normalizeBool
      split_ifs <;> omega

theorem SameSide.symm (side : SameSide n1 n2) : SameSide n2 n1 :=
  side.imp And.symm And.symm

/-- Integer strings compare as their integers, except that those beyond the same end of the longs
with equal doubles compare by their bytes. Only equal integers and equal strings compare as equal,
and exchanging the strings negates the result. -/
theorem zendiSmartStrcmp_integers (conversions : Conversions) (arith : DoubleArithmetic)
    (rounded : Int → Extended) (rounds : RoundsIntegers conversions rounded)
    (s1 s2 : List UInt8) (n1 n2 : Int) (form1 : IsDecimal s1 n1) (form2 : IsDecimal s2 n2) :
    (zendiSmartStrcmp conversions arith s1 s2 = 0 → n1 = n2 ∨ s1 = s2) ∧
    (¬ (SameSide n1 n2 ∧ rounded n1 = rounded n2) →
      zendiSmartStrcmp conversions arith s1 s2 = (n1 - n2).sign) ∧
    (SameSide n1 n2 ∧ rounded n1 = rounded n2 →
      zendiSmartStrcmp conversions arith s1 s2 = (zendBinaryStrcmp s1 s2).sign) ∧
    zendiSmartStrcmp conversions arith s2 s1 = -zendiSmartStrcmp conversions arith s1 s2 := by
  by_cases same : SameSide n1 n2 ∧ rounded n1 = rounded n2
  · obtain ⟨side, equal⟩ := same
    have result := @zendiSmartStrcmp_equal conversions arith _ _ _ _ _ rounds form1 form2 side equal
    have swapped := @zendiSmartStrcmp_equal conversions arith _ _ _ _ _ rounds form2 form1
      side.symm equal.symm
    rw [result, swapped]
    refine ⟨fun zero => .inr (eq_of_stringCmp zero), ?_, ?_, stringCmp_comm s1 s2⟩
    · exact fun different => absurd ⟨side, equal⟩ different
    · exact fun _ => normalizeBool_eq_sign _
  · have result := @zendiSmartStrcmp_different conversions arith _ _ _ _ _ rounds form1 form2 same
    have swapped := @zendiSmartStrcmp_different conversions arith _ _ _ _ _ rounds form2 form1
      (fun both => same ⟨both.1.symm, both.2.symm⟩)
    rw [result, swapped, normalizeBool_eq_sign, normalizeBool_eq_sign]
    refine ⟨fun zero => .inl ?_, fun _ => rfl, fun both => absurd both same, ?_⟩
    · exact Int.sub_eq_zero.mp (Int.sign_eq_zero_iff_zero.mp zero)
    · rw [← Int.sign_neg, Int.neg_sub]

/-! A coarse rounding to the bounds of the longs, in its conversion and in its numbers. -/

def coarseConversions : Conversions where
  zendStrtod text :=
    if value (text.dropWhile isSign) < 2 ^ 63 then 0
    else if text.head? = some (byte '-') then 0xC3E0000000000000
    else 0x43E0000000000000
  zendHexStrtod _ := 0

def coarse (number : Int) : Extended :=
  finite (if number ≤ -2 ^ 63 then -2 ^ 63 else if number < 2 ^ 63 then 0 else 2 ^ 63)

theorem coarse_monotone : Monotone coarse := by
  intro small large order
  apply WithBot.coe_le_coe.mpr
  apply WithTop.coe_le_coe.mpr
  split_ifs <;> first | omega | norm_num

theorem magnitude_bound : (2 ^ 52 * 2 ^ 1086 / 2 ^ 1075 : ℚ) = 2 ^ 63 := by
  rw [div_eq_iff (pow_ne_zero _ two_ne_zero), ← pow_add, ← pow_add]

theorem doubleValue_upper : doubleValue 0x43E0000000000000 = some (finite (2 ^ 63)) := by
  simp [doubleValue, magnitude_bound]

theorem doubleValue_lower : doubleValue 0xC3E0000000000000 = some (finite (-2 ^ 63)) := by
  simp [doubleValue, magnitude_bound]

theorem doubleValue_zero : doubleValue 0 = some (finite 0) := by
  simp [doubleValue]

theorem coarse_rounds : RoundsIntegers coarseConversions coarse where
  value := by
    rintro text number ⟨sign, digits, isSignText, areDigits, rfl, rfl⟩
    obtain ⟨c, rest, rfl, digit, _⟩ := isDigits_cons areDigits
    have unsigned := isSign_of_digit digit
    have noMinus : c ≠ byte '-' := by
      rintro rfl
      exact absurd digit (by decide)
    have text : (sign ++ c :: rest).dropWhile isSign = c :: rest := by
      have minus : isSign (byte '-') = true := by decide
      have plus : isSign (byte '+') = true := by decide
      rcases isSignText with rfl | rfl | rfl <;> simp [unsigned, minus, plus]
    have head : (sign ++ c :: rest).head? = some (byte '-') ↔ sign = [byte '-'] := by
      rcases isSignText with rfl | rfl | rfl <;> simp [noMinus]
    unfold coarseConversions coarse
    simp only [text, head]
    by_cases small : value (c :: rest) < 2 ^ 63
    · rw [if_pos small, doubleValue_zero, if_neg (by split_ifs <;> omega),
        if_pos (by split_ifs <;> omega)]
    · rw [if_neg small]
      by_cases minus : sign = [byte '-']
      · rw [if_pos minus, if_pos minus, if_pos (by omega), doubleValue_lower]
      · rw [if_neg minus, if_neg minus, if_neg (by omega), if_neg (by omega), doubleValue_upper]
  monotone := coarse_monotone
  upper := rfl
  lower := rfl

/-- The two integers behind the greatest long have one double and compare by their bytes. -/
theorem zendiSmartStrcmp_beyond :
    zendiSmartStrcmp coarseConversions ⟨fun _ => 0, fun _ _ => 0, fun _ _ => 0⟩
      ("9223372036854775808".toList.map byte) ("9223372036854775809".toList.map byte) = -1 := by
  have integers := zendiSmartStrcmp_integers coarseConversions
    ⟨fun _ => 0, fun _ _ => 0, fun _ _ => 0⟩ coarse coarse_rounds
    ("9223372036854775808".toList.map byte) ("9223372036854775809".toList.map byte)
    (2 ^ 63) (2 ^ 63 + 1) ⟨[], _, .inl rfl, by decide, rfl, by decide⟩
    ⟨[], _, .inl rfl, by decide, rfl, by decide⟩
  exact integers.2.2.1 ⟨.inl ⟨by decide, by decide⟩, rfl⟩

end PhpRuntime.Operators
