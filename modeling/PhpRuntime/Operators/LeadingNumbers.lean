import PhpRuntime.Operators.Shapes

/-! # Numbers in front of other bytes

`is_numeric_string_ex` when errors are allowed. Its type does not depend on which of its
pointers are `NULL`. At 19 digits the test for the range compares all bytes up to the next NUL
with the digits of `LONG_MIN`, so bytes behind the number can change its outcome.
-/

namespace PhpRuntime.Operators

open Decimal CString Positional

/-- `is_numeric_string_ex` with any of the pointers `NULL`; apart from `dval` they are only
tested in front of a store. -/
def isNumericStringPointers (conversions : Conversions) (lval dval oflowInfo : Bool)
    (allowErrors : Int) (text : List UInt8) : Numeric :=
  let result := isNumericStringEx conversions dval allowErrors text
  { result with
    lval := if lval then result.lval else none
    oflowInfo := if oflowInfo then result.oflowInfo else none }

/-! ## The type -/

section Verdict

variable {conversions conversions' : Conversions} {dval : Bool} {allowErrors : Int}

/-- The same type and the same long. -/
def SameVerdict (result other : Numeric) : Prop :=
  result.type = other.type ∧ result.lval = other.lval

theorem finish_verdict (errors : allowErrors ≠ 0) (str : List UInt8) (ptr : Nat) (oflow : Int)
    (result : Numeric) : SameVerdict (finish allowErrors str ptr oflow result) result := by
  unfold finish
  split_ifs <;> exact ⟨rfl, rfl⟩

theorem finishDouble_verdict (errors : allowErrors ≠ 0) (str : List UInt8) (ptr : Nat)
    (localDval : UInt64) (oflow : Int) :
    SameVerdict (finishDouble dval allowErrors str ptr localDval oflow)
      ⟨.double, none, none, none, false⟩ :=
  finish_verdict errors _ _ _ _

theorem processDouble_verdict (errors : allowErrors ≠ 0) (str : List UInt8) (ptr digits : Nat) :
    SameVerdict (processDouble conversions dval allowErrors str ptr digits)
      ⟨.double, none, none, none, false⟩ := by
  unfold processDouble
  split
  · exact finishDouble_verdict errors _ _ _ _
  · split <;> exact finishDouble_verdict errors _ _ _ _

/-- The range test of a number with less than 20 digits. -/
def FitsLong (str : List UInt8) (ptr digits : Nat) : Prop :=
  ¬ (digits = maxLengthOfLong - 1 ∧
    ¬ (strcmp (cString (str.drop (ptr - digits))) longMinDigits = .lt ∨
      (strcmp (cString (str.drop (ptr - digits))) longMinDigits = .eq ∧ read str 0 = byte '-')))

instance (str : List UInt8) (ptr digits : Nat) : Decidable (FitsLong str ptr digits) :=
  inferInstanceAs (Decidable (¬ _))

theorem finishLong_verdict (errors : allowErrors ≠ 0) (str : List UInt8) (ptr digits : Nat)
    (hex : Bool) :
    SameVerdict (finishLong conversions dval allowErrors str ptr digits hex)
      (if FitsLong str ptr digits then
        ⟨.long, some (if hex then strtolHex str else strtol str), none, none, false⟩
      else ⟨.double, none, none, none, false⟩) := by
  unfold finishLong
  by_cases fits : FitsLong str ptr digits
  · rw [if_pos fits]
    have verdict := finish_verdict errors str ptr 0
    dsimp only
    rw [if_neg fits]
    exact verdict _
  · rw [if_neg fits]
    have verdict := finish_verdict errors str ptr 0
    dsimp only
    rw [if_pos (not_not.mp fits)]
    exact verdict _

/-- The digits that the loop has counted. -/
def Exit.digits : Exit → Nat
  | .stop _ digits => digits
  | .double _ digits => digits

theorem leaveDigits_digits (str : List UInt8) (hex : Bool) (dpOrE : Int) (ptr digits : Nat) :
    (leaveDigits str hex dpOrE ptr digits).digits = digits := by
  unfold leaveDigits
  dsimp only
  split_ifs <;> rfl

theorem le_checkDigits (str : List UInt8) (hex : Bool) (dpOrE : Int) (fuel ptr digits : Nat) :
    digits ≤ (checkDigits str false hex dpOrE fuel ptr digits).digits := by
  induction fuel generalizing ptr digits with
  | zero => exact le_rfl
  | succ fuel induction =>
      rw [checkDigits, Bool.false_and, if_neg Bool.false_ne_true]
      split_ifs
      · exact (induction (ptr + 1) (digits + 1)).trans' (Nat.le_succ digits)
      · exact (leaveDigits_digits str hex dpOrE ptr digits).ge

/-- A loop that stops at 20 digits, and one that does not. -/
theorem checkDigits_limited (str : List UInt8) (limited hex : Bool) (dpOrE : Int)
    (fuel ptr digits : Nat) :
    checkDigits str limited hex dpOrE fuel ptr digits =
        checkDigits str false hex dpOrE fuel ptr digits ∨
      ∃ last count, checkDigits str limited hex dpOrE fuel ptr digits = .stop last count ∧
        maxLengthOfLong ≤ count ∧
        maxLengthOfLong ≤ (checkDigits str false hex dpOrE fuel ptr digits).digits := by
  induction fuel generalizing ptr digits with
  | zero => exact .inl rfl
  | succ fuel induction =>
      rw [checkDigits, checkDigits, Bool.false_and, if_neg Bool.false_ne_true]
      split_ifs with numeral stops
      · have long := le_checkDigits str hex dpOrE fuel (ptr + 1) (digits + 1)
        have many : maxLengthOfLong ≤ digits + 1 := by simp_all
        exact .inr ⟨_, _, rfl, many, many.trans long⟩
      · exact induction (ptr + 1) (digits + 1)
      · exact .inl rfl

/-- Few enough digits for a long, or 19 of them in doubt. -/
def FewDigits (str : List UInt8) (hex : Bool) (ptr digits : Nat) : Prop :=
  if hex then digits < 16 ∨ (digits = 16 ∧ read str (ptr - digits) ≤ byte '7')
  else ¬ maxLengthOfLong ≤ digits

instance (str : List UInt8) (hex : Bool) (ptr digits : Nat) :
    Decidable (FewDigits str hex ptr digits) := by
  unfold FewDigits
  infer_instance

/-- What is made of the end of the loop when errors are allowed. -/
def verdictOf (str : List UInt8) (hex : Bool) : Exit → Numeric
  | .double _ _ => ⟨.double, none, none, none, false⟩
  | .stop ptr digits =>
      if FewDigits str hex ptr digits then
        if FitsLong str ptr digits then
          ⟨.long, some (if hex then strtolHex str else strtol str), none, none, false⟩
        else
          ⟨.double, none, none, none, false⟩
      else
        ⟨.double, none, none, none, false⟩

theorem verdictOf_many (str : List UInt8) (hex : Bool) {exit : Exit}
    (many : maxLengthOfLong ≤ exit.digits) :
    verdictOf str hex exit = ⟨.double, none, none, none, false⟩ := by
  cases exit with
  | double ptr digits => rfl
  | stop ptr digits =>
      have large : 20 ≤ digits := many
      rw [verdictOf, if_neg]
      intro few
      cases hex with
      | false => exact few many
      | true =>
          have small : digits < 16 ∨ digits = 16 ∧ _ := few
          omega

theorem verdictOf_long {str : List UInt8} {hex : Bool} {exit : Exit}
    (long : (verdictOf str hex exit).type = .long) :
    (verdictOf str hex exit).lval = some (if hex then strtolHex str else strtol str) := by
  cases exit with
  | double ptr digits => cases long
  | stop ptr digits =>
      rw [verdictOf] at long ⊢
      by_cases few : FewDigits str hex ptr digits
      · by_cases fits : FitsLong str ptr digits
        · rw [if_pos few, if_pos fits]
        · rw [if_pos few, if_neg fits] at long
          cases long
      · rw [if_neg few] at long
        cases long

/-- The verdict is the one of the loop that does not stop. -/
theorem scanNumber_verdict (errors : allowErrors ≠ 0) (str : List UInt8) :
    SameVerdict (scanNumber conversions dval allowErrors str)
      (verdictOf str (isHexText str) (checkDigits str false (isHexText str) 0 (str.length + 1)
        ((if isHexText str then 2 else signLength str) +
          run (· == byte '0') str (if isHexText str then 2 else signLength str)) 0)) := by
  have stops : ∀ exit, checkDigits str (dval || allowErrors == 1) (isHexText str) 0
      (str.length + 1) ((if isHexText str then 2 else signLength str) +
        run (· == byte '0') str (if isHexText str then 2 else signLength str)) 0 = exit →
      SameVerdict (scanNumber conversions dval allowErrors str)
        (verdictOf str (isHexText str) exit) := by
    intro exit loop
    rw [scanNumber]
    dsimp only
    rw [loop]
    cases exit with
    | double ptr digits => exact processDouble_verdict errors str ptr digits
    | stop ptr digits =>
        dsimp only [verdictOf]
        cases hex : isHexText str with
        | true =>
            by_cases few : digits < 16 ∨ (digits = 16 ∧ read str (ptr - digits) ≤ byte '7')
            · rw [if_pos rfl, if_pos few, if_pos (show FewDigits str true ptr digits from few)]
              exact finishLong_verdict errors str ptr digits true
            · rw [if_pos rfl, if_neg few, if_neg (show ¬ FewDigits str true ptr digits from few)]
              exact finishDouble_verdict errors _ _ _ _
        | false =>
            by_cases large : maxLengthOfLong ≤ digits
            · rw [if_neg Bool.false_ne_true, if_pos large,
                if_neg (show ¬ FewDigits str false ptr digits from not_not.mpr large)]
              exact finishDouble_verdict errors _ _ _ _
            · rw [if_neg Bool.false_ne_true, if_neg large,
                if_pos (show FewDigits str false ptr digits from large)]
              exact finishLong_verdict errors str ptr digits false
  rcases checkDigits_limited str (dval || allowErrors == 1) (isHexText str) 0 (str.length + 1)
    ((if isHexText str then 2 else signLength str) +
      run (· == byte '0') str (if isHexText str then 2 else signLength str)) 0 with
    same | ⟨last, count, stopped, many, more⟩
  · exact stops _ same
  · have verdict := stops _ stopped
    rw [verdictOf_many str (isHexText str) (show maxLengthOfLong ≤ (Exit.stop last count).digits
      from many)] at verdict
    rw [verdictOf_many str _ more]
    exact verdict

/-- The type with errors allowed is the same for all pointers. -/
theorem isNumericStringEx_verdict (errors : allowErrors ≠ 0) (text : List UInt8) (dval' : Bool) :
    (isNumericStringEx conversions dval allowErrors text).type =
      (isNumericStringEx conversions' dval' allowErrors text).type := by
  unfold isNumericStringEx
  split_ifs with empty
  · rfl
  dsimp only
  split_ifs with digit point
  · exact (scanNumber_verdict errors _).1.trans (scanNumber_verdict errors _).1.symm
  · exact (processDouble_verdict errors _ _ _).1.trans (processDouble_verdict errors _ _ _).1.symm
  · rfl

end Verdict

/-- The type does not depend on which pointers are `NULL`, nor on the values of the doubles. -/
theorem isNumericStringPointers_type (conversions conversions' : Conversions)
    (lval dval oflowInfo lval' dval' oflowInfo' : Bool) (allowErrors : Int) (text : List UInt8) :
    (isNumericStringPointers conversions lval dval oflowInfo allowErrors text).type =
      (isNumericStringPointers conversions' lval' dval' oflowInfo' allowErrors text).type := by
  change (isNumericStringEx conversions dval allowErrors text).type =
    (isNumericStringEx conversions' dval' allowErrors text).type
  by_cases errors : allowErrors = 0
  · subst errors
    cases shape : exists_shape (text.dropWhile isSpace) with
    | hex x digits junk isX areDigits ends more body =>
        have first := @result_hex conversions dval text junk x digits isX areDigits ends more body
        have second :=
          @result_hex conversions' dval' text junk x digits isX areDigits ends more body
        by_cases small : hexValue digits < 2 ^ 63
        · rw [(first.1 small).1, (second.1 small).1]
        · rw [(first.2 small).1, (second.2 small).1]
    | integer sign int isSignText areDigits body =>
        have first := @result_integer conversions dval text sign int isSignText areDigits body
        have second := @result_integer conversions' dval' text sign int isSignText areDigits body
        by_cases inRange : InRange (decimalNumber sign int)
        · rw [(first.1 inRange).1, (second.1 inRange).1]
        · rw [(first.2 inRange).1, (second.2 inRange).1]
    | number sign int point fraction exponent junk isSignText parts digits more notHex body =>
        rw [(result_number isSignText parts digits more notHex body).1,
          (result_number isSignText parts digits more notHex body).1]
    | other noDigit noPoint =>
        rw [(result_other noDigit noPoint).1, (result_other noDigit noPoint).1]
  · exact isNumericStringEx_verdict errors text dval'

/-! ## Bytes behind an integer -/

/-- The longest part of the text that is whitespace, a sign and digits, with neither a point nor
a complete exponent behind it. -/
structure Leading (text sign int junk : List UInt8) : Prop where
  body : text.dropWhile isSpace = sign ++ (int ++ junk)
  sign : IsSignText sign
  digits : isDigits int = true
  ends : Ends isDigit junk
  point : junk.head? ≠ some (byte '.')
  exponent : ¬ StartsExponent junk

theorem Leading.first_digit {text sign int junk : List UInt8}
    (leading : Leading text sign int junk) : isDigit (read (int ++ junk) 0) = true := by
  obtain ⟨c, rest, equal, digit, -⟩ := isDigits_cons leading.digits
  rw [equal]
  exact digit

theorem not_startsExponent {c : UInt8} {rest : List UInt8} (other : isExponent c = false) :
    ¬ StartsExponent (c :: rest) := by
  intro starts
  obtain ⟨e, sign, d, rest, isE, -, -, equal⟩ := starts
  rw [← (List.cons.inj equal).1, other] at isE
  cases isE

/-- A long is returned exactly for a number in its range, and with its value. -/
def ReadsNumber (result : Numeric) (number : Int) : Prop :=
  (result.type = .long ↔ InRange number) ∧
    (InRange number → result.lval.map BitVec.toInt = some number)

theorem readsNumber_iff {fits : Prop} [Decidable fits] {number : Int} {lval : BitVec 64}
    {result : Numeric} (value : InRange number → lval.toInt = number)
    (verdict : SameVerdict result (if fits then ⟨.long, some lval, none, none, false⟩
      else ⟨.double, none, none, none, false⟩)) :
    ReadsNumber result number ↔ (fits ↔ InRange number) := by
  rw [ReadsNumber, verdict.1, verdict.2]
  by_cases isLong : fits
  · simp only [isLong, if_true, true_iff, Option.map_some, Option.some.injEq]
    exact ⟨fun reads => reads.1, fun inRange => ⟨inRange, value⟩⟩
  · simp only [isLong, if_false, false_iff, reduceCtorEq, Option.map_none]
    exact ⟨fun reads => reads.1, fun outside => ⟨outside, fun inRange => outside inRange⟩⟩

/-- An `e` with a sign behind it, over which the pointer has moved. -/
def halfExponent (junk : List UInt8) : Bool :=
  isExponent (read junk 0) && isSign (read junk 1)

/-- The bytes behind the number make it be read as something else. -/
inductive Misread (sign int junk : List UInt8) : Prop
  | hex (isHex : isHexText (sign ++ (int ++ junk)) = true)
      (nonzero : hexValue ((junk.drop 1).takeWhile isXdigit) ≠ 0)
  | least (noExponent : halfExponent junk = false) (minus : sign = [byte '-'])
      (isLeast : value int = 2 ^ 63) (c : UInt8) (head : junk.head? = some c) (byte : c ≠ 0)
  | shifted (half : halfExponent junk = true)
      (nineteen : (int.dropWhile (· == byte '0')).length = maxLengthOfLong - 1)
      (differs : ¬ (value ((int.dropWhile (· == byte '0')).drop 1) < 922337203685477580 ↔
        InRange (decimalNumber sign int)))

theorem strcmp_append {left right : List UInt8} (same : left.length = right.length)
    (more others : List UInt8) :
    strcmp (left ++ more) (right ++ others) = (strcmp left right).then (strcmp more others) := by
  induction left generalizing right with
  | nil =>
      rw [List.length_eq_zero_iff.mp same.symm]
      rfl
  | cons c left induction =>
      cases right with
      | nil => cases same
      | cons d right =>
          rw [List.cons_append, List.cons_append, strcmp, strcmp, induction (Nat.succ.inj same)]
          split_ifs <;> rfl

theorem cString_append {digits : List UInt8} (areDigits : ∀ c ∈ digits, isDigit c = true)
    (junk : List UInt8) : cString (digits ++ junk) = digits ++ cString junk := by
  rw [cString, List.takeWhile_append_of_pos, cString]
  intro c member
  rw [bne_iff_ne]
  intro nul
  rw [nul] at member
  exact absurd (areDigits 0 member) (by decide)

variable {text sign int junk : List UInt8}

/-- The loop ends behind the digits, or on the sign of half an exponent. -/
theorem leave_leading {before : List UInt8} {count : Nat} (point : junk.head? ≠ some (byte '.'))
    (exponent : ¬ StartsExponent junk) :
    leaveDigits (before ++ junk) false 0 before.length count =
      .stop (before.length + if halfExponent junk then 1 else 0) count := by
  have first := read_behind before junk
  have second := read_append before junk 1
  have noPoint : read junk 0 ≠ byte '.' := by
    intro isPoint
    cases junk with
    | nil => cases isPoint
    | cons c rest => exact point (congrArg some isPoint)
  rw [leaveDigits, if_neg Bool.false_ne_true, first, if_neg (fun both => noPoint both.1)]
  by_cases isE : isExponent (read junk 0) = true
  · have noDigit : ¬ isDigit (read (before ++ junk)
        (exponentStart (before ++ junk) before.length)) = true := by
      cases junk with
      | nil => cases isE
      | cons c rest => exact mt (startsExponent_iff isE).mp exponent
    rw [if_pos ⟨isE, by decide⟩]
    dsimp only
    rw [if_neg noDigit, second, halfExponent, isE, Bool.true_and]
    split_ifs <;> rfl
  · rw [if_neg (fun both => isE both.1), halfExponent, Bool.eq_false_iff.mpr isE]
    rfl

/-- Digits compare like their values, and then the bytes behind them. -/
theorem strcmp_digits {left right : List UInt8} (same : left.length = right.length)
    (leftDigits : ∀ c ∈ left, isDigit c = true) (rightDigits : ∀ c ∈ right, isDigit c = true)
    (junk others : List UInt8) :
    strcmp (cString (left ++ junk)) (right ++ others) =
      (compare (value left) (value right)).then (strcmp (cString junk) others) := by
  rw [cString_append leftDigits, strcmp_append same]
  congr 1
  exact strcmp_eq same leftDigits rightDigits 0

theorem longMin_value : value longMinDigits = 2 ^ 63 := by decide

/-- The bytes that the range test compares. -/
theorem drop_significant (sign int junk : List UInt8) (k : Nat) :
    (sign ++ (int ++ junk)).drop ((sign ++ int).length + k -
      (int.dropWhile (· == byte '0')).length) =
        (int.dropWhile (· == byte '0') ++ junk).drop k := by
  have split := zeros_append int
  have index : (sign ++ int).length + k - (int.dropWhile (· == byte '0')).length =
      (sign ++ int.takeWhile (· == byte '0')).length + k := by
    have whole := congrArg List.length split
    simp only [List.length_append] at whole ⊢
    omega
  have text : sign ++ (int ++ junk) = (sign ++ int.takeWhile (· == byte '0')) ++
      (int.dropWhile (· == byte '0') ++ junk) := by
    rw [List.append_assoc, ← List.append_assoc (int.takeWhile _), ← split]
  rw [index, text, List.drop_length_add_append]

/-- The test when something greater follows the digits. -/
theorem then_gt (value bound : Nat) :
    ((compare value bound).then .gt = .lt ↔ value < bound) ∧
      (compare value bound).then .gt ≠ .eq := by
  rw [← compare_lt_iff_lt]
  cases compare value bound <;> decide

/-- Behind the digits there is a byte that is not NUL. -/
theorem cString_cons {c : UInt8} {rest : List UInt8} (nonzero : c ≠ 0) :
    cString (c :: rest) = c :: cString rest :=
  List.takeWhile_cons_of_pos (bne_iff_ne.mpr nonzero)

theorem strcmp_halfExponent (half : halfExponent junk = true) :
    strcmp (cString junk) [byte '8'] = .gt := by
  rw [halfExponent, Bool.and_eq_true] at half
  cases junk with
  | nil => cases half.1
  | cons c rest =>
      have isE : isExponent c = true := half.1
      simp only [isExponent, Bool.or_eq_true, beq_iff_eq] at isE
      rcases isE with rfl | rfl
      · rw [cString_cons (by decide)]
        rfl
      · rw [cString_cons (by decide)]
        rfl

theorem inRange_value_iff : InRange (decimalNumber sign int) ↔
    value int < 2 ^ 63 ∨ (value int = 2 ^ 63 ∧ sign = [byte '-']) := by
  rw [InRange, decimalNumber]
  split_ifs with minus
  · simp only [minus, and_true]
    omega
  · simp only [minus, and_false, or_false]
    omega

/-- The range test agrees with the range exactly if the bytes do not mislead it. -/
theorem fitsLong_iff (leading : Leading text sign int junk)
    (notHex : isHexText (sign ++ (int ++ junk)) = false)
    (few : ¬ maxLengthOfLong ≤ (int.dropWhile (· == byte '0')).length) :
    (FitsLong (sign ++ (int ++ junk))
        ((sign ++ int).length + if halfExponent junk then 1 else 0)
        (int.dropWhile (· == byte '0')).length ↔ InRange (decimalNumber sign int)) ↔
      ¬ Misread sign int junk := by
  have all := (isDigits_iff.mp leading.digits).2
  have significant : ∀ c ∈ int.dropWhile (· == byte '0'), isDigit c = true :=
    fun c member => all c (mem_significant member)
  have first := leading.first_digit
  have minus := (sign_facts leading.sign (.inl first)).2
  by_cases nineteen : (int.dropWhile (· == byte '0')).length = maxLengthOfLong - 1
  · rw [FitsLong, drop_significant, minus]
    simp only [nineteen, true_and, not_not]
    cases half : halfExponent junk with
    | false =>
        have compared := strcmp_digits (nineteen.trans (rfl : _ = longMinDigits.length))
          significant (forall_of_all (by decide)) junk []
        rw [List.append_nil, value_significant, longMin_value] at compared
        rw [if_neg Bool.false_ne_true, List.drop_zero, compared, inRange_value_iff]
        cases tail : cString junk with
        | nil =>
            have equal : (compare (value int) (2 ^ 63)).then (strcmp [] []) =
                compare (value int) (2 ^ 63) := by
              cases compare (value int) (2 ^ 63) <;> rfl
            rw [equal, compare_lt_iff_lt, compare_eq_iff_eq]
            apply iff_of_true Iff.rfl
            intro misread
            cases misread with
            | hex isHex => exact absurd isHex (by rw [notHex]; decide)
            | least _ _ _ c head nonzero =>
                obtain ⟨rest, rfl⟩ := List.head?_eq_some_iff.mp head
                rw [cString_cons nonzero] at tail
                cases tail
            | shifted isHalf => cases half.symm.trans isHalf
        | cons d more =>
            have facts := then_gt (value int) (2 ^ 63)
            change ((compare (value int) (2 ^ 63)).then .gt = .lt ∨ _ ↔ _) ↔ _
            simp only [strcmp, facts.1, facts.2, false_and, or_false]
            constructor
            · intro agrees misread
              cases misread with
              | hex isHex => exact absurd isHex (by rw [notHex]; decide)
              | least _ minus isLeast =>
                  have less := agrees.mpr (.inr ⟨isLeast, minus⟩)
                  omega
              | shifted isHalf => cases half.symm.trans isHalf
            · intro fine
              refine ⟨.inl, ?_⟩
              intro inRange
              rcases inRange with less | ⟨isLeast, isMinus⟩
              · exact less
              · cases junk with
                | nil => cases tail
                | cons c rest =>
                    refine absurd (.least half isMinus isLeast c rfl ?_) fine
                    intro nul
                    rw [nul] at tail
                    cases tail
    | true =>
        have compared := @strcmp_digits ((int.dropWhile (· == byte '0')).drop 1)
          (longMinDigits.take 18) (by rw [List.length_drop, nineteen]; rfl)
          (fun c member => significant c (List.mem_of_mem_drop member))
          (forall_of_all (by decide)) junk [byte '8']
        have bound : value (longMinDigits.take 18) = 922337203685477580 := by decide
        rw [strcmp_halfExponent half, bound] at compared
        change strcmp _ longMinDigits = _ at compared
        have facts := then_gt (value ((int.dropWhile (· == byte '0')).drop 1)) 922337203685477580
        rw [if_pos rfl, List.drop_append_of_le_length (by rw [nineteen]; decide), compared]
        simp only [facts.1, facts.2, false_and, or_false]
        constructor
        · intro agrees misread
          cases misread with
          | hex isHex => exact absurd isHex (by rw [notHex]; decide)
          | least noExponent => cases half.symm.trans noExponent
          | shifted _ _ differs => exact differs agrees
        · intro fine
          by_contra differs
          exact fine (.shifted half nineteen differs)
  · have fits : FitsLong (sign ++ (int ++ junk))
        ((sign ++ int).length + if halfExponent junk then 1 else 0)
        (int.dropWhile (· == byte '0')).length := fun doubt => nineteen doubt.1
    have inRange : InRange (decimalNumber sign int) :=
      (inRange_iff all).mpr ⟨few, fun doubt => nineteen doubt.1⟩
    apply iff_of_true (iff_of_true fits inRange)
    intro misread
    cases misread with
    | hex isHex => exact absurd isHex (by rw [notHex]; decide)
    | least _ _ isLeast =>
        have bounds := value_bounds all
        have max : maxLengthOfLong = 20 := rfl
        omega
    | shifted _ nineteen' => exact nineteen nineteen'

theorem Leading.parts (leading : Leading text sign int junk) : Parts int [] [] [] junk where
  int_digits := (isDigits_iff.mp leading.digits).2
  fraction_digits := by simp
  point_cases := .inr ⟨rfl, rfl⟩
  exponent_cases := .inl rfl
  int_ends := leading.ends
  fraction_ends := leading.ends
  no_point := fun _ => leading.point
  no_exponent := fun _ => leading.exponent
  exponent_ends := fun nonempty => absurd rfl nonempty

theorem toInt_clampLong_eq_zero {number : Nat} : (clampLong number).toInt = 0 ↔ number = 0 := by
  have clamped : clampLong number = clampLong (min (number : Int) (2 ^ 63 - 1)) := by
    rw [clampLong, clampLong]
    congr 1
    omega
  rw [clamped, toInt_clampLong ⟨by omega, by omega⟩]
  omega

theorem hexValue_eq_zero {digits : List UInt8} (areDigits : ∀ c ∈ digits, isXdigit c = true)
    (zero : hexValue digits = 0) : digits.dropWhile (· == byte '0') = [] := by
  cases split : digits.dropWhile (· == byte '0') with
  | nil => rfl
  | cons c rest =>
      have isX := areDigits c (mem_significant (by rw [split]; exact List.mem_cons_self))
      have positive := xdigit_pos isX (head_significant split)
      have large : xdigit c * 16 ^ rest.length ≤ hexValue (c :: rest) := digit_mul_le_number c rest
      rw [← split, hexValue_significant, zero] at large
      have power : 0 < 16 ^ rest.length := Nat.pow_pos (by decide)
      have product := Nat.mul_pos positive power
      omega

/-- A hexadecimal number is read in place of the zero in front of the `x`. -/
theorem leading_hex_iff (leading : Leading text sign int junk)
    (isHex : isHexText (sign ++ (int ++ junk)) = true) {result : Numeric}
    (verdict : SameVerdict result (verdictOf (sign ++ (int ++ junk)) true
      (checkDigits (sign ++ (int ++ junk)) false true 0 ((sign ++ (int ++ junk)).length + 1)
        (2 + run (· == byte '0') (sign ++ (int ++ junk)) 2) 0))) :
    ReadsNumber result (decimalNumber sign int) ↔ ¬ Misread sign int junk := by
  obtain ⟨rfl, -, -, -⟩ := parts_of_hex leading.sign leading.parts isHex
  obtain ⟨x, rest, isX, nonempty, equal⟩ := isHexText_split isHex
  have noSign : sign = [] := by
    rcases leading.sign with empty | rfl | rfl
    · exact empty
    · exact absurd (List.cons.inj equal).1 (by decide)
    · exact absurd (List.cons.inj equal).1 (by decide)
  subst noSign
  obtain rfl : junk = x :: rest := (List.cons.inj equal).2
  have inRange : InRange (decimalNumber [] [byte '0']) := by
    unfold InRange
    decide
  have areDigits := forall_takeWhile isXdigit rest
  have ends := ends_takeWhile isXdigit rest
  have whole := @List.takeWhile_append_dropWhile _ isXdigit rest
  by_cases zero : hexValue (rest.takeWhile isXdigit) = 0
  · have fine : ¬ Misread [] [byte '0'] (x :: rest) := by
      intro misread
      cases misread with
      | hex _ nonzero => exact nonzero zero
      | least _ minus => cases minus
      | shifted _ nineteen => cases nineteen
    have hexEnds : Ends (isNumeral true) (rest.dropWhile isXdigit) := isNumeral_hex ▸ ends
    have pass : ∀ c ∈ rest.takeWhile isXdigit, isNumeral true c = true :=
      isNumeral_hex ▸ areDigits
    have start := @scan_start [byte '0', x] (rest.takeWhile isXdigit) _ true hexEnds
    have loop := @scan_digits [byte '0', x] _ _ true false pass hexEnds
    have same : [byte '0', x] ++ rest = [] ++ ([byte '0'] ++ x :: rest) := rfl
    have two : [byte '0', x].length = 2 := rfl
    rw [whole, same, two] at start loop
    rw [if_neg (fun many => Bool.false_ne_true many.1), hexValue_eq_zero areDigits zero,
      leaveDigits, if_pos rfl, ← start] at loop
    have fits : FitsLong ([] ++ ([byte '0'] ++ x :: rest))
        (2 + (rest.takeWhile isXdigit).length) 0 := fun doubt => absurd doubt.1 (by decide)
    rw [loop, verdictOf, if_pos (.inl (by decide)), List.length_nil, if_pos fits] at verdict
    apply iff_of_true _ fine
    rw [ReadsNumber, verdict.1, verdict.2]
    refine ⟨iff_of_true rfl inRange, fun _ => congrArg some ?_⟩
    exact toInt_clampLong_eq_zero.mpr zero
  · apply iff_of_false _ (not_not.mpr (.hex isHex zero))
    intro reads
    have long := reads.1.mpr inRange
    have number := reads.2 inRange
    rw [verdict.1] at long
    rw [verdict.2] at number
    rw [verdictOf_long long] at number
    exact zero (toInt_clampLong_eq_zero.mp (Option.some.inj number))

/-- `is_numeric_string_ex` with errors allowed reads the number in front exactly if the bytes
behind it do not make it be misread. -/
theorem isNumericStringEx_leading_iff (conversions : Conversions) (dval : Bool) (allowErrors : Int)
    (text sign int junk : List UInt8) (errors : allowErrors = 1 ∨ allowErrors = -1)
    (leading : Leading text sign int junk) :
    ReadsNumber (isNumericStringEx conversions dval allowErrors text) (decimalNumber sign int) ↔
      ¬ Misread sign int junk := by
  have some : allowErrors ≠ 0 := by omega
  have all := (isDigits_iff.mp leading.digits).2
  have first := leading.first_digit
  have facts := sign_facts leading.sign (.inl first)
  have verdict := @scanNumber_verdict conversions dval allowErrors some (sign ++ (int ++ junk))
  rw [isNumericStringEx_digit (by rw [leading.body, facts.1, read_behind]; exact first),
    leading.body]
  cases isHex : isHexText (sign ++ (int ++ junk)) with
  | true =>
      rw [isHex] at verdict
      exact leading_hex_iff leading isHex verdict
  | false =>
      have ends : Ends (isNumeral false) junk := isNumeral_decimal ▸ leading.ends
      have pass : ∀ c ∈ int, isNumeral false c = true := isNumeral_decimal ▸ all
      have loop := @scan_digits sign int junk false false pass ends
      rw [isHex, if_neg Bool.false_ne_true, facts.1, scan_start ends, loop,
        if_neg (fun many => Bool.false_ne_true many.1)] at verdict
      have leaves := @leave_leading junk (sign ++ int) (int.dropWhile (· == byte '0')).length
        leading.point leading.exponent
      rw [List.append_assoc, List.length_append] at leaves
      rw [leaves, verdictOf] at verdict
      have number : strtol (sign ++ (int ++ junk)) = clampLong (decimalNumber sign int) := by
        simp only [strtol, facts.1, List.drop_left, takeWhile_ends all leading.ends, facts.2,
          decimalNumber]
      by_cases few : maxLengthOfLong ≤ (int.dropWhile (· == byte '0')).length
      · have outside : ¬ InRange (decimalNumber sign int) :=
          fun inRange => ((inRange_iff all).mp inRange).1 few
        rw [if_neg (show ¬ FewDigits _ false _ _ from not_not.mpr few)] at verdict
        apply iff_of_true
        · refine ⟨iff_of_false ?_ outside, fun inRange => absurd inRange outside⟩
          rw [verdict.1]
          exact fun long => absurd long (by decide)
        · intro misread
          cases misread with
          | hex hex => cases isHex.symm.trans hex
          | least _ _ isLeast =>
              have bounds := (value_bounds all).1 few
              omega
          | shifted _ nineteen =>
              rw [nineteen] at few
              exact absurd few (by decide)
      · have fits := fitsLong_iff leading isHex few
        rw [List.length_append] at fits
        rw [if_pos (show FewDigits _ false _ _ from few)] at verdict
        rw [← fits]
        apply readsNumber_iff _ verdict
        intro inRange
        rw [if_neg Bool.false_ne_true, number, toInt_clampLong inRange]

/-- A number in front of a letter. -/
theorem isNumericStringEx_letter :
    ReadsNumber (isNumericStringEx ⟨fun _ => 0, fun _ => 0⟩ false 1
      ([] ++ ("12".toList.map byte ++ "abc".toList.map byte))) 12 := by
  apply (isNumericStringEx_leading_iff ⟨fun _ => 0, fun _ => 0⟩ false 1 _ []
    ("12".toList.map byte) ("abc".toList.map byte) (.inl rfl) _).mpr
  · intro misread
    cases misread with
    | hex isHex => exact absurd isHex (by decide)
    | least _ minus => cases minus
    | shifted half => exact absurd half (by decide)
  · refine ⟨by decide, .inl rfl, by decide, ?_, by decide, not_startsExponent (by decide)⟩
    intro c member
    cases member
    decide

/-- The least long in front of a letter is no long. -/
theorem isNumericStringEx_least_letter :
    Leading ("-9223372036854775808x".toList.map byte) [byte '-'] longMinDigits [byte 'x'] ∧
      InRange (decimalNumber [byte '-'] longMinDigits) ∧
      (isNumericStringEx ⟨fun _ => 0, fun _ => 0⟩ false 1
        ("-9223372036854775808x".toList.map byte)).type = .double := by
  refine ⟨⟨by decide, .inr (.inr rfl), by decide, ?_, by decide,
    not_startsExponent (by decide)⟩, ?_, by decide⟩
  · intro c member
    cases member
    decide
  · unfold InRange
    decide

end PhpRuntime.Operators
