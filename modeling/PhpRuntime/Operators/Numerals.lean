import PhpRuntime.Operators.NumericString

/-! # Numerals

The forms of numbers that a string can have, and what `check_digits`, `zend_strtod` and
`zend_hex_strtod` read of them. A text behind the sign is its leading digits, a point with
digits, and an exponent, as far as they go.
-/

namespace PhpRuntime.Operators

open Decimal CString

/-! ## Forms -/

/-- A sign or nothing. -/
def IsSignText (sign : List UInt8) : Prop := sign = [] ∨ sign = [byte '+'] ∨ sign = [byte '-']

/-- A sign and decimal digits. -/
def IsDecimal (body : List UInt8) (number : Int) : Prop :=
  ∃ sign digits, IsSignText sign ∧ isDigits digits = true ∧ body = sign ++ digits ∧
    number = if sign = [byte '-'] then -(value digits : Int) else value digits

/-- `0x` or `0X` and hexadecimal digits. -/
def IsHex (body : List UInt8) (number : Int) : Prop :=
  ∃ x digits, (x = byte 'x' ∨ x = byte 'X') ∧ digits ≠ [] ∧ (∀ c ∈ digits, isXdigit c = true) ∧
    body = byte '0' :: x :: digits ∧ number = hexValue digits

/-- An exponent with its digits. -/
def IsExponentText (exponent : List UInt8) : Prop :=
  ∃ e sign digits, isExponent e = true ∧ IsSignText sign ∧ isDigits digits = true ∧
    exponent = e :: (sign ++ digits)

/-- A decimal number with a point or an exponent, or both. -/
def IsFloating (body : List UInt8) : Prop :=
  ∃ sign int point fraction exponent, IsSignText sign ∧ (∀ c ∈ int, isDigit c = true) ∧
    (∀ c ∈ fraction, isDigit c = true) ∧
    (point = [byte '.'] ∨ (point = [] ∧ fraction = [])) ∧
    (exponent = [] ∨ IsExponentText exponent) ∧ (int ≠ [] ∨ fraction ≠ []) ∧
    (point ≠ [] ∨ exponent ≠ []) ∧ body = sign ++ (int ++ (point ++ (fraction ++ exponent)))

/-! ## The parts of a text -/

/-- The next byte, if there is one, fails the test. -/
def Ends (test : UInt8 → Bool) (text : List UInt8) : Prop := ∀ c ∈ text.head?, test c = false

/-- The text starts with a complete exponent. -/
def StartsExponent (text : List UInt8) : Prop :=
  ∃ e sign c rest, isExponent e = true ∧ IsSignText sign ∧ isDigit c = true ∧
    text = e :: (sign ++ c :: rest)

/-- Digits, a point with digits, an exponent and the rest of a text, each as long as possible. -/
structure Parts (int point fraction exponent junk : List UInt8) : Prop where
  int_digits : ∀ c ∈ int, isDigit c = true
  fraction_digits : ∀ c ∈ fraction, isDigit c = true
  point_cases : point = [byte '.'] ∨ (point = [] ∧ fraction = [])
  exponent_cases : exponent = [] ∨ IsExponentText exponent
  int_ends : Ends isDigit (point ++ (fraction ++ (exponent ++ junk)))
  fraction_ends : Ends isDigit (exponent ++ junk)
  no_point : point = [] → (exponent ++ junk).head? ≠ some (byte '.')
  no_exponent : exponent = [] → ¬ StartsExponent junk
  exponent_ends : exponent ≠ [] → Ends isDigit junk

theorem ends_takeWhile (test : UInt8 → Bool) (text : List UInt8) :
    Ends test (text.dropWhile test) := by
  intro c member
  have stopped := List.head?_dropWhile_not test text
  rw [member] at stopped
  exact stopped

theorem forall_takeWhile (test : UInt8 → Bool) (text : List UInt8) :
    ∀ c ∈ text.takeWhile test, test c = true := fun _ member => List.mem_takeWhile_imp member

/-- A text starts with an exponent or does not. -/
theorem exists_exponent (text : List UInt8) :
    ∃ exponent junk, text = exponent ++ junk ∧ (exponent = [] ∨ IsExponentText exponent) ∧
      (exponent = [] → ¬ StartsExponent junk) ∧ (exponent ≠ [] → Ends isDigit junk) := by
  by_cases starts : StartsExponent text
  · rcases starts with ⟨e, sign, c, rest, isE, isSign, digit, rfl⟩
    refine ⟨e :: (sign ++ (c :: rest).takeWhile isDigit), (c :: rest).dropWhile isDigit, ?_,
      Or.inr ⟨e, sign, _, isE, isSign, ?_, rfl⟩, fun empty => (by cases empty),
      fun _ => ends_takeWhile isDigit _⟩
    · rw [List.cons_append, List.append_assoc, List.takeWhile_append_dropWhile]
    · rw [isDigits_iff]
      exact ⟨by simp [digit], forall_takeWhile isDigit _⟩
  · exact ⟨[], text, rfl, Or.inl rfl, fun _ => starts, fun nonempty => absurd rfl nonempty⟩

/-- Every text has its parts. -/
theorem exists_parts (text : List UInt8) :
    ∃ int point fraction exponent junk, Parts int point fraction exponent junk ∧
      text = int ++ (point ++ (fraction ++ (exponent ++ junk))) := by
  have tail := ends_takeWhile isDigit text
  have split := (List.takeWhile_append_dropWhile (p := isDigit) (l := text)).symm
  have digits := forall_takeWhile isDigit text
  generalize text.takeWhile isDigit = int at split digits
  generalize text.dropWhile isDigit = rest at split tail
  by_cases isPoint : rest.head? = some (byte '.')
  · cases rest with
    | nil => cases isPoint
    | cons c rest =>
        simp only [List.head?_cons, Option.some.injEq] at isPoint
        subst isPoint
        rcases exists_exponent (rest.dropWhile isDigit) with
          ⟨exponent, junk, equal, cases, none, ends⟩
        have later := ends_takeWhile isDigit rest
        rw [equal] at later
        refine ⟨int, [byte '.'], rest.takeWhile isDigit, exponent, junk,
          ⟨digits, forall_takeWhile isDigit rest, Or.inl rfl, cases, ?_, later,
            fun empty => (by cases empty), none, ends⟩, ?_⟩
        · intro c member
          rw [List.singleton_append, List.head?_cons, Option.mem_some_iff] at member
          rw [← member]
          decide
        · rw [split, ← equal, List.takeWhile_append_dropWhile]
          rfl
  · rcases exists_exponent rest with ⟨exponent, junk, equal, cases, none, ends⟩
    rw [equal] at tail isPoint split
    exact ⟨int, [], [], exponent, junk,
      ⟨digits, by simp, Or.inr ⟨rfl, rfl⟩, cases, tail, tail, fun _ => isPoint, none, ends⟩, split⟩

/-! ## Reading behind a prefix -/

section Reading

variable {before : List UInt8}

theorem read_append (before text : List UInt8) (offset : Nat) :
    read (before ++ text) (before.length + offset) = read text offset := by
  rw [CString.read, CString.read, List.getD_eq_getElem?_getD, List.getD_eq_getElem?_getD,
    List.getElem?_append_right (Nat.le_add_right _ _), Nat.add_sub_cancel_left]

theorem read_behind (before text : List UInt8) :
    read (before ++ text) before.length = read text 0 := read_append before text 0

theorem takeWhile_ends {test : UInt8 → Bool} {digits rest : List UInt8}
    (pass : ∀ c ∈ digits, test c = true) (ends : Ends test rest) :
    (digits ++ rest).takeWhile test = digits := by
  rw [List.takeWhile_append_of_pos pass]
  cases rest with
  | nil => simp
  | cons c rest => simp [ends c rfl]

theorem run_append {test : UInt8 → Bool} {digits rest : List UInt8}
    (pass : ∀ c ∈ digits, test c = true) (ends : Ends test rest) :
    run test (before ++ (digits ++ rest)) before.length = digits.length := by
  rw [run, List.drop_left, takeWhile_ends pass ends]

theorem read_of_ends {test : UInt8 → Bool} {rest : List UInt8} (ends : Ends test rest)
    (nul : test 0 = false) : test (read rest 0) = false := by
  cases rest with
  | nil => exact nul
  | cons c rest => exact ends c rfl

/-- A byte that is not NUL is inside the string. -/
theorem lt_of_read {str : List UInt8} {ptr : Nat} (nonzero : read str ptr ≠ 0) :
    ptr < str.length := by
  by_contra outside
  apply nonzero
  rw [CString.read, List.getD_eq_getElem?_getD, List.getElem?_eq_none (Nat.not_lt.mp outside)]
  rfl

/-- The loop runs over the digits. -/
theorem checkDigits_run {limited hex : Bool} {dpOrE : Int} {digits rest : List UInt8}
    (fuel count : Nat) (pass : ∀ c ∈ digits, isNumeral hex c = true)
    (ends : Ends (isNumeral hex) rest) (enough : digits.length < fuel)
    (small : limited = true → count + digits.length < maxLengthOfLong) :
    checkDigits (before ++ (digits ++ rest)) limited hex dpOrE fuel before.length count =
      leaveDigits (before ++ (digits ++ rest)) hex dpOrE (before.length + digits.length)
        (count + digits.length) := by
  induction digits generalizing before fuel count with
  | nil =>
      rcases Nat.exists_eq_succ_of_ne_zero (Nat.ne_of_gt enough) with ⟨fuel, rfl⟩
      rw [checkDigits, read_behind, List.nil_append,
        read_of_ends ends (by cases hex <;> decide)]
      rfl
  | cons c digits induction =>
      rcases Nat.exists_eq_succ_of_ne_zero (Nat.ne_of_gt (Nat.lt_trans (Nat.succ_pos _) enough))
        with ⟨fuel, rfl⟩
      have first : read (before ++ (c :: digits ++ rest)) before.length = c := by
        rw [read_behind]
        rfl
      have below : (limited && decide (maxLengthOfLong ≤ count + 1)) = false := by
        cases limited with
        | false => rfl
        | true =>
            have bound := small rfl
            rw [List.length_cons] at bound
            simp only [Bool.true_and, decide_eq_false_iff_not]
            omega
      have next := @induction (before ++ [c]) fuel (count + 1)
        (fun d member => pass d (List.mem_cons_of_mem _ member))
        (Nat.lt_of_succ_lt_succ enough)
        (fun isLimited => by
          have bound := small isLimited
          rw [List.length_cons] at bound
          omega)
      rw [checkDigits, first, if_pos (pass c List.mem_cons_self), below]
      simp only [List.append_assoc, List.singleton_append, List.length_append,
        List.length_singleton] at next
      simp only [Bool.false_eq_true, if_false, List.cons_append, List.length_cons]
      rw [next]
      congr 1 <;> omega

/-- The loop stops when there are too many digits for a `long`. -/
theorem checkDigits_limit {hex : Bool} {dpOrE : Int} {digits rest : List UInt8}
    (fuel count : Nat) (pass : ∀ c ∈ digits, isNumeral hex c = true)
    (enough : digits.length < fuel) (started : count < maxLengthOfLong)
    (large : maxLengthOfLong ≤ count + digits.length) :
    checkDigits (before ++ (digits ++ rest)) true hex dpOrE fuel before.length count =
      .stop (before.length + (maxLengthOfLong - count)) maxLengthOfLong := by
  induction digits generalizing before fuel count with
  | nil =>
      rw [List.length_nil] at large
      omega
  | cons c digits induction =>
      rcases Nat.exists_eq_succ_of_ne_zero (Nat.ne_of_gt (Nat.lt_trans (Nat.succ_pos _) enough))
        with ⟨fuel, rfl⟩
      have first : read (before ++ (c :: digits ++ rest)) before.length = c := by
        rw [read_behind]
        rfl
      rw [checkDigits, first, if_pos (pass c List.mem_cons_self)]
      by_cases last : maxLengthOfLong ≤ count + 1
      · have equal : count + 1 = maxLengthOfLong := by omega
        simp only [Bool.true_and, last, decide_true, if_true, Exit.stop.injEq]
        omega
      · have next := @induction (before ++ [c]) fuel (count + 1)
          (fun d member => pass d (List.mem_cons_of_mem _ member))
          (Nat.lt_of_succ_lt_succ enough) (by omega)
          (by rw [List.length_cons] at large; omega)
        simp only [List.append_assoc, List.singleton_append, List.length_append,
          List.length_singleton] at next
        simp only [Bool.true_and, last, decide_false, Bool.false_eq_true, if_false,
          List.cons_append]
        rw [next, Exit.stop.injEq]
        omega

end Reading

/-! ## Behind the digits -/

section Leaving

variable {before exponent junk : List UInt8} {dpOrE : Int} {count : Nat}

theorem leave_point (rest : List UInt8) (first : dpOrE < 1) :
    leaveDigits (before ++ byte '.' :: rest) false dpOrE before.length count =
      .double before.length count := by
  have isPoint : read (before ++ byte '.' :: rest) before.length = byte '.' := by
    rw [read_behind]
    rfl
  rw [leaveDigits, isPoint]
  simp [first]

theorem isSign_of_digit {c : UInt8} (digit : isDigit c = true) : isSign c = false := by
  rw [Bool.eq_false_iff]
  intro sign
  simp only [isSign, Bool.or_eq_true, beq_iff_eq] at sign
  rcases sign with rfl | rfl
  · exact absurd digit (by decide)
  · exact absurd digit (by decide)

theorem not_point_of_exponent {e : UInt8} (isE : isExponent e = true) : e ≠ byte '.' := by
  rintro rfl
  exact absurd isE (by decide)

theorem not_digit_of_exponent {e : UInt8} (isE : isExponent e = true) : isDigit e = false := by
  simp only [isExponent, Bool.or_eq_true, beq_iff_eq] at isE
  rcases isE with rfl | rfl <;> decide

/-- Where the digits of a complete exponent start. -/
theorem exponentStart_eq {e c : UInt8} {sign rest : List UInt8} (isSignText : IsSignText sign)
    (digit : isDigit c = true) :
    exponentStart (before ++ e :: (sign ++ c :: rest)) before.length =
        before.length + 1 + sign.length ∧
      (if isSign (read (before ++ e :: (sign ++ c :: rest)) (before.length + 1)) = true then
        before.length + 1 else before.length) = before.length + sign.length ∧
      read (before ++ e :: (sign ++ c :: rest)) (before.length + 1 + sign.length) = c := by
  rw [exponentStart, Nat.add_assoc, read_append, read_append]
  rcases isSignText with rfl | rfl | rfl
  · change _ ∧ (if isSign c = true then _ else _) = _ ∧ _
    have next : read (e :: ([] ++ c :: rest)) 1 = c := rfl
    rw [next, isSign_of_digit digit]
    exact ⟨rfl, rfl, rfl⟩
  · exact ⟨rfl, rfl, rfl⟩
  · exact ⟨rfl, rfl, rfl⟩

/-- There is a digit where the digits of an exponent start, if it is complete. -/
theorem startsExponent_iff {e : UInt8} {rest : List UInt8} (isE : isExponent e = true) :
    isDigit (read (before ++ e :: rest) (exponentStart (before ++ e :: rest) before.length)) =
      true ↔ StartsExponent (e :: rest) := by
  constructor
  · intro digit
    rw [exponentStart] at digit
    split_ifs at digit with signed
    · rw [read_append] at digit signed
      match rest with
      | [] | [_] => exact absurd (show isDigit 0 = true from digit) (by decide)
      | s :: d :: rest =>
          change isSign s = true at signed
          simp only [isSign, Bool.or_eq_true, beq_iff_eq] at signed
          refine ⟨e, [s], d, rest, isE, ?_, digit, rfl⟩
          rcases signed with rfl | rfl
          · exact Or.inr (Or.inr rfl)
          · exact Or.inr (Or.inl rfl)
    · rw [read_append] at digit
      match rest with
      | [] => exact absurd (show isDigit 0 = true from digit) (by decide)
      | d :: rest => exact ⟨e, [], d, rest, isE, Or.inl rfl, digit, rfl⟩
  · rintro ⟨_, sign, c, more, _, isSignText, digit, equal⟩
    cases equal
    rw [(exponentStart_eq isSignText digit).1, (exponentStart_eq isSignText digit).2.2]
    exact digit

theorem leave_exponent {e c : UInt8} {sign rest : List UInt8} (isE : isExponent e = true)
    (isSignText : IsSignText sign) (digit : isDigit c = true) (second : dpOrE < 2) :
    leaveDigits (before ++ e :: (sign ++ c :: rest)) false dpOrE before.length count =
      .double (before.length + sign.length) count := by
  have first : read (before ++ e :: (sign ++ c :: rest)) before.length = e := by
    rw [read_behind]
    rfl
  have starts := (@startsExponent_iff before e (sign ++ c :: rest) isE).mpr
    ⟨e, sign, c, rest, isE, isSignText, digit, rfl⟩
  rw [leaveDigits, first]
  simp only [Bool.false_eq_true, if_false, not_point_of_exponent isE, false_and, isE, second,
    and_self, if_true, starts, (exponentStart_eq isSignText digit).2.1]

/-- Anything else ends the loop, at the end of the string only if there is nothing. -/
theorem leave_junk (ends : dpOrE < 1 → junk.head? ≠ some (byte '.'))
    (none : dpOrE < 2 → ¬ StartsExponent junk) :
    ∃ ptr, leaveDigits (before ++ junk) false dpOrE before.length count = .stop ptr count ∧
      (junk = [] → ptr = before.length) ∧ (junk ≠ [] → ptr < (before ++ junk).length) := by
  cases junk with
  | nil =>
      refine ⟨before.length, ?_, fun _ => rfl, fun nonempty => absurd rfl nonempty⟩
      have nul : read (before ++ []) before.length = 0 := read_behind before []
      rw [leaveDigits, nul]
      simp [show isExponent 0 = false by decide, show ¬ (0 : UInt8) = byte '.' by decide]
  | cons c rest =>
      have first : read (before ++ c :: rest) before.length = c := read_behind before (c :: rest)
      have inside : before.length < (before ++ c :: rest).length := by simp
      rw [leaveDigits, first]
      by_cases point : c = byte '.' ∧ dpOrE < 1
      · exact absurd (by rw [point.1]; rfl) (ends point.2)
      · by_cases isE : isExponent c = true ∧ dpOrE < 2
        · have notDigit := mt (@startsExponent_iff before c rest isE.1).mp (none isE.2)
          simp only [Bool.false_eq_true, if_false, point, isE, and_self, if_true, notDigit]
          refine ⟨_, rfl, fun empty => (by cases empty), fun _ => ?_⟩
          split_ifs with signed
          · apply lt_of_read
            intro nul
            rw [nul] at signed
            exact absurd signed (by decide)
          · exact inside
        · simp only [Bool.false_eq_true, if_false, point, isE]
          exact ⟨before.length, rfl, fun _ => rfl, fun _ => inside⟩

end Leaving

/-! ## `zend_strtod` -/

section Strtod

variable {before : List UInt8}

theorem isDigits_cons {digits : List UInt8} (areDigits : isDigits digits = true) :
    ∃ c rest, digits = c :: rest ∧ isDigit c = true ∧ ∀ d ∈ digits, isDigit d = true := by
  rw [isDigits_iff] at areDigits
  cases digits with
  | nil => exact absurd rfl areDigits.1
  | cons c rest => exact ⟨c, rest, rfl, areDigits.2 c List.mem_cons_self, areDigits.2⟩

theorem exponentEnd_exponent {exponent junk : List UInt8} (isExponentText : IsExponentText exponent)
    (ends : Ends isDigit junk) :
    exponentEnd (before ++ (exponent ++ junk)) before.length = before.length + exponent.length := by
  rcases isExponentText with ⟨e, sign, digits, isE, isSignText, areDigits, rfl⟩
  rcases isDigits_cons areDigits with ⟨c, rest, rfl, digit, all⟩
  have text : before ++ (e :: (sign ++ c :: rest) ++ junk) =
      before ++ e :: (sign ++ c :: (rest ++ junk)) := by simp
  have first : read (before ++ e :: (sign ++ c :: (rest ++ junk))) before.length = e := by
    rw [read_behind]
    rfl
  have counted : run isDigit (before ++ e :: (sign ++ c :: (rest ++ junk)))
      (before.length + 1 + sign.length) = (c :: rest).length := by
    have whole := @run_append (before ++ e :: sign) isDigit (c :: rest) junk all ends
    simpa [Nat.add_assoc, Nat.add_comm, Nat.add_left_comm] using whole
  rw [text, exponentEnd, first, isE]
  simp only [if_true, (exponentStart_eq isSignText digit).1, (exponentStart_eq isSignText digit).2.2,
    digit, counted, List.length_cons, List.length_append]
  omega

theorem exponentEnd_none {junk : List UInt8} (none : ¬ StartsExponent junk) :
    exponentEnd (before ++ junk) before.length = before.length := by
  rw [exponentEnd]
  split_ifs with isE
  · cases junk with
    | nil =>
        rw [read_behind] at isE
        exact absurd isE (by decide)
    | cons c rest =>
        rw [read_behind] at isE
        have notDigit := mt (@startsExponent_iff before c rest isE).mp none
        simp only [notDigit, Bool.false_eq_true, if_false]
  · rfl

/-- `zend_strtod` reads a sign and the parts of the text behind it. -/
theorem zendStrtodEnd_parts {sign int point fraction exponent junk : List UInt8}
    (parts : Parts int point fraction exponent junk) (digits : int ≠ [] ∨ fraction ≠ [])
    (isSigned : signLength (sign ++ (int ++ (point ++ (fraction ++ (exponent ++ junk))))) =
      sign.length) :
    zendStrtodEnd (sign ++ (int ++ (point ++ (fraction ++ (exponent ++ junk))))) =
      sign.length + int.length + point.length + fraction.length + exponent.length := by
  have exponentEnds (before : List UInt8) : exponentEnd (before ++ (exponent ++ junk))
      before.length = before.length + exponent.length := by
    cases parts.exponent_cases with
    | inl empty =>
        rw [empty, List.nil_append, List.length_nil]
        exact exponentEnd_none (parts.no_exponent empty)
    | inr isExponentText =>
        apply exponentEnd_exponent isExponentText
        apply parts.exponent_ends
        rcases isExponentText with ⟨_, _, _, _, _, _, rfl⟩
        simp
  have intRun := @run_append sign isDigit int _ parts.int_digits parts.int_ends
  rw [zendStrtodEnd, isSigned, intRun]
  cases parts.point_cases with
  | inl isPoint =>
      subst isPoint
      have text : sign ++ (int ++ ([byte '.'] ++ (fraction ++ (exponent ++ junk)))) =
          (sign ++ int ++ [byte '.']) ++ (fraction ++ (exponent ++ junk)) := by simp
      have length : sign.length + int.length + 1 = (sign ++ int ++ [byte '.']).length := by
        simp only [List.length_append, List.length_singleton]
      have atPoint : read (sign ++ (int ++ ([byte '.'] ++ (fraction ++ (exponent ++ junk)))))
          (sign.length + int.length) = byte '.' := by
        rw [← List.append_assoc, ← List.length_append, read_behind]
        rfl
      have fractionRun := @run_append (sign ++ int ++ [byte '.']) isDigit fraction _
        parts.fraction_digits parts.fraction_ends
      simp only [atPoint, if_true]
      rw [text, length, fractionRun]
      have some : ¬ (sign.length + int.length = sign.length ∧ fraction.length = 0) := by
        rintro ⟨noInt, noFraction⟩
        cases digits with
        | inl int => exact int (List.length_eq_zero_iff.mp (by omega))
        | inr fraction => exact fraction (List.length_eq_zero_iff.mp noFraction)
      rw [if_neg some, ← List.append_assoc, ← List.length_append, exponentEnds]
      simp only [List.length_append, List.length_singleton]
  | inr noPoint =>
      rcases noPoint with ⟨rfl, rfl⟩
      have notPoint : read (sign ++ (int ++ ([] ++ ([] ++ (exponent ++ junk)))))
          (sign.length + int.length) ≠ byte '.' := by
        rw [← List.append_assoc, ← List.length_append, read_behind]
        intro isPoint
        have head := parts.no_point rfl
        rw [List.nil_append, List.nil_append] at isPoint
        cases rest : exponent ++ junk with
        | nil =>
            rw [rest] at isPoint
            exact absurd isPoint (by decide)
        | cons c more =>
            rw [rest] at isPoint head
            exact head (congrArg some isPoint)
      have some : ¬ sign.length + int.length = sign.length := by
        intro noInt
        cases digits with
        | inl int => exact int (List.length_eq_zero_iff.mp (by omega))
        | inr fraction => exact fraction rfl
      simp only [notPoint, if_false, some]
      rw [← List.append_assoc, ← List.length_append]
      have ends := exponentEnds (sign ++ int)
      simpa using ends

end Strtod

/-! ## Scanning without `dval` -/

section Scanning

variable {before : List UInt8}

/-- The number of digits in an exponent. -/
def exponentCount (exponent : List UInt8) : Nat := (exponent.filter isDigit).length

theorem exponentCount_eq {e : UInt8} {sign digits : List UInt8} (isE : isExponent e = true)
    (isSignText : IsSignText sign) (areDigits : ∀ c ∈ digits, isDigit c = true) :
    exponentCount (e :: (sign ++ digits)) = digits.length := by
  have noSign : sign.filter isDigit = [] := by
    rcases isSignText with rfl | rfl | rfl <;> decide
  rw [exponentCount, List.filter_cons_of_neg (by rw [not_digit_of_exponent isE]; decide),
    List.filter_append, noSign, List.nil_append, List.filter_eq_self.mpr areDigits]

theorem isNumeral_decimal : isNumeral false = isDigit := by
  funext c
  simp [isNumeral]

/-- A complete exponent is read up to its end. -/
theorem scanDouble_exponent {e : UInt8} {sign digits junk : List UInt8} (fuel count : Nat)
    (isE : isExponent e = true) (isSignText : IsSignText sign)
    (areDigits : isDigits digits = true) (ends : Ends isDigit junk) :
    scanDouble (before ++ (e :: (sign ++ digits) ++ junk)) (fuel + 1)
        (before.length + sign.length) count =
      ((before ++ e :: (sign ++ digits)).length, count + digits.length) := by
  have text : before ++ (e :: (sign ++ digits) ++ junk) =
      (before ++ e :: sign) ++ (digits ++ junk) := by simp
  have notPoint : read (before ++ (e :: (sign ++ digits) ++ junk))
      (before.length + sign.length) ≠ byte '.' := by
    rw [read_append]
    rcases isSignText with rfl | rfl | rfl
    · exact not_point_of_exponent isE
    · change byte '+' ≠ byte '.'
      decide
    · change byte '-' ≠ byte '.'
      decide
  have length : before.length + sign.length + 1 = (before ++ e :: sign).length := by
    simp only [List.length_append, List.length_cons]
    omega
  have enough : digits.length < (before ++ e :: sign ++ (digits ++ junk)).length + 1 := by
    simp only [List.length_append]
    omega
  rw [scanDouble, if_neg notPoint, text, length]
  rw [checkDigits_run _ _ (by rw [isNumeral_decimal]; exact (isDigits_iff.mp areDigits).2)
    (by rw [isNumeral_decimal]; exact ends) enough (by simp)]
  rw [leaveDigits]
  simp only [Bool.false_eq_true, if_false, Int.reduceLT, and_false, Prod.mk.injEq, and_true]
  simp only [List.length_append, List.length_cons]
  omega

/-- A point, digits and an exponent are read up to the rest of the text. -/
theorem scanDouble_point {int fraction exponent junk : List UInt8} (count : Nat)
    (parts : Parts int [byte '.'] fraction exponent junk) :
    ∃ ptr, scanDouble (before ++ ([byte '.'] ++ (fraction ++ (exponent ++ junk)))) 2
        before.length count = (ptr, count + fraction.length + exponentCount exponent) ∧
      (ptr = (before ++ ([byte '.'] ++ (fraction ++ (exponent ++ junk)))).length ↔ junk = []) := by
  have isPoint : read (before ++ ([byte '.'] ++ (fraction ++ (exponent ++ junk)))) before.length =
      byte '.' := by
    rw [read_behind]
    rfl
  have text : before ++ ([byte '.'] ++ (fraction ++ (exponent ++ junk))) =
      (before ++ [byte '.']) ++ (fraction ++ (exponent ++ junk)) := by simp
  have length : before.length + 1 = (before ++ [byte '.']).length := by simp
  have enough : fraction.length <
      (before ++ [byte '.'] ++ (fraction ++ (exponent ++ junk))).length + 1 := by
    simp only [List.length_append]
    omega
  rw [scanDouble, if_pos isPoint, text, length]
  rw [checkDigits_run _ _ (by rw [isNumeral_decimal]; exact parts.fraction_digits)
    (by rw [isNumeral_decimal]; exact parts.fraction_ends) enough (by simp)]
  rw [← List.append_assoc, ← List.length_append]
  cases parts.exponent_cases with
  | inl empty =>
      subst empty
      rw [List.nil_append]
      rcases @leave_junk (before ++ [byte '.'] ++ fraction) junk 1 (count + fraction.length)
        (by simp) (fun _ => parts.no_exponent rfl) with ⟨ptr, leaves, atEnd, inside⟩
      rw [leaves]
      refine ⟨ptr, rfl, fun equal => ?_, fun empty => ?_⟩
      · by_contra nonempty
        exact absurd equal (Nat.ne_of_lt (inside nonempty))
      · rw [atEnd empty, empty, List.append_nil]
  | inr isExponentText =>
      have ends : Ends isDigit junk := by
        apply parts.exponent_ends
        rcases isExponentText with ⟨_, _, _, _, _, _, rfl⟩
        simp
      rcases isExponentText with ⟨e, sign, digits, isE, isSignText, areDigits, rfl⟩
      rcases isDigits_cons areDigits with ⟨c, rest, rfl, digit, all⟩
      have cut : e :: (sign ++ c :: rest) ++ junk = e :: (sign ++ c :: (rest ++ junk)) := by simp
      have leaves := @leave_exponent (before ++ [byte '.'] ++ fraction) 1
        (count + fraction.length) e c sign (rest ++ junk) isE isSignText digit (by decide)
      rw [← cut] at leaves
      rw [leaves]
      simp only
      rw [scanDouble_exponent 0 _ isE isSignText areDigits ends,
        exponentCount_eq isE isSignText all]
      refine ⟨_, rfl, fun equal => ?_, fun empty => by simp [empty]⟩
      simp only [List.length_append, List.length_cons] at equal
      exact List.length_eq_zero_iff.mp (by omega)

end Scanning

end PhpRuntime.Operators
