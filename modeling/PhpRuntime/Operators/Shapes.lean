import PhpRuntime.Operators.Classification

/-! # The shapes of texts

Every text is a hexadecimal number with something behind it, a decimal integer, another number
with something behind it, or nothing of these. The results for the shapes decide which texts
`is_numeric_string_ex` classifies as their form says.
-/

namespace PhpRuntime.Operators

open Decimal CString

/-! ## Leading whitespace -/

theorem isSpace_of_digit {c : UInt8} (digit : isDigit c = true) : isSpace c = false := by
  have range := isDigit_iff.mp digit
  rw [isSpace, Bool.or_eq_false_iff, beq_eq_false_iff_ne, Bool.and_eq_false_iff]
  constructor
  · rintro rfl
    exact absurd digit (by decide)
  · right
    rw [decide_eq_false_iff_not, UInt8.le_iff_toNat_le]
    have thirteen : (13 : UInt8).toNat = 13 := rfl
    omega

/-- A number starts at the first byte that is no whitespace. -/
theorem dropWhile_behindSpace {text body : List UInt8} (behind : BehindSpace text body)
    (ends : Ends isSpace body) : text.dropWhile isSpace = body := by
  rcases behind with ⟨space, allSpace, rfl⟩
  rw [List.dropWhile_append_of_pos allSpace]
  cases body with
  | nil => rfl
  | cons c rest => simp [ends c rfl]

theorem behindSpace_dropWhile (text : List UInt8) :
    BehindSpace text (text.dropWhile isSpace) :=
  ⟨text.takeWhile isSpace, forall_takeWhile isSpace text,
    List.takeWhile_append_dropWhile.symm⟩

/-- What holds behind whitespace holds at the first byte that is none. -/
theorem exists_behindSpace_iff {form : List UInt8 → Prop}
    (ends : ∀ body, form body → Ends isSpace body) (text : List UInt8) :
    (∃ body, BehindSpace text body ∧ form body) ↔ form (text.dropWhile isSpace) := by
  constructor
  · rintro ⟨body, behind, isForm⟩
    rw [dropWhile_behindSpace behind (ends body isForm)]
    exact isForm
  · intro isForm
    exact ⟨_, behindSpace_dropWhile text, isForm⟩

theorem ends_space_sign {sign rest : List UInt8} (isSignText : IsSignText sign)
    (ends : Ends isSpace rest) : Ends isSpace (sign ++ rest) := by
  rcases isSignText with rfl | rfl | rfl
  · exact ends
  · intro c member
    rw [← Option.mem_some_iff.mp member]
    decide
  · intro c member
    rw [← Option.mem_some_iff.mp member]
    decide

theorem ends_space_digits {digits rest : List UInt8} (areDigits : ∀ c ∈ digits, isDigit c = true)
    (ends : digits = [] → Ends isSpace rest) : Ends isSpace (digits ++ rest) := by
  cases digits with
  | nil => exact ends rfl
  | cons c digits =>
      intro d member
      rw [← Option.mem_some_iff.mp member]
      exact isSpace_of_digit (areDigits c List.mem_cons_self)

theorem IsDecimal.ends_space {body : List UInt8} {number : Int} (form : IsDecimal body number) :
    Ends isSpace body := by
  rcases form with ⟨sign, digits, isSignText, areDigits, rfl, _⟩
  have all := isDigits_iff.mp areDigits
  apply ends_space_sign isSignText
  have ends := @ends_space_digits digits [] all.2 (fun empty => absurd empty all.1)
  rwa [List.append_nil] at ends

theorem IsHex.ends_space {body : List UInt8} {number : Int} (form : IsHex body number) :
    Ends isSpace body := by
  rcases form with ⟨x, digits, _, _, _, rfl, _⟩
  intro c member
  rw [← Option.mem_some_iff.mp member]
  decide

theorem IsFloating.ends_space {body : List UInt8} (form : IsFloating body) :
    Ends isSpace body := by
  rcases form with ⟨sign, int, point, fraction, exponent, isSignText, intDigits, _, pointCases, _,
    digits, _, rfl⟩
  apply ends_space_sign isSignText
  apply ends_space_digits intDigits
  rintro rfl
  rcases pointCases with rfl | ⟨_, rfl⟩
  · intro c member
    rw [← Option.mem_some_iff.mp member]
    decide
  · simp at digits

/-! ## Shapes -/

/-- What the text behind the whitespace looks like. -/
inductive Shape (body : List UInt8) : Prop
  | hex (x : UInt8) (digits junk : List UInt8) (isX : x = byte 'x' ∨ x = byte 'X')
      (areDigits : ∀ c ∈ digits, isXdigit c = true) (ends : Ends isXdigit junk)
      (more : digits ++ junk ≠ []) (equal : body = [byte '0', x] ++ (digits ++ junk))
  | integer (sign int : List UInt8) (isSignText : IsSignText sign)
      (areDigits : isDigits int = true) (equal : body = sign ++ int)
  | number (sign int point fraction exponent junk : List UInt8) (isSignText : IsSignText sign)
      (parts : Parts int point fraction exponent junk) (digits : int ≠ [] ∨ fraction ≠ [])
      (more : point ++ (fraction ++ (exponent ++ junk)) ≠ []) (notHex : isHexText body = false)
      (equal : body = sign ++ (int ++ (point ++ (fraction ++ (exponent ++ junk)))))
  | other (noDigit : isDigit (read body (signLength body)) = false)
      (noPoint : ¬ (read body (signLength body) = byte '.' ∧
        isDigit (read body (signLength body + 1)) = true))

theorem isHexText_split {body : List UInt8} (isHex : isHexText body = true) :
    ∃ x rest, (x = byte 'x' ∨ x = byte 'X') ∧ rest ≠ [] ∧ body = byte '0' :: x :: rest := by
  simp only [isHexText, Bool.and_eq_true, Bool.or_eq_true, beq_iff_eq, decide_eq_true_eq] at isHex
  obtain ⟨⟨long, first⟩, second⟩ := isHex
  rcases body with _ | ⟨c, _ | ⟨x, _ | ⟨d, rest⟩⟩⟩
  · simp at long
  · simp at long
  · simp at long
  · refine ⟨x, d :: rest, second, by simp, ?_⟩
    rw [show c = byte '0' from first]

theorem exists_sign (body : List UInt8) :
    ∃ sign rest, IsSignText sign ∧ body = sign ++ rest ∧ signLength body = sign.length := by
  cases body with
  | nil => exact ⟨[], [], Or.inl rfl, rfl, rfl⟩
  | cons c rest =>
      have first : read (c :: rest) 0 = c := rfl
      by_cases signed : isSign c = true
      · refine ⟨[c], rest, ?_, rfl, by rw [signLength, first, if_pos signed]; rfl⟩
        simp only [isSign, Bool.or_eq_true, beq_iff_eq] at signed
        rcases signed with rfl | rfl
        · exact Or.inr (Or.inr rfl)
        · exact Or.inr (Or.inl rfl)
      · exact ⟨[], c :: rest, Or.inl rfl, rfl, by rw [signLength, first, if_neg signed]; rfl⟩

theorem exists_shape (body : List UInt8) : Shape body := by
  by_cases isHex : isHexText body = true
  · rcases isHexText_split isHex with ⟨x, rest, isX, nonempty, rfl⟩
    exact .hex x (rest.takeWhile isXdigit) (rest.dropWhile isXdigit) isX
      (forall_takeWhile isXdigit rest) (ends_takeWhile isXdigit rest)
      (by rwa [List.takeWhile_append_dropWhile]) (by rw [List.takeWhile_append_dropWhile]; rfl)
  · rw [Bool.not_eq_true] at isHex
    rcases exists_sign body with ⟨sign, rest, isSignText, rfl, start⟩
    rcases exists_parts rest with ⟨int, point, fraction, exponent, junk, parts, rfl⟩
    by_cases digits : int ≠ [] ∨ fraction ≠ []
    · by_cases more : point ++ (fraction ++ (exponent ++ junk)) ≠ []
      · exact .number sign int point fraction exponent junk isSignText parts digits more isHex rfl
      · rw [not_not] at more
        rw [more, List.append_nil]
        have noFraction : fraction = [] := (List.append_eq_nil_iff.mp
          (List.append_eq_nil_iff.mp more).2).1
        simp only [noFraction, ne_eq, not_true_eq_false, or_false] at digits
        exact .integer sign int isSignText (isDigits_iff.mpr ⟨digits, parts.int_digits⟩) rfl
    · rw [not_or, not_not, not_not] at digits
      rcases digits with ⟨rfl, rfl⟩
      have noDigit := read_of_ends parts.int_ends (by decide)
      apply Shape.other
      · rw [start, read_behind]
        exact noDigit
      · rw [start, read_behind, read_append]
        rintro ⟨isPoint, digit⟩
        rcases parts.point_cases with rfl | ⟨rfl, _⟩
        · have none := read_of_ends parts.fraction_ends (by decide)
          rw [show read ([] ++ ([byte '.'] ++ ([] ++ (exponent ++ junk)))) 1 =
            read (exponent ++ junk) 0 from rfl, none] at digit
          cases digit
        · simp only [List.nil_append] at isPoint
          apply parts.no_point rfl
          cases split : exponent ++ junk with
          | nil =>
              rw [split] at isPoint
              exact absurd isPoint (by decide)
          | cons c rest =>
              rw [split] at isPoint
              rw [List.head?_cons, ← isPoint]
              rfl

/-! ## Results for the shapes -/

section Results

variable {conversions : Conversions} {dval : Bool} {text : List UInt8}

/-- With a digit behind the sign the text is scanned. -/
theorem isNumericStringEx_digit {allowErrors : Int}
    (digit : isDigit (read (text.dropWhile isSpace) (signLength (text.dropWhile isSpace))) = true) :
    isNumericStringEx conversions dval allowErrors text =
      scanNumber conversions dval allowErrors (text.dropWhile isSpace) := by
  have nonempty : text ≠ [] := by
    rintro rfl
    exact absurd digit (by decide)
  rw [isNumericStringEx, if_neg nonempty]
  simp only [digit, if_true]

variable {sign int point fraction exponent junk : List UInt8}

theorem result_integer (isSignText : IsSignText sign) (areDigits : isDigits int = true)
    (body : text.dropWhile isSpace = sign ++ int) :
    let result := isNumericStringEx conversions dval 0 text
    (InRange (decimalNumber sign int) → result.type = .long ∧
      result.lval.map BitVec.toInt = some (decimalNumber sign int) ∧ result.oflowInfo = some 0) ∧
    (¬ InRange (decimalNumber sign int) → result.type = .double ∧
      result.oflowInfo = some (oflowOf sign)) := by
  have first := isDigit_first areDigits
  have facts := @sign_facts sign int isSignText (Or.inl first)
  rw [isNumericStringEx_digit (by rw [body, facts.1, read_behind]; exact first), body]
  exact scanNumber_integer isSignText areDigits

theorem result_hex {x : UInt8} {digits : List UInt8} (isX : x = byte 'x' ∨ x = byte 'X')
    (areDigits : ∀ c ∈ digits, isXdigit c = true) (ends : Ends isXdigit junk)
    (more : digits ++ junk ≠ [])
    (body : text.dropWhile isSpace = [byte '0', x] ++ (digits ++ junk)) :
    let result := isNumericStringEx conversions dval 0 text
    (hexValue digits < 2 ^ 63 → (result.type = if junk = [] then .long else .none) ∧
      (junk = [] → result.lval.map BitVec.toInt = some (hexValue digits : Int)) ∧
      result.oflowInfo = some 0) ∧
    (¬ hexValue digits < 2 ^ 63 → (result.type = if junk = [] then .double else .none) ∧
      result.oflowInfo = some 1) := by
  rw [isNumericStringEx_digit (by rw [body]; rfl), body]
  exact scanNumber_hex isX areDigits ends more

theorem result_number (isSignText : IsSignText sign)
    (parts : Parts int point fraction exponent junk) (digits : int ≠ [] ∨ fraction ≠ [])
    (more : point ++ (fraction ++ (exponent ++ junk)) ≠ [])
    (notHex : isHexText (text.dropWhile isSpace) = false)
    (body : text.dropWhile isSpace =
      sign ++ (int ++ (point ++ (fraction ++ (exponent ++ junk))))) :
    let result := isNumericStringEx conversions dval 0 text
    (result.type = if junk = [] then .double else .none) ∧
      result.oflowInfo = some (if maxLengthOfLong ≤ countedDigits dval int fraction exponent then
        oflowOf sign else 0) := by
  rw [body] at notHex
  by_cases nonempty : int ≠ []
  · have first : isDigit (read (int ++ (point ++ (fraction ++ (exponent ++ junk)))) 0) = true := by
      cases int with
      | nil => exact absurd rfl nonempty
      | cons c rest => exact parts.int_digits c List.mem_cons_self
    have facts := sign_facts isSignText (Or.inl first)
    rw [isNumericStringEx_digit (by rw [body, facts.1, read_behind]; exact first), body]
    exact scanNumber_noInteger isSignText parts nonempty more notHex
  · rw [not_not] at nonempty
    subst nonempty
    have hasFraction : fraction ≠ [] := by simpa using digits
    have isPoint : point = [byte '.'] := by
      rcases parts.point_cases with isPoint | ⟨_, empty⟩
      · exact isPoint
      · exact absurd empty hasFraction
    subst isPoint
    have starts : read ([] ++ ([byte '.'] ++ (fraction ++ (exponent ++ junk)))) 0 = byte '.' := rfl
    have facts := sign_facts isSignText (Or.inr starts)
    have digit : isDigit (read ([] ++ ([byte '.'] ++ (fraction ++ (exponent ++ junk)))) 1) =
        true := by
      cases fraction with
      | nil => exact absurd rfl hasFraction
      | cons c rest => exact parts.fraction_digits c List.mem_cons_self
    have result := @processDouble_point conversions dval sign [] fraction exponent junk isSignText
      parts digits (Or.inr starts) 0
    have nonemptyText : text ≠ [] := by
      rintro rfl
      exact absurd body (by simp)
    have noDigit : isDigit (byte '.') = false := by decide
    rw [isNumericStringEx, if_neg nonemptyText]
    simp only [body, facts.1, read_behind, read_append, starts, noDigit, Bool.false_eq_true, if_false,
      digit, and_self, if_true]
    have counted : (dval = false ∧
        maxLengthOfLong ≤ 0 + fraction.length + exponentCount exponent) ↔
        maxLengthOfLong ≤ countedDigits dval [] fraction exponent := by
      rw [countedDigits]
      cases dval with
      | true =>
          simp only [Bool.true_eq_false, false_and, if_true, false_iff]
          decide
      | false => simp
    simp only [counted, List.length_nil, Nat.add_zero] at result
    exact result

theorem result_other
    (noDigit : isDigit (read (text.dropWhile isSpace) (signLength (text.dropWhile isSpace))) = false)
    (noPoint : ¬ (read (text.dropWhile isSpace) (signLength (text.dropWhile isSpace)) = byte '.' ∧
      isDigit (read (text.dropWhile isSpace) (signLength (text.dropWhile isSpace) + 1)) = true)) :
    let result := isNumericStringEx conversions dval 0 text
    result.type = .none ∧ result.oflowInfo ≠ some 1 ∧ result.oflowInfo ≠ some (-1) := by
  rw [isNumericStringEx]
  split_ifs with empty
  · simp
  · simp only [noDigit, Bool.false_eq_true, if_false, noPoint]
    simp

/-! ## Results for the forms -/

/-- In front of an `x` there is only a zero. -/
theorem parts_of_hex (isSignText : IsSignText sign)
    (parts : Parts int point fraction exponent junk)
    (isHex : isHexText (sign ++ (int ++ (point ++ (fraction ++ (exponent ++ junk))))) = true) :
    int = [byte '0'] ∧ point = [] ∧ fraction = [] ∧ exponent = [] := by
  rcases isHexText_split isHex with ⟨x, rest, isX, _, equal⟩
  have noSign : sign = [] := by
    rcases isSignText with empty | rfl | rfl
    · exact empty
    · exact absurd (List.cons.inj equal).1 (by decide)
    · exact absurd (List.cons.inj equal).1 (by decide)
  have noDigit : isDigit x = false := by
    rcases isX with rfl | rfl <;> decide
  subst noSign
  rw [List.nil_append] at equal
  have tail : int = [byte '0'] ∧ point ++ (fraction ++ (exponent ++ junk)) = x :: rest := by
    match int, equal, parts with
    | [], equal, parts =>
        have ends := parts.int_ends
        rw [show point ++ (fraction ++ (exponent ++ junk)) = _ from equal] at ends
        exact absurd (ends _ rfl) (by decide)
    | [c], equal, _ => exact ⟨by rw [(List.cons.inj equal).1], (List.cons.inj equal).2⟩
    | c :: d :: int, equal, parts =>
        have second := (List.cons.inj (List.cons.inj equal).2).1
        have digit := parts.int_digits d (by simp)
        rw [second, noDigit] at digit
        cases digit
  apply And.intro tail.1
  rcases parts.point_cases with rfl | ⟨rfl, rfl⟩
  · have isPoint := (List.cons.inj tail.2).1
    rcases isX with rfl | rfl
    · exact absurd isPoint (by decide)
    · exact absurd isPoint (by decide)
  · rcases parts.exponent_cases with rfl | ⟨e, _, _, isE, _, _, rfl⟩
    · exact ⟨rfl, rfl, rfl⟩
    · have same := (List.cons.inj tail.2).1
      rw [same] at isE
      rcases isX with rfl | rfl
      · exact absurd isE (by decide)
      · exact absurd isE (by decide)

theorem result_decimal {number : Int} (form : IsDecimal (text.dropWhile isSpace) number) :
    let result := isNumericStringEx conversions dval 0 text
    (InRange number → result.type = .long ∧ result.lval.map BitVec.toInt = some number) ∧
    (¬ InRange number → result.type = .double) ∧
    (2 ^ 63 ≤ number → result.oflowInfo = some 1) ∧
    (number < -2 ^ 63 → result.oflowInfo = some (-1)) := by
  rcases form with ⟨sign, int, isSignText, areDigits, body, equal⟩
  have result := @result_integer conversions dval text sign int isSignText areDigits body
  have isNumber : decimalNumber sign int = number := equal.symm
  rw [isNumber] at result
  refine ⟨fun inRange => ?_, fun outside => (result.2 outside).1, fun large => ?_, fun small => ?_⟩
  · exact ⟨(result.1 inRange).1, (result.1 inRange).2.1⟩
  · have positive : sign ≠ [byte '-'] := by
      intro minus
      rw [if_pos minus] at equal
      omega
    have oflow := (result.2 fun inRange => by have := inRange.2; omega).2
    rw [oflowOf, if_neg positive] at oflow
    exact oflow
  · have negative : sign = [byte '-'] := by
      by_contra plus
      rw [if_neg plus] at equal
      omega
    have oflow := (result.2 fun inRange => by have := inRange.1; omega).2
    rw [oflowOf, if_pos negative] at oflow
    exact oflow

theorem result_isHex {number : Int} (form : IsHex (text.dropWhile isSpace) number) :
    let result := isNumericStringEx conversions dval 0 text
    (InRange number → result.type = .long ∧ result.lval.map BitVec.toInt = some number) ∧
    (¬ InRange number → result.type = .double) := by
  rcases form with ⟨x, digits, isX, nonempty, areDigits, body, rfl⟩
  have result := @result_hex conversions dval text [] x digits isX areDigits
    (fun c member => by cases member) (by simpa using nonempty) (by simpa using body)
  have range : InRange (hexValue digits : Int) ↔ hexValue digits < 2 ^ 63 := by
    rw [InRange]
    omega
  rw [range]
  constructor
  · intro small
    exact ⟨(result.1 small).1, (result.1 small).2.1 rfl⟩
  · intro large
    exact (result.2 large).1

theorem not_startsExponent_nil : ¬ StartsExponent [] := by
  rintro ⟨_, _, _, _, _, _, _, equal⟩
  cases equal

/-- A floating literal is all of its parts. -/
theorem Parts.of_floating (intDigits : ∀ c ∈ int, isDigit c = true)
    (fractionDigits : ∀ c ∈ fraction, isDigit c = true)
    (pointCases : point = [byte '.'] ∨ (point = [] ∧ fraction = []))
    (exponentCases : exponent = [] ∨ IsExponentText exponent) :
    Parts int point fraction exponent [] := by
  have exponentEnds : Ends isDigit (exponent ++ []) := by
    intro c member
    rw [List.append_nil] at member
    rcases exponentCases with rfl | ⟨e, _, _, isE, _, _, rfl⟩
    · cases member
    · rw [← Option.mem_some_iff.mp member, Bool.eq_false_iff]
      intro digit
      simp only [isExponent, Bool.or_eq_true, beq_iff_eq] at isE
      rcases isE with rfl | rfl
      · exact absurd digit (by decide)
      · exact absurd digit (by decide)
  refine ⟨intDigits, fractionDigits, pointCases, exponentCases, ?_, exponentEnds, ?_,
    fun _ => not_startsExponent_nil, fun _ c member => by cases member⟩
  · rcases pointCases with rfl | ⟨rfl, rfl⟩
    · intro c member
      rw [← Option.mem_some_iff.mp member]
      decide
    · exact exponentEnds
  · intro _ head
    rw [List.append_nil] at head
    rcases exponentCases with rfl | ⟨e, _, _, isE, _, _, rfl⟩
    · cases head
    · rw [Option.some.inj head] at isE
      exact absurd isE (by decide)

theorem result_floating (form : IsFloating (text.dropWhile isSpace)) :
    (isNumericStringEx conversions dval 0 text).type = .double := by
  rcases form with ⟨sign, int, point, fraction, exponent, isSignText, intDigits, fractionDigits,
    pointCases, exponentCases, digits, floating, body⟩
  have parts := Parts.of_floating intDigits fractionDigits pointCases exponentCases
  rw [← List.append_nil exponent] at body
  have notHex : isHexText (text.dropWhile isSpace) = false := by
    rw [Bool.eq_false_iff]
    intro isHex
    rw [body] at isHex
    have only := parts_of_hex isSignText parts isHex
    simp [only.2.1, only.2.2.2] at floating
  have more : point ++ (fraction ++ (exponent ++ [])) ≠ [] := by
    intro empty
    simp only [List.append_eq_nil_iff] at empty
    simp [empty.1, empty.2.2.1] at floating
  exact (result_number isSignText parts digits more notHex body).1

/-! ## The form of a result -/

/-- What the text of a number looks like, by the type that is found. -/
theorem form_of_type :
    match (isNumericStringEx conversions dval 0 text).type with
    | .long => ∃ number,
        (isNumericStringEx conversions dval 0 text).lval.map BitVec.toInt = some number ∧
        (IsDecimal (text.dropWhile isSpace) number ∨ IsHex (text.dropWhile isSpace) number) ∧
        InRange number
    | .double => (∃ number, (IsDecimal (text.dropWhile isSpace) number ∨
        IsHex (text.dropWhile isSpace) number) ∧ ¬ InRange number) ∨
        IsFloating (text.dropWhile isSpace)
    | .none => True := by
  cases exists_shape (text.dropWhile isSpace) with
  | hex x digits junk isX areDigits ends more equal =>
      have result := @result_hex conversions dval text junk x digits isX areDigits ends more equal
      have isHex (empty : junk = []) : IsHex (text.dropWhile isSpace) (hexValue digits) := by
        subst empty
        exact ⟨x, digits, isX, by simpa using more, areDigits, by simpa using equal, rfl⟩
      by_cases small : hexValue digits < 2 ^ 63
      · rw [(result.1 small).1]
        split_ifs with empty
        · exact ⟨hexValue digits, (result.1 small).2.1 empty, Or.inr (isHex empty), by
            rw [InRange]
            omega⟩
        · trivial
      · rw [(result.2 small).1]
        split_ifs with empty
        · exact Or.inl ⟨hexValue digits, Or.inr (isHex empty), by
            rw [InRange]
            omega⟩
        · trivial
  | integer sign int isSignText areDigits equal =>
      have result := @result_integer conversions dval text sign int isSignText areDigits equal
      have isDecimal : IsDecimal (text.dropWhile isSpace) (decimalNumber sign int) :=
        ⟨sign, int, isSignText, areDigits, equal, rfl⟩
      by_cases inRange : InRange (decimalNumber sign int)
      · rw [(result.1 inRange).1]
        exact ⟨_, (result.1 inRange).2.1, Or.inl isDecimal, inRange⟩
      · rw [(result.2 inRange).1]
        exact Or.inl ⟨_, Or.inl isDecimal, inRange⟩
  | number sign int point fraction exponent junk isSignText parts digits more notHex equal =>
      rw [(@result_number conversions dval text sign int point fraction exponent junk
        isSignText parts digits more notHex equal).1]
      split_ifs with empty
      · subst empty
        rw [List.append_nil] at equal more
        refine Or.inr ⟨sign, int, point, fraction, exponent, isSignText, parts.int_digits,
          parts.fraction_digits, parts.point_cases, parts.exponent_cases, digits, ?_, equal⟩
        by_contra neither
        rw [not_or, not_not, not_not] at neither
        rcases parts.point_cases with isPoint | ⟨_, noFraction⟩
        · rw [neither.1] at isPoint
          cases isPoint
        · simp [neither.1, neither.2, noFraction] at more
      · trivial
  | other noDigit noPoint =>
      rw [(@result_other conversions dval text noDigit noPoint).1]
      trivial

theorem form_of_long (isLong : (isNumericStringEx conversions dval 0 text).type = .long) :
    ∃ number, (isNumericStringEx conversions dval 0 text).lval.map BitVec.toInt = some number ∧
      (IsDecimal (text.dropWhile isSpace) number ∨ IsHex (text.dropWhile isSpace) number) ∧
      InRange number := by
  have form := @form_of_type conversions dval text
  rwa [isLong] at form

theorem form_of_double (isDouble : (isNumericStringEx conversions dval 0 text).type = .double) :
    (∃ number, (IsDecimal (text.dropWhile isSpace) number ∨
      IsHex (text.dropWhile isSpace) number) ∧ ¬ InRange number) ∨
      IsFloating (text.dropWhile isSpace) := by
  have form := @form_of_type conversions dval text
  rwa [isDouble] at form

/-- Where the overflow information comes from. -/
theorem form_of_oflow {oflow : Int} (isOflow : oflow = 1 ∨ oflow = -1)
    (equal : (isNumericStringEx conversions dval 0 text).oflowInfo = some oflow) :
    (∃ number, IsDecimal (text.dropWhile isSpace) number ∧
      (if oflow = 1 then 2 ^ 63 ≤ number else number < -2 ^ 63)) ∨
      HexTooLarge (text.dropWhile isSpace) ∨ LongNumeral dval (text.dropWhile isSpace) := by
  have nonzero : oflow ≠ 0 := by
    rcases isOflow with rfl | rfl <;> decide
  cases exists_shape (text.dropWhile isSpace) with
  | hex x digits junk isX areDigits ends more body =>
      have result := @result_hex conversions dval text junk x digits isX areDigits ends more body
      by_cases small : hexValue digits < 2 ^ 63
      · have none := (result.1 small).2.2
        rw [equal] at none
        exact absurd (Option.some.inj none) nonzero
      · refine Or.inr (Or.inl ⟨x, digits ++ junk, isX, body, ?_⟩)
        rw [takeWhile_ends areDigits ends]
        exact Nat.not_lt.mp small
  | integer sign int isSignText areDigits body =>
      have result := @result_integer conversions dval text sign int isSignText areDigits body
      by_cases inRange : InRange (decimalNumber sign int)
      · have none := (result.1 inRange).2.2
        rw [equal] at none
        exact absurd (Option.some.inj none) nonzero
      · refine Or.inl ⟨_, ⟨sign, int, isSignText, areDigits, body, rfl⟩, ?_⟩
        have same := (result.2 inRange).2
        rw [equal] at same
        have isOflow := Option.some.inj same
        rw [InRange, decimalNumber] at inRange
        rw [isOflow, oflowOf]
        by_cases minus : sign = [byte '-']
        · rw [if_pos minus] at inRange ⊢
          rw [if_pos minus, if_neg (by decide)]
          omega
        · rw [if_neg minus] at inRange ⊢
          rw [if_neg minus, if_pos rfl]
          omega
  | number sign int point fraction exponent junk isSignText parts digits more notHex body =>
      have same := (@result_number conversions dval text sign int point fraction exponent junk
        isSignText parts digits more notHex body).2
      rw [equal] at same
      by_cases counted : maxLengthOfLong ≤ countedDigits dval int fraction exponent
      · exact Or.inr (Or.inr ⟨sign, int, point, fraction, exponent, junk, isSignText, parts, digits,
          body, more, counted⟩)
      · rw [if_neg counted] at same
        exact absurd (Option.some.inj same) nonzero
  | other noDigit noPoint =>
      have none := (@result_other conversions dval text noDigit noPoint).2
      rw [equal] at none
      rcases isOflow with rfl | rfl
      · exact absurd rfl none.1
      · exact absurd rfl none.2

/-! ## Texts with too many digits -/

/-- No integer is behind a digit sequence with something else behind it. -/
theorem not_isDecimal_parts (isSignText : IsSignText sign)
    (parts : Parts int point fraction exponent junk) (digits : int ≠ [] ∨ fraction ≠ [])
    (more : point ++ (fraction ++ (exponent ++ junk)) ≠ []) (number : Int) :
    ¬ IsDecimal (sign ++ (int ++ (point ++ (fraction ++ (exponent ++ junk))))) number := by
  rintro ⟨otherSign, otherInt, isOtherSign, areDigits, equal, _⟩
  have first : isDigit (read (int ++ (point ++ (fraction ++ (exponent ++ junk)))) 0) = true ∨
      read (int ++ (point ++ (fraction ++ (exponent ++ junk)))) 0 = byte '.' := by
    cases int with
    | cons c rest => exact Or.inl (parts.int_digits c List.mem_cons_self)
    | nil =>
        rcases parts.point_cases with rfl | ⟨_, rfl⟩
        · exact Or.inr rfl
        · simp at digits
  have left := (sign_facts isSignText first).1
  have right := (@sign_facts otherSign otherInt isOtherSign (Or.inl (isDigit_first areDigits))).1
  have same : int ++ (point ++ (fraction ++ (exponent ++ junk))) = otherInt := by
    have drops := congrArg (List.drop sign.length) equal
    have lengths : sign.length = otherSign.length := by rw [← left, equal, right]
    rw [List.drop_left, lengths, List.drop_left] at drops
    exact drops
  cases split : point ++ (fraction ++ (exponent ++ junk)) with
  | nil => exact more split
  | cons c rest =>
      have stop := parts.int_ends
      rw [split] at stop same
      have digit := (isDigits_iff.mp areDigits).2 c (by rw [← same]; simp)
      rw [stop c rfl] at digit
      cases digit

theorem not_isDecimal_hex (tooLarge : HexTooLarge (text.dropWhile isSpace)) (number : Int) :
    ¬ IsDecimal (text.dropWhile isSpace) number := by
  rintro ⟨sign, int, isSignText, areDigits, equal, _⟩
  rcases tooLarge with ⟨x, rest, isX, body, large⟩
  have notHex := notHex_integer isSignText (isDigits_iff.mp areDigits).2
  rw [← equal, body] at notHex
  have nonempty : rest ≠ [] := by
    rintro rfl
    exact absurd large (by decide)
  cases rest with
  | nil => exact nonempty rfl
  | cons c rest =>
      have isHex : isHexText (byte '0' :: x :: c :: rest) = true := by
        rcases isX with rfl | rfl
        · simp [isHexText, CString.read]
        · simp [isHexText, CString.read]
      rw [isHex] at notHex
      cases notHex

theorem oflow_hexTooLarge (tooLarge : HexTooLarge (text.dropWhile isSpace)) :
    (isNumericStringEx conversions dval 0 text).oflowInfo = some 1 := by
  rcases tooLarge with ⟨x, rest, isX, body, large⟩
  have nonempty : rest ≠ [] := by
    rintro rfl
    exact absurd large (by decide)
  have split : rest.takeWhile isXdigit ++ rest.dropWhile isXdigit = rest :=
    List.takeWhile_append_dropWhile
  rw [← split] at nonempty
  have result := @result_hex conversions dval text _ x _ isX (forall_takeWhile isXdigit rest)
    (ends_takeWhile isXdigit rest) nonempty (by rw [split]; exact body)
  exact (result.2 (Nat.not_lt.mpr large)).2

theorem oflow_longNumeral (long : LongNumeral dval (text.dropWhile isSpace)) :
    ((isNumericStringEx conversions dval 0 text).oflowInfo = some 1 ∨
      (isNumericStringEx conversions dval 0 text).oflowInfo = some (-1)) ∧
      ∀ number, ¬ IsDecimal (text.dropWhile isSpace) number := by
  rcases long with ⟨sign, int, point, fraction, exponent, junk, isSignText, parts, digits, body,
    more, counted⟩
  have notHex : isHexText (text.dropWhile isSpace) = false := by
    rw [Bool.eq_false_iff]
    intro isHex
    rw [body] at isHex
    rcases parts_of_hex isSignText parts isHex with ⟨rfl, rfl, rfl, rfl⟩
    have none : countedDigits dval [byte '0'] [] [] = 0 := by
      cases dval <;> rfl
    rw [none] at counted
    exact absurd counted (by decide)
  have result := (@result_number conversions dval text sign int point fraction exponent junk
    isSignText parts digits more notHex body).2
  rw [if_pos counted, oflowOf] at result
  constructor
  · split_ifs at result
    · exact Or.inr result
    · exact Or.inl result
  · intro number
    rw [body]
    exact not_isDecimal_parts isSignText parts digits more number

/-! ## Classification -/

theorem denotes_iff {number : Int} : Denotes text number ↔
    IsDecimal (text.dropWhile isSpace) number ∨ IsHex (text.dropWhile isSpace) number :=
  @exists_behindSpace_iff (fun body => IsDecimal body number ∨ IsHex body number)
    (fun _ form => form.elim IsDecimal.ends_space IsHex.ends_space) text

theorem floating_iff : (∃ body, BehindSpace text body ∧ IsFloating body) ↔
    IsFloating (text.dropWhile isSpace) :=
  exists_behindSpace_iff (fun _ form => form.ends_space) text

theorem decimal_iff {range : Int → Prop} :
    (∃ body number, BehindSpace text body ∧ IsDecimal body number ∧ range number) ↔
      ∃ number, IsDecimal (text.dropWhile isSpace) number ∧ range number := by
  rw [← @exists_behindSpace_iff (fun body => ∃ number, IsDecimal body number ∧ range number)
    (fun _ ⟨_, form, _⟩ => form.ends_space) text]
  simp only [exists_and_left]

/-- The type and the value are always those of the form. -/
theorem types_classified :
    let result := isNumericStringEx conversions dval 0 text
    (∀ number, result.type = .long ∧ result.lval.map BitVec.toInt = some number ↔
      Denotes text number ∧ InRange number) ∧
    (result.type = .double ↔ (∃ number, Denotes text number ∧ ¬ InRange number) ∨
      ∃ body, BehindSpace text body ∧ IsFloating body) := by
  simp only [denotes_iff, floating_iff]
  constructor
  · intro number
    constructor
    · rintro ⟨isLong, value⟩
      rcases form_of_long isLong with ⟨other, otherValue, form, inRange⟩
      rw [value] at otherValue
      rw [Option.some.inj otherValue]
      exact ⟨form, inRange⟩
    · rintro ⟨decimal | hex, inRange⟩
      · exact (result_decimal decimal).1 inRange
      · exact (result_isHex hex).1 inRange
  · constructor
    · exact form_of_double
    · rintro (⟨number, decimal | hex, outside⟩ | floating)
      · exact (result_decimal decimal).2.1 outside
      · exact (result_isHex hex).2 outside
      · exact result_floating floating

theorem none_classified :
    (isNumericStringEx conversions dval 0 text).type = .none ↔
      ¬ (∃ number, Denotes text number) ∧ ¬ ∃ body, BehindSpace text body ∧ IsFloating body := by
  have types := @types_classified conversions dval text
  constructor
  · intro isNone
    constructor
    · rintro ⟨number, denotes⟩
      by_cases inRange : InRange number
      · have isLong := ((types.1 number).mpr ⟨denotes, inRange⟩).1
        rw [isNone] at isLong
        cases isLong
      · have isDouble := types.2.mpr (Or.inl ⟨number, denotes, inRange⟩)
        rw [isNone] at isDouble
        cases isDouble
    · intro floating
      have isDouble := types.2.mpr (Or.inr floating)
      rw [isNone] at isDouble
      cases isDouble
  · rintro ⟨noInteger, notFloating⟩
    cases isType : (isNumericStringEx conversions dval 0 text).type with
    | none => rfl
    | long =>
        rcases form_of_long isType with ⟨number, _, form, _⟩
        exact absurd ⟨number, denotes_iff.mpr form⟩ noInteger
    | double =>
        rcases types.2.mp isType with ⟨number, denotes, _⟩ | floating
        · exact absurd ⟨number, denotes⟩ noInteger
        · exact absurd floating notFloating

/-- The results are those of the form, unless the overflow information is set for too many digits
of a text that is no decimal integer. -/
theorem isNumericStringEx_classified_iff (conversions : Conversions) (dval : Bool)
    (text : List UInt8) :
    Classified text (isNumericStringEx conversions dval 0 text) ↔
      ¬ (HexTooLarge (text.dropWhile isSpace) ∨ LongNumeral dval (text.dropWhile isSpace)) := by
  have types := @types_classified conversions dval text
  constructor
  · rintro classified (tooLarge | long)
    · rcases decimal_iff.mp (classified.overflow.mp (oflow_hexTooLarge tooLarge)) with
        ⟨number, decimal, _⟩
      exact not_isDecimal_hex tooLarge number decimal
    · rcases oflow_longNumeral long with ⟨oflow | oflow, noDecimal⟩
      · rcases decimal_iff.mp (classified.overflow.mp oflow) with ⟨number, decimal, _⟩
        exact noDecimal number decimal
      · rcases decimal_iff.mp (classified.underflow.mp oflow) with ⟨number, decimal, _⟩
        exact noDecimal number decimal
  · intro noneSuch
    refine ⟨types.1, types.2, none_classified, ?_, ?_⟩
    · rw [decimal_iff]
      constructor
      · intro oflow
        rcases form_of_oflow (Or.inl rfl) oflow with decimal | defect
        · exact decimal
        · exact absurd defect noneSuch
      · rintro ⟨number, decimal, large⟩
        exact (result_decimal decimal).2.2.1 large
    · rw [decimal_iff]
      constructor
      · intro oflow
        rcases form_of_oflow (Or.inr rfl) oflow with decimal | defect
        · exact decimal
        · exact absurd defect noneSuch
      · rintro ⟨number, decimal, small⟩
        exact (result_decimal decimal).2.2.2 small

end Results

/-- A text with a point is no integer. -/
theorem not_integer_of_point {text : List UInt8} (point : byte '.' ∈ text) {body : List UInt8}
    {number : Int} (behind : BehindSpace text body) : ¬ IsDecimal body number := by
  rintro ⟨sign, digits, isSignText, areDigits, rfl, _⟩
  rcases behind with ⟨space, allSpace, rfl⟩
  rcases List.mem_append.mp point with inSpace | inBody
  · exact absurd (allSpace _ inSpace) (by decide)
  · rcases List.mem_append.mp inBody with inSign | inDigits
    · rcases isSignText with rfl | rfl | rfl
      · cases inSign
      · exact absurd inSign (by decide)
      · exact absurd inSign (by decide)
    · exact absurd ((isDigits_iff.mp areDigits).2 _ inDigits) (by decide)

/-- A float with 21 digits in front of its point is reported as an integer that overflows. -/
theorem isNumericStringEx_float_overflow :
    ¬ Classified ("100000000000000000000.5".toList.map byte)
      (isNumericStringEx { zendStrtod := fun _ => 0, zendHexStrtod := fun _ => 0 } true 0
        ("100000000000000000000.5".toList.map byte)) := by
  intro classified
  rcases classified.overflow.mp (by decide) with ⟨body, number, behind, decimal, _⟩
  exact not_integer_of_point (by decide) behind decimal

end PhpRuntime.Operators
