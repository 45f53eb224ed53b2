import PhpRuntime.Foundation.CString
import PhpRuntime.Foundation.Integers

/-! # Slashes in strings

`php_addslashes`, `php_stripslashes`, `php_charmask`, `php_addcslashes` and `php_stripcslashes`
of `ext/standard/string.c`. The strings that are stripped in place are written no further than
they have been read, so that the result is a list of its own here.
-/

namespace PhpRuntime.Standard

open CString Decimal Integers

def backslash : UInt8 := 92

/-! ## Quotes, backslashes and NULs -/

/-- What `php_addslashes` writes for a byte. -/
def addSlash (c : UInt8) : List UInt8 :=
  if c = 0 then [backslash, byte '0']
  else if c = 39 ∨ c = byte '"' ∨ c = backslash then [backslash, c]
  else [c]

/-- `php_addslashes`: the string and its length; a negative size cannot be allocated. -/
def phpAddslashes (str : List UInt8) : Option (List UInt8 × Int) :=
  let newStr := str.flatMap addSlash
  let newLength := int newStr.length
  if int (newLength + 1) < 0 then none else some (newStr, newLength)

/-- The loop of `php_stripslashes`: the bytes it writes and what it takes off `*len`. -/
def stripLoop : List UInt8 → List UInt8 × Nat
  | [] => ([], 0)
  | [c] => if c = backslash then ([], 1) else ([c], 0)
  | c :: d :: rest =>
      if c = backslash then
        let behind := stripLoop rest
        ((if d = byte '0' then 0 else d) :: behind.1, behind.2 + 1)
      else
        let behind := stripLoop (d :: rest)
        (c :: behind.1, behind.2)

/-- `php_stripslashes` -/
def phpStripslashes (str : List UInt8) (len : Int) : List UInt8 × Int :=
  let stripped := stripLoop (str.take len.toNat)
  (stripped.1, len - stripped.2)

/-! ## Character lists -/

/-- The mask and the warnings. -/
structure Charmask where
  mask : UInt8 → Bool
  warnings : List String

/-- `memset(mask + low, 1, high - low + 1)` -/
def Charmask.range (m : Charmask) (low high : UInt8) : Charmask :=
  { m with mask := fun c => m.mask c || (low ≤ c && c ≤ high) }

/-- The warning for `..`, with the byte in front of it and the bytes behind it. -/
def rangeWarning (previous : Option UInt8) (behind : List UInt8) : String :=
  match previous, behind with
  | none, _ => "Invalid '..'-range, no character to the left of '..'"
  | some _, [] => "Invalid '..'-range, no character to the right of '..'"
  | some left, right :: _ =>
      if left > right then "Invalid '..'-range, '..'-range needs to be incrementing"
      else "Invalid '..'-range"

/-- The loop over the input, with the byte in front of it. -/
def charmaskLoop : Option UInt8 → List UInt8 → Charmask → Charmask
  | _, [], m => m
  | previous, c :: rest, m =>
      match rest with
      | c1 :: c2 :: c3 :: behind =>
          if c1 = dot ∧ c2 = dot ∧ c3 ≥ c then charmaskLoop (some c3) behind (m.range c c3)
          else if c = dot ∧ c1 = dot then
            charmaskLoop (some c) (c1 :: c2 :: c3 :: behind)
              { m with warnings := m.warnings ++ [rangeWarning previous (c2 :: c3 :: behind)] }
          else charmaskLoop (some c) (c1 :: c2 :: c3 :: behind) (m.range c c)
      | c1 :: behind =>
          if c = dot ∧ c1 = dot then
            charmaskLoop (some c) (c1 :: behind)
              { m with warnings := m.warnings ++ [rangeWarning previous behind] }
          else charmaskLoop (some c) (c1 :: behind) (m.range c c)
      | [] => m.range c c

/-- `php_charmask` -/
def phpCharmask (input : List UInt8) : Charmask := charmaskLoop none input ⟨fun _ => false, []⟩

/-! ## Escapes as in C -/

/-- The escapes with a letter: the byte and its letter. -/
def namedEscapes : List (UInt8 × UInt8) :=
  [(10, byte 'n'), (9, byte 't'), (13, byte 'r'), (7, byte 'a'), (11, byte 'v'), (8, byte 'b'),
    (12, byte 'f')]

/-- `sprintf(target, "%03o", c)` -/
def octalDigits (c : UInt8) : List UInt8 :=
  [glyph (c.toNat / 64), glyph (c.toNat / 8 % 8), glyph (c.toNat % 8)]

/-- What `php_addcslashes` writes for a byte. -/
def addCSlash (flags : UInt8 → Bool) (c : UInt8) : List UInt8 :=
  if flags c then
    if c < 32 ∨ c > 126 then
      match namedEscapes.lookup c with
      | some letter => [backslash, letter]
      | none => backslash :: octalDigits c
    else [backslash, c]
  else [c]

/-- `php_addcslashes`: the string and its length. It is made smaller if it has fewer bytes than
the `int` `length * 4`. -/
def phpAddcslashes (str what : List UInt8) : Option (List UInt8 × Int) :=
  let newStr := str.flatMap (addCSlash (phpCharmask what).mask)
  let newlen := int newStr.length
  if newStr.length < int (str.length * 4) ∧ int (newlen + 1) < 0 then none
  else some (newStr, newlen)

/-- An escape: the byte that it stands for, its characters behind the backslash, and what is
taken off `nlen` for it. -/
structure Escape where
  value : UInt8
  size : Nat
  shorter : Nat

def isOctal (c : UInt8) : Bool := byte '0' ≤ c && c ≤ byte '7'

/-- `strtol(numtmp, NULL, base)` as a `char` -/
def charValue (base : Nat) (digits : List Nat) : UInt8 :=
  UInt8.ofNat (digits.foldl (fun value d => value * base + d) 0)

def hexValue (digits : List UInt8) : UInt8 :=
  charValue 16 (digits.map fun c => (hexDigit c).getD 0)

/-- The `default` case of the switch: up to three octal digits, or one byte. -/
def octalEscape (c : UInt8) (rest : List UInt8) : Escape :=
  let digits := ((c :: rest).take 3).takeWhile isOctal
  if digits.length > 0 then ⟨charValue 8 (digits.map digit), digits.length, digits.length⟩
  else ⟨c, 1, 1⟩

/-- The switch on the byte behind a backslash. -/
def escape (c : UInt8) (rest : List UInt8) : Escape :=
  match (namedEscapes.map Prod.swap).lookup c with
  | some value => ⟨value, 1, 1⟩
  | none =>
      if c = backslash then ⟨backslash, 1, 1⟩
      else if c = byte 'x' then
        match rest.take 2 with
        | [h1, h2] =>
            if isXdigit h1 then
              if isXdigit h2 then ⟨hexValue [h1, h2], 3, 3⟩
              else ⟨hexValue [h1], 2, 2⟩
            else octalEscape c rest
        | [h1] =>
            if isXdigit h1 then ⟨hexValue [h1], 2, 2⟩ else octalEscape c rest
        | _ => octalEscape c rest
      else octalEscape c rest

/-- The loop of `php_stripcslashes`; `skip` bytes belong to an escape that has been read. -/
def stripcLoop : Nat → List UInt8 → List UInt8 × Nat
  | _, [] => ([], 0)
  | skip + 1, _ :: source => stripcLoop skip source
  | 0, c :: source =>
      match source with
      | [] => ([c], 0)
      | d :: rest =>
          if c = backslash then
            let found := escape d rest
            let behind := stripcLoop found.size (d :: rest)
            (found.value :: behind.1, found.shorter + behind.2)
          else
            let behind := stripcLoop 0 (d :: rest)
            (c :: behind.1, behind.2)

/-- `php_stripcslashes` -/
def phpStripcslashes (str : List UInt8) (len : Int) : List UInt8 × Int :=
  let stripped := stripcLoop 0 (str.take len.toNat)
  (stripped.1, len - stripped.2)

/-! ## Stripping what was added -/

/-- What is written for the bytes of a string, if it is no more than `n` bytes for each. -/
theorem length_flatMap_le {write : UInt8 → List UInt8} {n : Nat}
    (short : ∀ c, (write c).length ≤ n) (s : List UInt8) :
    (s.flatMap write).length ≤ n * s.length := by
  induction s with
  | nil => simp
  | cons c s induction =>
      have first := short c
      rw [List.flatMap_cons, List.length_append, List.length_cons, Nat.mul_succ]
      omega

theorem stripLoop_plain {c : UInt8} (plain : c ≠ backslash) (rest : List UInt8) :
    stripLoop (c :: rest) = (c :: (stripLoop rest).1, (stripLoop rest).2) := by
  cases rest <;> simp [stripLoop, plain]

theorem stripLoop_addSlash (c : UInt8) (rest : List UInt8) :
    (stripLoop (addSlash c ++ rest)).1 = c :: (stripLoop rest).1 ∧
      (stripLoop (addSlash c ++ rest)).2 + 1 = (stripLoop rest).2 + (addSlash c).length := by
  rw [addSlash]
  split_ifs with nul quoted
  · simp [stripLoop, nul]
  · have different : c ≠ byte '0' := by
      rintro rfl
      revert quoted
      decide
    simp [stripLoop, different]
  · simp only [not_or] at quoted
    simp [stripLoop_plain quoted.2.2]

theorem stripLoop_flatMap (s : List UInt8) :
    (stripLoop (s.flatMap addSlash)).1 = s ∧
      (stripLoop (s.flatMap addSlash)).2 + s.length = (s.flatMap addSlash).length := by
  induction s with
  | nil => exact ⟨rfl, rfl⟩
  | cons c s induction =>
      have first := stripLoop_addSlash c (s.flatMap addSlash)
      rw [List.flatMap_cons, List.length_append, List.length_cons]
      exact ⟨by rw [first.1, induction.1], by omega⟩

/-- The length of an escape is the number of its characters, and they are all there. -/
theorem escape_size (c : UInt8) (rest : List UInt8) :
    (escape c rest).shorter = (escape c rest).size ∧ 1 ≤ (escape c rest).size ∧
      (escape c rest).size ≤ rest.length + 1 := by
  have octal : (octalEscape c rest).shorter = (octalEscape c rest).size ∧
      1 ≤ (octalEscape c rest).size ∧ (octalEscape c rest).size ≤ rest.length + 1 := by
    have atMost := (List.takeWhile_sublist isOctal (l := (c :: rest).take 3)).length_le
    rw [List.length_take, List.length_cons] at atMost
    rw [octalEscape]
    split_ifs with some_
    · exact ⟨rfl, some_, Nat.le_trans atMost (Nat.min_le_right 3 _)⟩
    · exact ⟨rfl, Nat.le_refl 1, by simp⟩
  rw [escape]
  split
  · simp
  · split_ifs
    · simp
    · split
      · next twoDigits =>
        have two := congrArg List.length twoDigits
        rw [List.length_take, List.length_cons, List.length_singleton] at two
        split_ifs
        · simp
          omega
        · simp
          omega
        · exact octal
      · next oneDigit =>
        have one := congrArg List.length oneDigit
        rw [List.length_take, List.length_singleton] at one
        split_ifs
        · simp
          omega
        · exact octal
      · exact octal
    · exact octal

theorem stripcLoop_skip (skip : Nat) (source : List UInt8) :
    stripcLoop skip source = stripcLoop 0 (source.drop skip) := by
  induction source generalizing skip with
  | nil => simp [stripcLoop]
  | cons c source induction =>
      cases skip with
      | zero => rfl
      | succ skip => rw [stripcLoop, induction, List.drop_succ_cons]

theorem stripcLoop_plain {c : UInt8} (plain : c ≠ backslash) (source : List UInt8) :
    stripcLoop 0 (c :: source) = (c :: (stripcLoop 0 source).1, (stripcLoop 0 source).2) := by
  cases source <;> simp [stripcLoop, plain]

theorem stripcLoop_escape (d : UInt8) (rest : List UInt8) :
    stripcLoop 0 (backslash :: d :: rest) =
      ((escape d rest).value :: (stripcLoop 0 ((d :: rest).drop (escape d rest).size)).1,
        (escape d rest).shorter + (stripcLoop 0 ((d :: rest).drop (escape d rest).size)).2) := by
  rw [stripcLoop]
  simp only [if_true]
  rw [stripcLoop_skip]

/-- `nlen` is the number of bytes that are written, whatever is stripped. -/
theorem length_stripcLoop (source : List UInt8) :
    (stripcLoop 0 source).1.length + (stripcLoop 0 source).2 = source.length := by
  induction size : source.length using Nat.strong_induction_on generalizing source with
  | _ n induction =>
      match source with
      | [] => simpa [stripcLoop] using size
      | [c] => simpa [stripcLoop] using size
      | c :: d :: rest =>
          by_cases isSlash : c = backslash
          · subst isSlash
            have sizes := escape_size d rest
            simp only [List.length_cons] at size
            have later := induction (rest.length + 1 - (escape d rest).size) (by omega)
              ((d :: rest).drop (escape d rest).size) (by simp)
            rw [stripcLoop_escape, List.length_cons]
            omega
          · have later := induction (rest.length + 1) (by simp at size; omega) (d :: rest) rfl
            rw [stripcLoop_plain isSlash, List.length_cons]
            simp only [List.length_cons] at size
            omega

/-- The characters that have a meaning behind a backslash, apart from the backslash. -/
def escapeCharacters : List UInt8 :=
  ['a', 'b', 'f', 'n', 'r', 't', 'v', 'x', '0', '1', '2', '3', '4', '5', '6', '7'].map byte

theorem escape_named {c letter : UInt8} (named : namedEscapes.lookup c = some letter)
    (rest : List UInt8) : escape letter rest = ⟨c, 1, 1⟩ := by
  have inverse : ∀ pair ∈ namedEscapes,
      (namedEscapes.map Prod.swap).lookup pair.2 = some pair.1 := forall_of_all (by decide)
  have member : (c, letter) ∈ namedEscapes := by
    rcases List.lookup_eq_some_iff.mp named with ⟨before, behind, isList, _⟩
    simp [isList]
  rw [escape, inverse _ member]

/-- A byte that is no letter of an escape and no `x`. -/
theorem escape_eq_octalEscape {c : UInt8} (noLetter : ∀ pair ∈ namedEscapes, c ≠ pair.2)
    (noSlash : c ≠ backslash) (noX : c ≠ byte 'x') (rest : List UInt8) :
    escape c rest = octalEscape c rest := by
  have notNamed : (namedEscapes.map Prod.swap).lookup c = none := by
    rw [List.lookup_eq_none_iff]
    intro pair member
    rcases List.mem_map.mp member with ⟨swapped, isNamed, rfl⟩
    simpa using noLetter swapped isNamed
  rw [escape, notNamed]
  simp [noSlash, noX]

theorem escape_octal (c : UInt8) (rest : List UInt8) :
    ∃ d behind, octalDigits c ++ rest = d :: behind ∧ escape d behind = ⟨c, 3, 3⟩ := by
  have small := c.toNat_lt
  have value : charValue 8 [c.toNat / 64, c.toNat / 8 % 8, c.toNat % 8] = c := by
    apply UInt8.toNat_inj.mp
    simp only [charValue, List.foldl_cons, List.foldl_nil, UInt8.toNat_ofNat']
    omega
  have isGlyph : ∀ n < 8, isOctal (glyph n) = true := by decide
  have noLetter : ∀ pair ∈ namedEscapes, ∀ n < 4, glyph n ≠ pair.2 := forall_of_all (by decide)
  have noSlash : ∀ n < 4, glyph n ≠ backslash ∧ glyph n ≠ byte 'x' := by decide
  have first : c.toNat / 64 < 4 := by omega
  refine ⟨glyph (c.toNat / 64), glyph (c.toNat / 8 % 8) :: glyph (c.toNat % 8) :: rest, rfl, ?_⟩
  have three : ((glyph (c.toNat / 64) :: glyph (c.toNat / 8 % 8) :: glyph (c.toNat % 8) ::
      rest).take 3).takeWhile isOctal = octalDigits c := by
    simp [octalDigits, isGlyph (c.toNat / 64) (by omega), isGlyph (c.toNat / 8 % 8) (by omega),
      isGlyph (c.toNat % 8) (by omega)]
  have values : (octalDigits c).map digit = [c.toNat / 64, c.toNat / 8 % 8, c.toNat % 8] := by
    simp [octalDigits, digit_glyph (show c.toNat / 64 < 10 by omega),
      digit_glyph (show c.toNat / 8 % 8 < 10 by omega),
      digit_glyph (show c.toNat % 8 < 10 by omega)]
  rw [escape_eq_octalEscape (fun pair member => noLetter pair member _ first)
    (noSlash _ first).1 (noSlash _ first).2, octalEscape, three, values, value]
  rfl

theorem escape_other {c : UInt8} (other : c ∉ escapeCharacters) (rest : List UInt8) :
    escape c rest = ⟨c, 1, 1⟩ := by
  by_cases isSlash : c = backslash
  · rw [isSlash]
    rfl
  · have letters : ∀ pair ∈ namedEscapes, pair.2 ∈ escapeCharacters := forall_of_all (by decide)
    have isX : byte 'x' ∈ escapeCharacters := by decide
    have digits : ∀ n < 8, glyph n ∈ escapeCharacters := by decide
    have noLetter : ∀ pair ∈ namedEscapes, c ≠ pair.2 := by
      rintro pair member rfl
      exact other (letters pair member)
    have noX : c ≠ byte 'x' := by
      rintro rfl
      exact other isX
    have noDigit : isOctal c = false := by
      rw [Bool.eq_false_iff]
      intro isDigit
      simp only [isOctal, Bool.and_eq_true, decide_eq_true_eq, UInt8.le_iff_toNat_le] at isDigit
      change 48 ≤ c.toNat ∧ c.toNat ≤ 55 at isDigit
      have isGlyph : glyph (c.toNat - 48) = c := by
        apply UInt8.toNat_inj.mp
        rw [toNat_glyph (by omega)]
        omega
      exact other (isGlyph ▸ digits (c.toNat - 48) (by omega))
    rw [escape_eq_octalEscape noLetter isSlash noX, octalEscape]
    simp [noDigit]

theorem stripcLoop_addCSlash {flags : UInt8 → Bool} (slash : flags backslash = true)
    (others : ∀ c ∈ escapeCharacters, flags c = false) (c : UInt8) (rest : List UInt8) :
    (stripcLoop 0 (addCSlash flags c ++ rest)).1 = c :: (stripcLoop 0 rest).1 := by
  rw [addCSlash]
  split_ifs with flagged control
  · split
    · next letter named =>
      rw [List.cons_append, List.singleton_append, stripcLoop_escape, escape_named named]
      rfl
    · rcases escape_octal c rest with ⟨d, behind, isDigits, isEscape⟩
      have size : (d :: behind).drop 3 = rest := by rw [← isDigits]; rfl
      rw [List.cons_append, isDigits, stripcLoop_escape, isEscape, size]
  · have other : c ∉ escapeCharacters := by
      intro member
      rw [others c member] at flagged
      cases flagged
    rw [List.cons_append, List.singleton_append, stripcLoop_escape, escape_other other]
    rfl
  · have plain : c ≠ backslash := by
      rintro rfl
      exact flagged slash
    rw [List.singleton_append, stripcLoop_plain plain]

theorem stripcLoop_flatMap {flags : UInt8 → Bool} (slash : flags backslash = true)
    (others : ∀ c ∈ escapeCharacters, flags c = false) (s : List UInt8) :
    (stripcLoop 0 (s.flatMap (addCSlash flags))).1 = s := by
  induction s with
  | nil => rfl
  | cons c s induction =>
      rw [List.flatMap_cons, stripcLoop_addCSlash slash others, induction]

theorem length_addCSlash_le (flags : UInt8 → Bool) (c : UInt8) :
    (addCSlash flags c).length ≤ 4 := by
  rw [addCSlash]
  split_ifs
  · split <;> simp [octalDigits]
  · simp
  · simp

/-- Of a text that is cut off, no more than the pieces in front of the cut are left, and the three
bytes of a piece that is cut. -/
theorem stripcLoop_take {flags : UInt8 → Bool} (slash : flags backslash = true)
    (others : ∀ c ∈ escapeCharacters, flags c = false) (s : List UInt8) (k : Nat) :
    4 * (stripcLoop 0 ((s.flatMap (addCSlash flags)).take k)).1.length
      + (s.flatMap (addCSlash flags)).length ≤ 4 * s.length + k + 12 := by
  induction s generalizing k with
  | nil => simp [stripcLoop]
  | cons c s induction =>
      have piece := length_addCSlash_le flags c
      rw [List.flatMap_cons, List.length_append, List.length_cons]
      by_cases inside : k < (addCSlash flags c).length
      · have written := length_stripcLoop ((addCSlash flags c ++ s.flatMap (addCSlash flags)).take k)
        have behind := length_flatMap_le (length_addCSlash_le flags) s
        rw [List.length_take] at written
        omega
      · have later := induction (k - (addCSlash flags c).length)
        rw [List.take_append, List.take_of_length_le (Nat.le_of_not_lt inside),
          stripcLoop_addCSlash slash others, List.length_cons]
        omega

/-! ## The functions on strings -/

/-- What `php_addslashes` is asked for is no size from `INT_MAX` bytes on. -/
theorem phpAddslashes_eq (str : List UInt8) (passed : str.length < 2 ^ 31) :
    phpAddslashes str = if (str.flatMap addSlash).length < 2 ^ 31 - 1 then
      some (str.flatMap addSlash, ((str.flatMap addSlash).length : Int)) else none := by
  have twice : (str.flatMap addSlash).length ≤ 2 * str.length := by
    refine length_flatMap_le (fun c => ?_) str
    rw [addSlash]
    split_ifs <;> simp
  have range := int_spec (str.flatMap addSlash).length
  have next := int_spec (int (str.flatMap addSlash).length + 1)
  rw [phpAddslashes]
  by_cases fits : (str.flatMap addSlash).length < 2 ^ 31 - 1
  · rw [if_pos fits, int_of_lt (by omega), if_neg (by rw [int_eq] <;> omega)]
  · rw [if_neg fits, if_pos (by omega)]

/-- A result of `INT_MAX` bytes is not made smaller: the product that it is compared with is no
larger. -/
theorem phpAddcslashes_eq (str what : List UInt8) :
    let newStr := str.flatMap (addCSlash (phpCharmask what).mask)
    phpAddcslashes str what = some (newStr, int newStr.length) := by
  rw [phpAddcslashes]
  generalize str.flatMap (addCSlash (phpCharmask what).mask) = newStr
  dsimp only
  rw [if_neg]
  rintro ⟨less, negative⟩
  have product := int_spec (str.length * 4)
  rw [int_of_lt (by omega), int_eq (by omega) (by omega)] at negative
  omega

/-- Stripping inverts adding exactly as long as the string with the slashes has fewer than
`INT_MAX` bytes, or a length that is an `int`. -/
theorem slashes_invert_iff (s : List UInt8) (passed : s.length < 2 ^ 31) :
    ((∃ text len, phpAddslashes s = some (text, len)
        ∧ phpStripslashes text len = (s, (s.length : Int)))
      ↔ (s.flatMap addSlash).length < 2 ^ 31 - 1)
    ∧ ∀ what, (phpCharmask what).mask backslash = true →
      (∀ c ∈ escapeCharacters, (phpCharmask what).mask c = false) →
      ((∃ text len, phpAddcslashes s what = some (text, len)
          ∧ phpStripcslashes text len = (s, (s.length : Int)))
        ↔ (s.flatMap (addCSlash (phpCharmask what).mask)).length < 2 ^ 31) := by
  constructor
  · rw [phpAddslashes_eq s passed]
    by_cases fits : (s.flatMap addSlash).length < 2 ^ 31 - 1
    · have strips := stripLoop_flatMap s
      rw [if_pos fits]
      refine iff_of_true ⟨_, _, rfl, ?_⟩ fits
      rw [phpStripslashes, Int.toNat_natCast, List.take_length, strips.1, ← strips.2]
      simp
    · rw [if_neg fits]
      exact iff_of_false (fun ⟨_, _, none_, _⟩ => nomatch none_) fits
  · intro what slash others
    rw [phpAddcslashes_eq]
    generalize isText : s.flatMap (addCSlash (phpCharmask what).mask) = text
    constructor
    · rintro ⟨_, _, returned, strips⟩
      obtain ⟨rfl, rfl⟩ := Prod.mk.inj (Option.some.inj returned)
      rw [phpStripcslashes] at strips
      have cut := stripcLoop_take slash others s (int text.length).toNat
      have range := int_spec text.length
      rw [isText, (Prod.mk.inj strips).1] at cut
      omega
    · intro fits
      have strips := stripcLoop_flatMap slash others s
      have lengths := length_stripcLoop text
      rw [isText] at strips
      refine ⟨_, _, rfl, ?_⟩
      rw [strips] at lengths
      rw [phpStripcslashes, int_of_lt fits, Int.toNat_natCast, List.take_length, strips, ← lengths]
      simp

/-- The list of two ranges, from `A` to the backslash and from 128 to 255: the last byte is
written with octal digits and has a digit behind it. -/
theorem slashes_invert_iff_ranges :
    phpAddcslashes [92, 200, 52] [65, 46, 46, 92, 128, 46, 46, 255] =
        some ([92, 92, 92, 51, 49, 48, 52], 7) ∧
      ∃ text len, phpAddcslashes [92, 200, 52] [65, 46, 46, 92, 128, 46, 46, 255] =
        some (text, len) ∧ phpStripcslashes text len = ([92, 200, 52], 3) :=
  ⟨by decide, ((slashes_invert_iff [92, 200, 52] (by decide)).2
    [65, 46, 46, 92, 128, 46, 46, 255] (by decide) (forall_of_all (by decide))).mpr (by decide)⟩

/-- For `2 ^ 30` NULs `2 ^ 31` bytes are written, and no string of this length is returned. -/
theorem phpAddslashes_nuls :
    (List.replicate (2 ^ 30) (0 : UInt8)).length < 2 ^ 31 ∧
      phpAddslashes (List.replicate (2 ^ 30) 0) = none := by
  generalize size : 2 ^ 30 = n
  have total : ((List.replicate n (0 : UInt8)).flatMap addSlash).length = n * 2 := by
    simp [addSlash]
  refine ⟨by rw [List.length_replicate]; omega, ?_⟩
  rw [phpAddslashes, total, ← size]
  decide

end PhpRuntime.Standard
