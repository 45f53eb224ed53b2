import PhpRuntime.Html.NextChar

/-! # What `php_next_utf8_char` accepts

A call reads the sequence at the cursor or, when there is none, skips a byte and some
bytes behind it that cannot start a sequence.
-/

namespace PhpRuntime.Html

open Utf8

theorem utf8Trail_iff (c : UInt8) : utf8Trail c = true ↔ Trail c := by
  simp only [utf8Trail, Bool.and_eq_true, decide_eq_true_eq, ge_iff_le, UInt8.le_iff_toNat_le,
    UInt8.toNat_ofNat]
  constructor
  · intro both
    exact ⟨both.1, by omega⟩
  · intro trail
    have upper := trail.upper
    exact ⟨trail.lower, by omega⟩

theorem utf8Lead_iff (c : UInt8) :
    utf8Lead c = true ↔ c.toNat < 0x80 ∨ (0xC2 ≤ c.toNat ∧ c.toNat < 0xF5) := by
  simp only [utf8Lead, Bool.or_eq_true, Bool.and_eq_true, decide_eq_true_eq, ge_iff_le,
    UInt8.le_iff_toNat_le, UInt8.lt_iff_toNat_lt, UInt8.toNat_ofNat]
  omega

theorem trail_not_lead {c : UInt8} (trail : Trail c) : utf8Lead c = false := by
  have lower := trail.lower
  have upper := trail.upper
  rw [Bool.eq_false_iff, Ne, utf8Lead_iff]
  omega

/-! ### The number that the bytes spell -/

theorem low_bits (value : Nat) : value &&& 0x3f = value % 2 ^ 6 :=
  Nat.and_two_pow_sub_one_eq_mod value 6

theorem shift_or {high low bits : Nat} (small : low < 2 ^ bits) :
    high <<< bits ||| low = high * 2 ^ bits + low := by
  rw [← Nat.shiftLeft_add_eq_or_of_lt small, Nat.shiftLeft_eq]

theorem spellTwo_eq (c first : UInt8) :
    spellTwo c first = c.toNat % 2 ^ 5 * 2 ^ 6 + first.toNat % 2 ^ 6 := by
  have mask : c.toNat &&& 0x1f = c.toNat % 2 ^ 5 := Nat.and_two_pow_sub_one_eq_mod _ 5
  rw [spellTwo, mask, low_bits, shift_or (Nat.mod_lt _ (by decide))]

/-- Two neighbouring groups of bits are one group. -/
theorem shift_or_shift {high low : Nat} (small : low < 2 ^ 6) (bits : Nat) :
    high <<< (6 + bits) ||| low <<< bits = (high * 2 ^ 6 + low) <<< bits := by
  rw [Nat.shiftLeft_add, ← Nat.shiftLeft_or_distrib, shift_or small]

theorem spellThree_eq (c first second : UInt8) :
    spellThree c first second =
      c.toNat % 2 ^ 4 * 2 ^ 12 + first.toNat % 2 ^ 6 * 2 ^ 6 + second.toNat % 2 ^ 6 := by
  have mask : c.toNat &&& 0x0f = c.toNat % 2 ^ 4 := Nat.and_two_pow_sub_one_eq_mod _ 4
  have small : ∀ byte : UInt8, byte.toNat % 2 ^ 6 < 2 ^ 6 := fun _ => Nat.mod_lt _ (by decide)
  rw [spellThree, mask, low_bits, low_bits, shift_or_shift (small first) 6,
    shift_or (small second)]
  omega

theorem spellFour_eq (c first second third : UInt8) :
    spellFour c first second third =
      c.toNat % 2 ^ 3 * 2 ^ 18 + first.toNat % 2 ^ 6 * 2 ^ 12 +
        second.toNat % 2 ^ 6 * 2 ^ 6 + third.toNat % 2 ^ 6 := by
  have mask : c.toNat &&& 0x07 = c.toNat % 2 ^ 3 := Nat.and_two_pow_sub_one_eq_mod _ 3
  have small : ∀ byte : UInt8, byte.toNat % 2 ^ 6 < 2 ^ 6 := fun _ => Nat.mod_lt _ (by decide)
  rw [spellFour, mask, low_bits, low_bits, low_bits, shift_or_shift (small first) 12,
    shift_or_shift (small second) 6, shift_or (small third)]
  omega

theorem spellThree_trails {a b c : UInt8} (lower : 0xE0 ≤ a.toNat) (upper : a.toNat < 0xF0)
    (second : Trail b) (third : Trail c) :
    spellThree a b c =
      (a.toNat - 0xE0) * 2 ^ 12 + (b.toNat - 0x80) * 2 ^ 6 + (c.toNat - 0x80) := by
  have secondLower := second.lower
  have secondUpper := second.upper
  have thirdLower := third.lower
  have thirdUpper := third.upper
  rw [spellThree_eq]
  omega

theorem spellFour_trails {a b c d : UInt8} (lower : 0xF0 ≤ a.toNat) (upper : a.toNat < 0xF5)
    (second : Trail b) (third : Trail c) (fourth : Trail d) :
    spellFour a b c d =
      (a.toNat - 0xF0) * 2 ^ 18 + (b.toNat - 0x80) * 2 ^ 12 +
        (c.toNat - 0x80) * 2 ^ 6 + (d.toNat - 0x80) := by
  have secondLower := second.lower
  have secondUpper := second.upper
  have thirdLower := third.lower
  have thirdUpper := third.upper
  have fourthLower := fourth.lower
  have fourthUpper := fourth.upper
  rw [spellFour_eq]
  omega

/-! ### One call -/

/-- What a call at `pos` may return when `bytes` are the bytes from there. -/
inductive Decodes (bytes : List UInt8) (pos : Nat) : NextChar → Prop
  | success {sequence : List UInt8} {value : Nat} : Sequence sequence value →
      sequence <+: bytes → Decodes bytes pos (mbSuccess value (pos + sequence.length))
  | failure {skip : Nat} :
      (∀ sequence value, Sequence sequence value → ¬ sequence <+: bytes) →
      0 < skip → skip ≤ bytes.length →
      (∀ byte ∈ (bytes.take skip).tail, utf8Lead byte = false) →
      Decodes bytes pos (mbFailure pos skip)

variable {str rest : List UInt8} {pos : Nat} {c : UInt8}

theorem length_of_drop (suffix : str.drop pos = c :: rest) :
    str.length - pos = rest.length + 1 := by
  rw [← List.length_drop, suffix, List.length_cons]

theorem read_of_drop (suffix : str.drop pos = c :: rest) (offset : Nat) :
    str[pos + (offset + 1)]? = rest[offset]? := by
  rw [← List.getElem?_drop, suffix, List.getElem?_cons_succ]

theorem utf8Trail_eq_false {byte : UInt8} (notTrail : ¬ Trail byte) : utf8Trail byte = false := by
  rwa [Bool.eq_false_iff, Ne, utf8Trail_iff]

theorem nextUtf8Two_decodes (suffix : str.drop pos = c :: rest) (lower : 0xC2 ≤ c.toNat)
    (upper : c.toNat < 0xE0) :
    ∃ next, nextUtf8Two str pos c = some next ∧ Decodes (c :: rest) pos next := by
  have length := length_of_drop suffix
  have first := read_of_drop suffix 0
  cases rest with
  | nil =>
      have short : checkLen str pos 2 = false := by simp [checkLen, length]
      refine ⟨mbFailure pos 1, by simp [nextUtf8Two, short],
        .failure ?_ (by decide) (by simp) (by simp)⟩
      intro sequence value isSequence begins
      rcases isSequence.first_two begins lower upper with ⟨b, more, equal, _⟩
      cases equal
  | cons b more =>
      have long : checkLen str pos 2 = true := by simp [checkLen, length]
      by_cases trail : Trail b
      · have isTrail := (utf8Trail_iff b).mpr trail
        have trailLower := trail.lower
        have trailUpper := trail.upper
        have number := spellTwo_eq c b
        have value : (c.toNat - 0xC0) * 2 ^ 6 + (b.toNat - 0x80) = spellTwo c b := by omega
        have notShort : ¬ spellTwo c b < 0x80 := by omega
        have sequence := Sequence.two lower upper trail
        rw [value] at sequence
        refine ⟨mbSuccess (spellTwo c b) (pos + 2), ?_, .success sequence (by simp)⟩
        simp [nextUtf8Two, long, first, isTrail, notShort]
      · refine ⟨mbFailure pos (if utf8Lead b then 1 else 2), ?_, .failure ?_ ?_ ?_ ?_⟩
        · simp [nextUtf8Two, long, first, utf8Trail_eq_false trail]
        · intro sequence value isSequence begins
          rcases isSequence.first_two begins lower upper with ⟨b', more', equal, isTrail⟩
          cases equal
          exact trail isTrail
        · split <;> decide
        · split <;> simp
        · split
          · simp
          · next notLead => simp [notLead]

theorem orAt_short (str : List UInt8) {avail need : Nat} (index : Nat) (test : UInt8 → Bool)
    (short : avail < need) : orAt (avail < need) str index test = some true := by
  simp [orAt, short]

theorem orAt_read {str : List UInt8} {avail need index : Nat} {byte : UInt8}
    (read : str[index]? = some byte) (long : need ≤ avail) (test : UInt8 → Bool) :
    orAt (avail < need) str index test = some (test byte) := by
  simp [orAt, Nat.not_lt.mpr long, read]

theorem orAt_next {str : List UInt8} {known : Bool} {index : Nat} {byte : UInt8}
    (read : str[index]? = some byte) (test : UInt8 → Bool) :
    orAt known str index test = some (known || test byte) := by
  cases known <;> simp [orAt, read]

section Skip

variable (suffix : str.drop pos = c :: rest)
  (none : ∀ sequence value, Sequence sequence value → ¬ sequence <+: c :: rest)
include suffix none

/-- The skip never passes a byte that may lead: it ends there, or goes on behind another byte. -/
theorem skip_step {skip : Nat} {more : Option NextChar} (positive : 0 < skip)
    (inside : skip ≤ (c :: rest).length)
    (others : ∀ byte ∈ ((c :: rest).take skip).tail, utf8Lead byte = false)
    (next : skip + 1 ≤ (c :: rest).length →
      (∀ byte ∈ ((c :: rest).take (skip + 1)).tail, utf8Lead byte = false) →
      ∃ next, more = some next ∧ Decodes (c :: rest) pos next) :
    ∃ next, ((orAt (str.length - pos < skip + 1) str (pos + skip) utf8Lead).bind fun lead =>
        if lead then some (mbFailure pos skip) else more) = some next ∧
      Decodes (c :: rest) pos next := by
  have ends : Decodes (c :: rest) pos (mbFailure pos skip) := .failure none positive inside others
  rw [length_of_drop suffix, ← List.length_cons]
  by_cases long : skip + 1 ≤ (c :: rest).length
  · obtain ⟨before, rfl⟩ : ∃ before, skip = before + 1 := ⟨skip - 1, by omega⟩
    have less : before < rest.length := Nat.le_of_succ_le_succ long
    have read : str[pos + (before + 1)]? = some rest[before] := by
      rw [read_of_drop suffix, List.getElem?_eq_getElem less]
    rw [orAt_read read long]
    cases lead : utf8Lead rest[before] with
    | true => exact ⟨_, rfl, ends⟩
    | false =>
        refine next long fun byte member => ?_
        rw [List.take_succ_cons, List.tail_cons, List.take_succ_eq_append_getElem less] at member
        rcases List.mem_append.mp member with old | new
        · exact others byte (by simpa using old)
        · rw [List.mem_singleton.mp new, lead]
  · rw [orAt_short str _ _ (by omega)]
    exact ⟨_, rfl, ends⟩

theorem skipThree_decodes :
    ∃ next, skipThree str pos (str.length - pos) = some next ∧ Decodes (c :: rest) pos next := by
  refine skip_step suffix none (by decide) (by simp) (by simp) fun long others => ?_
  refine skip_step suffix none (by decide) long others fun long others => ?_
  exact ⟨_, rfl, .failure none (by decide) long others⟩

theorem skipFour_decodes :
    ∃ next, skipFour str pos (str.length - pos) = some next ∧ Decodes (c :: rest) pos next := by
  refine skip_step suffix none (by decide) (by simp) (by simp) fun long others => ?_
  refine skip_step suffix none (by decide) long others fun long others => ?_
  refine skip_step suffix none (by decide) long others fun long others => ?_
  exact ⟨_, rfl, .failure none (by decide) long others⟩

end Skip

/-- A failure that skips the whole sequence, whose other bytes are trails. -/
theorem decodes_failure_trails {trails more : List UInt8}
    (none : ∀ sequence value, Sequence sequence value → ¬ sequence <+: c :: (trails ++ more))
    (allTrails : ∀ byte ∈ trails, Trail byte) :
    Decodes (c :: (trails ++ more)) pos (mbFailure pos (trails.length + 1)) := by
  apply Decodes.failure none (Nat.succ_pos _) (by simp)
  intro byte member
  rw [List.take_succ_cons, List.take_left, List.tail_cons] at member
  exact trail_not_lead (allTrails byte member)

theorem nextUtf8Three_decodes (suffix : str.drop pos = c :: rest) (lower : 0xE0 ≤ c.toNat)
    (upper : c.toNat < 0xF0) :
    ∃ next, nextUtf8Three str pos c = some next ∧ Decodes (c :: rest) pos next := by
  have first := read_of_drop suffix 0
  have second := read_of_drop suffix 1
  have skip := skipThree_decodes suffix
  simp only [nextUtf8Three, Option.bind_eq_bind]
  rw [length_of_drop suffix] at skip ⊢
  match rest with
  | [] | [_] =>
      rw [orAt_short str _ _ (by simp)]
      apply skip
      intro sequence value isSequence begins
      rcases isSequence.first_three begins lower upper with ⟨_, _, _, equal, _⟩
      cases equal
  | b :: d :: more =>
      rw [orAt_read first (by simp), Option.bind_some, orAt_next second, Option.bind_some]
      by_cases trails : Trail b ∧ Trail d
      · have spelled := spellThree_trails lower upper trails.1 trails.2
        rw [(utf8Trail_iff b).mpr trails.1, (utf8Trail_iff d).mpr trails.2]
        simp only [Bool.not_true, Bool.or_false, Bool.false_eq_true, if_false]
        rw [first, second]
        simp only [List.getElem?_cons_zero, List.getElem?_cons_succ, Option.bind_some]
        have failed (bad : ¬ (0x800 ≤ spellThree c b d ∧
              ¬ (0xD800 ≤ spellThree c b d ∧ spellThree c b d ≤ 0xDFFF))) :
            Decodes (c :: ([b, d] ++ more)) pos (mbFailure pos 3) := by
          apply decodes_failure_trails
          · intro sequence value isSequence begins
            rcases isSequence.first_three begins lower upper with ⟨_, _, _, equal, whole⟩
            cases equal
            cases whole with
            | three _ _ _ _ equal long notSurrogate =>
                rw [← spelled] at equal
                rw [equal] at long notSurrogate
                exact bad ⟨long, notSurrogate⟩
          · simp [trails]
        split
        · exact ⟨_, rfl, failed (by omega)⟩
        · split
          · next surrogate =>
            simp only [Bool.and_eq_true, decide_eq_true_eq] at surrogate
            exact ⟨_, rfl, failed (by omega)⟩
          · next long notSurrogate =>
            simp only [Bool.and_eq_true, decide_eq_true_eq] at notSurrogate
            have sequence : Sequence [c, b, d] (spellThree c b d) :=
              .three lower upper trails.1 trails.2 spelled (Nat.not_lt.mp long) notSurrogate
            exact ⟨_, rfl, .success sequence (by simp)⟩
      · have bad : (!utf8Trail b || !utf8Trail d) = true := by
          rw [Bool.or_eq_true]
          simp only [Bool.not_eq_true', Bool.eq_false_iff, Ne, utf8Trail_iff]
          exact not_and_or.mp trails
        rw [bad, if_pos rfl]
        apply skip
        intro sequence value isSequence begins
        rcases isSequence.first_three begins lower upper with ⟨_, _, _, equal, whole⟩
        cases equal
        cases whole with
        | three _ _ isSecond isThird _ _ _ => exact trails ⟨isSecond, isThird⟩

theorem nextUtf8Four_decodes (suffix : str.drop pos = c :: rest) (lower : 0xF0 ≤ c.toNat)
    (upper : c.toNat < 0xF5) :
    ∃ next, nextUtf8Four str pos c = some next ∧ Decodes (c :: rest) pos next := by
  have first := read_of_drop suffix 0
  have second := read_of_drop suffix 1
  have third := read_of_drop suffix 2
  have skip := skipFour_decodes suffix
  simp only [nextUtf8Four, Option.bind_eq_bind]
  rw [length_of_drop suffix] at skip ⊢
  match rest with
  | [] | [_] | [_, _] =>
      rw [orAt_short str _ _ (by simp)]
      apply skip
      intro sequence value isSequence begins
      rcases isSequence.first_four begins lower with ⟨_, _, _, _, equal, _⟩
      cases equal
  | b :: d :: e :: more =>
      rw [orAt_read first (by simp), Option.bind_some, orAt_next second, Option.bind_some,
        orAt_next third, Option.bind_some]
      by_cases trails : Trail b ∧ Trail d ∧ Trail e
      · have spelled := spellFour_trails lower upper trails.1 trails.2.1 trails.2.2
        rw [(utf8Trail_iff b).mpr trails.1, (utf8Trail_iff d).mpr trails.2.1,
          (utf8Trail_iff e).mpr trails.2.2]
        simp only [Bool.not_true, Bool.or_false, Bool.false_eq_true, if_false]
        rw [first, second, third]
        simp only [List.getElem?_cons_zero, List.getElem?_cons_succ, Option.bind_some]
        split
        · next outside =>
          simp only [Bool.or_eq_true, decide_eq_true_eq] at outside
          refine ⟨_, rfl, ?_⟩
          change Decodes (c :: ([b, d, e] ++ more)) pos (mbFailure pos 4)
          apply decodes_failure_trails
          · intro sequence value isSequence begins
            rcases isSequence.first_four begins lower with ⟨_, _, _, _, equal, whole⟩
            cases equal
            cases whole with
            | four _ _ _ _ _ equal long small =>
                rw [← spelled] at equal
                omega
          · simp [trails]
        · next inside =>
          simp only [Bool.or_eq_true, decide_eq_true_eq, not_or, Nat.not_lt] at inside
          have sequence : Sequence [c, b, d, e] (spellFour c b d e) :=
            .four lower upper trails.1 trails.2.1 trails.2.2 spelled inside.1 (by omega)
          exact ⟨_, rfl, .success sequence (by simp)⟩
      · have bad : (!utf8Trail b || !utf8Trail d || !utf8Trail e) = true := by
          rw [Bool.or_eq_true, Bool.or_eq_true]
          simp only [Bool.not_eq_true', Bool.eq_false_iff, Ne, utf8Trail_iff]
          tauto
        rw [bad, if_pos rfl]
        apply skip
        intro sequence value isSequence begins
        rcases isSequence.first_four begins lower with ⟨_, _, _, _, equal, whole⟩
        cases equal
        cases whole with
        | four _ _ isSecond isThird isFourth _ _ _ =>
            exact trails ⟨isSecond, isThird, isFourth⟩

theorem nextUtf8_decodes (suffix : str.drop pos = c :: rest) :
    ∃ next, nextUtf8 str pos c = some next ∧ Decodes (c :: rest) pos next := by
  have single (bad : ¬ (c.toNat < 0x80 ∨ (0xC2 ≤ c.toNat ∧ c.toNat < 0xF5))) :
      Decodes (c :: rest) pos (mbFailure pos 1) := by
    apply Decodes.failure _ (by decide) (by simp) (by simp)
    intro sequence value isSequence begins
    exact bad (isSequence.first begins)
  simp only [nextUtf8, UInt8.lt_iff_toNat_lt, UInt8.toNat_ofNat, Nat.reducePow, Nat.reduceMod]
  split
  · next small => exact ⟨_, rfl, .success (.one small) (by simp)⟩
  split
  · exact ⟨_, rfl, single (by omega)⟩
  split
  · exact nextUtf8Two_decodes suffix (by omega) (by omega)
  split
  · exact nextUtf8Three_decodes suffix (by omega) (by omega)
  split
  · exact nextUtf8Four_decodes suffix (by omega) (by omega)
  · exact ⟨_, rfl, single (by omega)⟩

/-- Before the end of the string, a call goes by the byte at the cursor. -/
theorem getNextChar_inside (charset : EntityCharset) (inside : pos < str.length) :
    ∃ c rest, str.drop pos = c :: rest ∧
      getNextChar charset str pos = nextInCharset charset str pos c := by
  refine ⟨str[pos], str.drop (pos + 1), List.drop_eq_getElem_cons inside, ?_⟩
  have long : checkLen str pos 1 = true := by
    simp only [checkLen, decide_eq_true_eq]
    omega
  simp [getNextChar, Nat.not_lt.mpr (Nat.le_of_lt inside), long, inside]

theorem phpNextUtf8Char_decodes (inside : pos < str.length) :
    ∃ next, phpNextUtf8Char str pos = some next ∧ Decodes (str.drop pos) pos next := by
  rcases getNextChar_inside .csUtf8 inside with ⟨c, rest, suffix, call⟩
  rw [phpNextUtf8Char, call, suffix]
  exact nextUtf8_decodes suffix

/-! ### Whole strings -/

/-- The results of calling `php_next_utf8_char` from `pos` on until the end is reached. -/
def utf8Chars (str : List UInt8) : Nat → Nat → Option (List NextChar)
  | 0, pos => if pos < str.length then none else some []
  | fuel + 1, pos =>
      if pos < str.length then do
        let next ← phpNextUtf8Char str pos
        let rest ← utf8Chars str fuel next.cursor
        return next :: rest
      else
        some []

/-- The results are the given characters. -/
def Yields (results : List NextChar) (chars : List Char) : Prop :=
  (∀ next ∈ results, next.status = .success) ∧
    results.map NextChar.thisChar = chars.map Char.toNat

theorem yields_cons {results : List NextChar} {chars : List Char} {char : Char} {cursor : Nat}
    (yields : Yields results chars) :
    Yields (mbSuccess char.toNat cursor :: results) (char :: chars) := by
  constructor
  · intro next member
    cases member with
    | head => rfl
    | tail _ member => exact yields.1 next member
  · simp [mbSuccess, yields.2]

/-- The results are right for the bytes: all calls succeed only on an encoding, and on an
encoding of characters they yield these. -/
structure Reads (bytes : List UInt8) (results : List NextChar) : Prop where
  sound : (∀ next ∈ results, next.status = .success) →
    ∃ chars : List Char, bytes = chars.flatMap String.utf8EncodeChar ∧ Yields results chars
  complete : ∀ chars : List Char, bytes = chars.flatMap String.utf8EncodeChar →
    Yields results chars

theorem reads_nil : Reads [] [] where
  sound _ := ⟨[], rfl, by simp [Yields]⟩
  complete chars equal := by
    cases chars with
    | nil => simp [Yields]
    | cons char chars =>
        have nothing := (List.append_eq_nil_iff.mp equal.symm).1
        exact absurd nothing (String.utf8EncodeChar_ne_nil)

theorem encoded_begins (char : Char) (chars : List Char) :
    String.utf8EncodeChar char <+: (char :: chars).flatMap String.utf8EncodeChar := by
  rw [List.flatMap_cons]
  exact List.prefix_append _ _

theorem reads_success {sequence more : List UInt8} {value cursor : Nat} {results : List NextChar}
    (isSequence : Sequence sequence value) (reads : Reads more results) :
    Reads (sequence ++ more) (mbSuccess value cursor :: results) := by
  rcases sequence_iff.mp isSequence with ⟨char, rfl, rfl⟩
  constructor
  · intro succeed
    rcases reads.sound fun next member => succeed next (List.mem_cons_of_mem _ member) with
      ⟨chars, equal, yields⟩
    exact ⟨char :: chars, by rw [equal, List.flatMap_cons], yields_cons yields⟩
  · intro chars equal
    cases chars with
    | nil =>
        have nothing := (List.append_eq_nil_iff.mp equal).1
        exact absurd nothing (String.utf8EncodeChar_ne_nil)
    | cons other chars =>
        have same := isSequence.unique (sequence_encode other) (List.prefix_append _ more)
          (equal ▸ encoded_begins other chars)
        have sameChar : char = other := Char.toNat_inj.mp same.2
        subst sameChar
        rw [List.flatMap_cons] at equal
        exact yields_cons (reads.complete chars (List.append_cancel_left equal))

theorem reads_failure {bytes : List UInt8} {pos skip : Nat} {results : List NextChar}
    (nonempty : bytes ≠ [])
    (none : ∀ sequence value, Sequence sequence value → ¬ sequence <+: bytes) :
    Reads bytes (mbFailure pos skip :: results) := by
  constructor
  · intro succeed
    exact nomatch succeed _ List.mem_cons_self
  · intro chars equal
    cases chars with
    | nil => exact absurd equal nonempty
    | cons char chars =>
        exact absurd (equal ▸ encoded_begins char chars) (none _ _ (sequence_encode char))

theorem utf8Chars_reads (str : List UInt8) : ∀ fuel pos, str.length - pos ≤ fuel →
    ∃ results, utf8Chars str fuel pos = some results ∧ Reads (str.drop pos) results := by
  intro fuel
  induction fuel with
  | zero =>
      intro pos enough
      have atEnd : ¬ pos < str.length := by omega
      rw [List.drop_eq_nil_of_le (Nat.not_lt.mp atEnd)]
      exact ⟨[], by rw [utf8Chars, if_neg atEnd], reads_nil⟩
  | succ fuel induction =>
      intro pos enough
      by_cases inside : pos < str.length
      · rcases phpNextUtf8Char_decodes inside with ⟨next, call, decodes⟩
        have advances : pos < next.cursor := by
          cases decodes with
          | success isSequence _ => exact Nat.lt_add_of_pos_right isSequence.length_pos
          | failure _ positive _ _ => exact Nat.lt_add_of_pos_right positive
        rcases induction next.cursor (by omega) with ⟨results, rest, reads⟩
        refine ⟨next :: results, by simp [utf8Chars, inside, call, rest], ?_⟩
        cases decodes with
        | @success sequence _ isSequence begins =>
            rcases begins with ⟨more, equal⟩
            have behind : str.drop (pos + sequence.length) = more := by
              rw [← List.drop_drop, ← equal, List.drop_left]
            rw [← equal]
            exact reads_success isSequence (behind ▸ reads)
        | failure none _ _ _ =>
            exact reads_failure (by simpa using inside) none
      · rw [List.drop_eq_nil_of_le (Nat.not_lt.mp inside)]
        exact ⟨[], by rw [utf8Chars, if_neg inside], reads_nil⟩

/-- What a failing call skips. -/
theorem phpNextUtf8Char_skips {next : NextChar} (inside : pos < str.length)
    (call : phpNextUtf8Char str pos = some next) (failed : next.status = .failure) :
    pos < next.cursor ∧ next.cursor ≤ str.length ∧
      ∀ index byte, pos < index → index < next.cursor → str[index]? = some byte →
        utf8Lead byte = false := by
  rcases phpNextUtf8Char_decodes inside with ⟨result, result_eq, decodes⟩
  cases result_eq.symm.trans call
  cases decodes with
  | success _ _ => cases failed
  | @failure skip _ positive short passed =>
      rw [List.length_drop] at short
      refine ⟨Nat.lt_add_of_pos_right positive, by change pos + skip ≤ _; omega, ?_⟩
      intro index byte after before read
      change index < pos + skip at before
      apply passed
      have position : ((str.drop pos).take skip).tail[index - pos - 1]? = some byte := by
        rw [List.getElem?_tail, List.getElem?_take_of_lt (by omega), List.getElem?_drop,
          ← read]
        congr 1
        omega
      exact List.mem_of_getElem? position

/-- A byte that cannot lead is not ASCII, and no sequence starts with it. -/
theorem not_first_of_not_lead {index : Nat} {byte : UInt8} (read : str[index]? = some byte)
    (notLead : utf8Lead byte = false) :
    ¬ byte < 0x80 ∧ ∀ char : Char, ¬ String.utf8EncodeChar char <+: str.drop index := by
  rw [Bool.eq_false_iff, Ne, utf8Lead_iff] at notLead
  constructor
  · intro small
    rw [UInt8.lt_iff_toNat_lt] at small
    exact notLead (Or.inl small)
  · intro char begins
    rcases List.getElem?_eq_some_iff.mp read with ⟨inside, rfl⟩
    rw [List.drop_eq_getElem_cons inside] at begins
    exact notLead ((sequence_encode char).first begins)

/-- Calling `php_next_utf8_char` up to the end of the string succeeds throughout exactly on
well-formed text, yields its characters, and a failing call passes no byte at which a
character could start. -/
theorem phpNextUtf8Char_decoding (str : List UInt8) (start : Nat) :
    ∃ results, utf8Chars str (str.length - start) start = some results ∧
      ((∀ next ∈ results, next.status = .success) ↔ WellFormed (str.drop start)) ∧
      (∀ chars : List Char, str.drop start = chars.flatMap String.utf8EncodeChar →
        results.map NextChar.thisChar = chars.map Char.toNat) ∧
      ∀ pos, pos < str.length → ∃ next, phpNextUtf8Char str pos = some next ∧
        (next.status = .failure → pos < next.cursor ∧ next.cursor ≤ str.length ∧
          ∀ index byte, pos < index → index < next.cursor → str[index]? = some byte →
            ¬ byte < 0x80 ∧ ∀ char : Char, ¬ String.utf8EncodeChar char <+: str.drop index) := by
  rcases utf8Chars_reads str (str.length - start) start (Nat.le_refl _) with
    ⟨results, chars, reads⟩
  refine ⟨results, chars, ?_, fun chars equal => (reads.complete chars equal).2, ?_⟩
  · constructor
    · intro succeed
      rcases reads.sound succeed with ⟨chars, equal, _⟩
      exact ⟨chars, equal⟩
    · rintro ⟨chars, equal⟩
      exact (reads.complete chars equal).1
  · intro pos inside
    rcases phpNextUtf8Char_decodes inside with ⟨next, call, _⟩
    refine ⟨next, call, fun failed => ?_⟩
    have skips := phpNextUtf8Char_skips inside call failed
    refine ⟨skips.1, skips.2.1, ?_⟩
    intro index byte after before read
    exact not_first_of_not_lead read (skips.2.2 index byte after before read)

end PhpRuntime.Html
