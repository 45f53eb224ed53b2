import Mathlib.Algebra.Group.Nat.Defs
import Mathlib.Data.List.Infix

/-! # UTF-8 sequences

A character is encoded by `String.utf8EncodeChar`; here the encodings are described byte
by byte, with the number that the bytes spell.
-/

namespace PhpRuntime.Utf8

/-- The bytes are the encoding of some characters. -/
def WellFormed (bytes : List UInt8) : Prop :=
  ∃ chars : List Char, bytes = chars.flatMap String.utf8EncodeChar

/-- A byte behind the first of a sequence. -/
structure Trail (byte : UInt8) : Prop where
  lower : 0x80 ≤ byte.toNat
  upper : byte.toNat < 0xC0

/-- The shortest sequence of bytes for a scalar value. -/
inductive Sequence : List UInt8 → Nat → Prop
  | one {a : UInt8} : a.toNat < 0x80 → Sequence [a] a.toNat
  | two {a b : UInt8} : 0xC2 ≤ a.toNat → a.toNat < 0xE0 → Trail b →
      Sequence [a, b] ((a.toNat - 0xC0) * 2 ^ 6 + (b.toNat - 0x80))
  | three {a b c : UInt8} {value : Nat} : 0xE0 ≤ a.toNat → a.toNat < 0xF0 →
      Trail b → Trail c →
      value = (a.toNat - 0xE0) * 2 ^ 12 + (b.toNat - 0x80) * 2 ^ 6 + (c.toNat - 0x80) →
      0x800 ≤ value → ¬ (0xD800 ≤ value ∧ value ≤ 0xDFFF) → Sequence [a, b, c] value
  | four {a b c d : UInt8} {value : Nat} : 0xF0 ≤ a.toNat → a.toNat < 0xF5 →
      Trail b → Trail c → Trail d →
      value = (a.toNat - 0xF0) * 2 ^ 18 + (b.toNat - 0x80) * 2 ^ 12 +
        (c.toNat - 0x80) * 2 ^ 6 + (d.toNat - 0x80) →
      0x10000 ≤ value → value ≤ 0x10FFFF → Sequence [a, b, c, d] value

theorem trail_ofNat (value : Nat) : Trail (UInt8.ofNat (value % 64 + 128)) := by
  constructor <;> rw [UInt8.toNat_ofNat'] <;> omega

theorem sequence_encode (char : Char) :
    Sequence (String.utf8EncodeChar char) char.toNat := by
  have valid : char.toNat.isValidChar := char.valid
  change Sequence (String.utf8EncodeChar char) char.val.toNat
  change char.val.toNat.isValidChar at valid
  simp only [String.utf8EncodeChar]
  generalize char.val.toNat = value at valid
  split
  · next small =>
    have number : (UInt8.ofNat value).toNat = value := by
      rw [UInt8.toNat_ofNat']
      omega
    have one : Sequence [UInt8.ofNat value] (UInt8.ofNat value).toNat := .one (by omega)
    rwa [number] at one
  · split
    · have two : Sequence [UInt8.ofNat (value / 64 % 32 + 192), UInt8.ofNat (value % 64 + 128)] _ :=
        .two (by rw [UInt8.toNat_ofNat']; omega) (by rw [UInt8.toNat_ofNat']; omega)
          (trail_ofNat value)
      have number : ((UInt8.ofNat (value / 64 % 32 + 192)).toNat - 0xC0) * 2 ^ 6 +
          ((UInt8.ofNat (value % 64 + 128)).toNat - 0x80) = value := by
        simp only [UInt8.toNat_ofNat']
        omega
      rwa [number] at two
    · split
      · apply Sequence.three
        · rw [UInt8.toNat_ofNat']
          omega
        · rw [UInt8.toNat_ofNat']
          omega
        · exact trail_ofNat _
        · exact trail_ofNat _
        · simp only [UInt8.toNat_ofNat']
          omega
        · omega
        · omega
      · apply Sequence.four
        · rw [UInt8.toNat_ofNat']
          omega
        · rw [UInt8.toNat_ofNat']
          omega
        · exact trail_ofNat _
        · exact trail_ofNat _
        · exact trail_ofNat _
        · simp only [UInt8.toNat_ofNat']
          omega
        · omega
        · omega

/-- The encoding of the character with a given scalar value. -/
theorem encode_ofNat {value : Nat} (valid : value.isValidChar) :
    (Char.ofNat value).toNat = value ∧
      String.utf8EncodeChar (Char.ofNat value) =
        if value ≤ 127 then [UInt8.ofNat value]
        else if value ≤ 2047 then
          [UInt8.ofNat (value / 64 % 32 + 192), UInt8.ofNat (value % 64 + 128)]
        else if value ≤ 65535 then
          [UInt8.ofNat (value / 4096 % 16 + 224), UInt8.ofNat (value / 64 % 64 + 128),
            UInt8.ofNat (value % 64 + 128)]
        else
          [UInt8.ofNat (value / 262144 % 8 + 240), UInt8.ofNat (value / 4096 % 64 + 128),
            UInt8.ofNat (value / 64 % 64 + 128), UInt8.ofNat (value % 64 + 128)] := by
  have number : (Char.ofNat value).val.toNat = value := by
    rw [Char.ofNat, dif_pos valid]
    rfl
  constructor
  · exact number
  · simp only [String.utf8EncodeChar, number]

theorem eq_ofNat (byte : UInt8) {value : Nat} (equal : value = byte.toNat) :
    UInt8.ofNat value = byte := by
  rw [equal]
  exact UInt8.ofNat_toNat

theorem Sequence.isValidChar {bytes : List UInt8} {value : Nat}
    (sequence : Sequence bytes value) : value.isValidChar := by
  cases sequence with
  | one small =>
      left
      omega
  | two _ below trail =>
      have upper := trail.upper
      left
      omega
  | three _ below second third equal _ notSurrogate =>
      have upperSecond := second.upper
      have upperThird := third.upper
      unfold Nat.isValidChar
      omega
  | four _ _ _ _ _ _ lower upper =>
      right
      omega

theorem Sequence.encode_eq {bytes : List UInt8} {value : Nat}
    (sequence : Sequence bytes value) :
    String.utf8EncodeChar (Char.ofNat value) = bytes := by
  rw [(encode_ofNat sequence.isValidChar).2]
  cases sequence with
  | @one a small =>
      rw [if_pos (by omega), eq_ofNat a rfl]
  | @two a b lower upper trail =>
      have trailLower := trail.lower
      have trailUpper := trail.upper
      rw [if_neg (by omega), if_pos (by omega), eq_ofNat a (by omega), eq_ofNat b (by omega)]
  | @three a b c _ lower upper second third equal long _ =>
      have secondLower := second.lower
      have secondUpper := second.upper
      have thirdLower := third.lower
      have thirdUpper := third.upper
      rw [if_neg (by omega), if_neg (by omega), if_pos (by omega), eq_ofNat a (by omega),
        eq_ofNat b (by omega), eq_ofNat c (by omega)]
  | @four a b c d _ lower upper second third fourth equal long _ =>
      have secondLower := second.lower
      have secondUpper := second.upper
      have thirdLower := third.lower
      have thirdUpper := third.upper
      have fourthLower := fourth.lower
      have fourthUpper := fourth.upper
      rw [if_neg (by omega), if_neg (by omega), if_neg (by omega), eq_ofNat a (by omega),
        eq_ofNat b (by omega), eq_ofNat c (by omega), eq_ofNat d (by omega)]

theorem sequence_iff {bytes : List UInt8} {value : Nat} :
    Sequence bytes value ↔
      ∃ char : Char, String.utf8EncodeChar char = bytes ∧ char.toNat = value := by
  constructor
  · intro sequence
    exact ⟨Char.ofNat value, sequence.encode_eq, (encode_ofNat sequence.isValidChar).1⟩
  · rintro ⟨char, rfl, rfl⟩
    exact sequence_encode char

/-! ### Sequences at the start of a string -/

variable {bytes rest : List UInt8} {value : Nat} {a : UInt8}

theorem Sequence.length_pos (sequence : Sequence bytes value) : 0 < bytes.length := by
  cases sequence <;> simp

/-- The first byte of a sequence. -/
theorem Sequence.first (sequence : Sequence bytes value) (begins : bytes <+: a :: rest) :
    a.toNat < 0x80 ∨ (0xC2 ≤ a.toNat ∧ a.toNat < 0xF5) := by
  cases sequence with
  | one small =>
      rw [(List.cons_prefix_cons.mp begins).1] at small
      left
      exact small
  | two lower upper _ | three lower upper _ _ _ _ _ | four lower upper _ _ _ _ _ _ =>
      rw [(List.cons_prefix_cons.mp begins).1] at lower upper
      right
      omega

theorem Sequence.first_two (sequence : Sequence bytes value) (begins : bytes <+: a :: rest)
    (lower : 0xC2 ≤ a.toNat) (upper : a.toNat < 0xE0) :
    ∃ b more, rest = b :: more ∧ Trail b := by
  cases sequence with
  | one small =>
      rw [(List.cons_prefix_cons.mp begins).1] at small
      omega
  | two _ _ trail =>
      cases rest with
      | nil => simp at begins
      | cons b more =>
          rw [List.cons_prefix_cons, List.cons_prefix_cons] at begins
          exact ⟨b, more, rfl, begins.2.1 ▸ trail⟩
  | three other _ _ _ _ _ _ | four other _ _ _ _ _ _ _ =>
      rw [(List.cons_prefix_cons.mp begins).1] at other
      omega

theorem Sequence.first_three (sequence : Sequence bytes value) (begins : bytes <+: a :: rest)
    (lower : 0xE0 ≤ a.toNat) (upper : a.toNat < 0xF0) :
    ∃ b c more, rest = b :: c :: more ∧ Sequence [a, b, c] value := by
  cases sequence with
  | one small =>
      rw [(List.cons_prefix_cons.mp begins).1] at small
      omega
  | two _ other _ | four other _ _ _ _ _ _ _ =>
      rw [(List.cons_prefix_cons.mp begins).1] at other
      omega
  | @three first b c _ firstLower firstUpper second third equal long notSurrogate =>
      rcases begins with ⟨more, same⟩
      injection same with same parts
      subst same
      exact ⟨b, c, more, parts.symm,
        .three firstLower firstUpper second third equal long notSurrogate⟩

theorem Sequence.first_four (sequence : Sequence bytes value) (begins : bytes <+: a :: rest)
    (lower : 0xF0 ≤ a.toNat) :
    ∃ b c d more, rest = b :: c :: d :: more ∧ Sequence [a, b, c, d] value := by
  cases sequence with
  | one small =>
      rw [(List.cons_prefix_cons.mp begins).1] at small
      omega
  | two _ other _ | three _ other _ _ _ _ _ =>
      rw [(List.cons_prefix_cons.mp begins).1] at other
      omega
  | @four first b c d _ firstLower firstUpper second third fourth equal long small =>
      rcases begins with ⟨more, same⟩
      injection same with same parts
      subst same
      exact ⟨b, c, d, more, parts.symm,
        .four firstLower firstUpper second third fourth equal long small⟩

/-- At most one sequence stands at the start of a string. -/
theorem Sequence.unique {left right : List UInt8} {leftValue rightValue : Nat}
    (leftSequence : Sequence left leftValue) (rightSequence : Sequence right rightValue)
    (leftBegins : left <+: bytes) (rightBegins : right <+: bytes) :
    left = right ∧ leftValue = rightValue := by
  rcases leftBegins with ⟨leftRest, leftEqual⟩
  rcases rightBegins with ⟨rightRest, rightEqual⟩
  have same := leftEqual.trans rightEqual.symm
  cases leftSequence <;> cases rightSequence <;>
    simp only [List.cons_append, List.nil_append, List.cons.injEq] at same <;>
    rcases same with ⟨rfl, same⟩ <;> try omega
  · exact ⟨rfl, rfl⟩
  · rcases same with ⟨rfl, _⟩
    exact ⟨rfl, rfl⟩
  · rcases same with ⟨rfl, rfl, _⟩
    exact ⟨rfl, by omega⟩
  · rcases same with ⟨rfl, rfl, rfl, _⟩
    exact ⟨rfl, by omega⟩

end PhpRuntime.Utf8
