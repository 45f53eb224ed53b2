import PhpRuntime.QuotPrint.Codec

/-! # The lines of an encoded text and the buffers of the encoder and the decoder -/

namespace PhpRuntime.QuotPrint

open Decimal CString

/-! ## Lines -/

/-- The texts between the CRLFs of a text. -/
def lines : List UInt8 → List (List UInt8)
  | [] => [[]]
  | [c] => [[c]]
  | c :: d :: text =>
      if c = cr ∧ d = lf then [] :: lines text else (lines (d :: text)).modifyHead (c :: ·)

/-- No line is longer than 76 characters where `column` characters stand in front of the
first one. -/
def Within (column : Nat) (text : List UInt8) : Prop :=
  ∃ line rest, lines text = line :: rest ∧ column + line.length ≤ 76 ∧
    ∀ other ∈ rest, other.length ≤ 76

theorem Within.column_le {column : Nat} {text : List UInt8} (within : Within column text) :
    column ≤ 76 := by
  obtain ⟨line, rest, -, bound, -⟩ := within
  omega

theorem within_zero_iff (text : List UInt8) :
    Within 0 text ↔ ∀ line ∈ lines text, line.length ≤ 76 := by
  have some : ∃ line rest, lines text = line :: rest := by
    induction text using text_induction with
    | nil => exact ⟨[], [], rfl⟩
    | crlf text _ => exact ⟨[], lines text, by simp [lines]⟩
    | one c text one induction =>
        obtain ⟨line, rest, equal⟩ := induction
        cases text with
        | nil => exact ⟨[c], [], rfl⟩
        | cons d text =>
            have different : ¬ (c = cr ∧ d = lf) := by simpa using one
            exact ⟨c :: line, rest, by rw [lines, if_neg different, equal]; rfl⟩
  obtain ⟨line, rest, equal⟩ := some
  simp [Within, equal]

theorem within_nil (column : Nat) : Within column [] ↔ column ≤ 76 := by
  simp [Within, lines]

theorem within_crlf (column : Nat) (text : List UInt8) :
    Within column (cr :: lf :: text) ↔ column ≤ 76 ∧ Within 0 text := by
  rw [within_zero_iff]
  simp [Within, lines]

theorem within_cons (column : Nat) {c : UInt8} (text : List UInt8) (different : c ≠ cr) :
    Within column (c :: text) ↔ Within (column + 1) text := by
  have split : lines (c :: text) = (lines text).modifyHead (c :: ·) := by
    cases text with
    | nil => rfl
    | cons d text => rw [lines, if_neg (fun both => different both.1)]
  unfold Within
  rw [split]
  cases lines text with
  | nil => simp
  | cons line rest => simp [Nat.add_assoc, Nat.add_comm 1]

theorem within_softBreak (column : Nat) (text : List UInt8) :
    Within column (softBreak ++ text) ↔ column + 1 ≤ 76 ∧ Within 0 text := by
  rw [softBreak, List.cons_append, within_cons _ _ (by decide)]
  exact within_crlf (column + 1) text

theorem hexAt_ne_cr (n : Nat) : hexAt n ≠ cr := by
  have digits : ∀ n : Fin 16, hexAt n ≠ cr := by decide
  by_cases small : n < 16
  · exact digits ⟨n, small⟩
  · have outside : hex[n]? = none := List.getElem?_eq_none (Nat.le_of_not_lt small)
    rw [hexAt, List.getD_eq_getElem?_getD, outside]
    decide

theorem within_escape (column : Nat) (c : UInt8) (text : List UInt8) :
    Within column (escape c ++ text) ↔ Within (column + 3) text := by
  simp only [escape, List.cons_append, List.nil_append]
  rw [within_cons _ _ (by decide), within_cons _ _ (hexAt_ne_cr _), within_cons _ _ (hexAt_ne_cr _)]

/-- Nothing or the end of a line follows. -/
def atLineEnd (str : List UInt8) : Bool := str.isEmpty || str.take 2 == [cr, lf]

/-- Whether the escapes of the bytes above `0xf4`, which never go to a new line, stay in their
lines: each ends in the column 75, or in the column 76 at the end of its line. -/
def fits : Nat → List UInt8 → Bool
  | _, [] => true
  | lp, [c] => c ≤ 0xf4 || lp + 3 ≤ 76
  | lp, c :: d :: str =>
      if c = cr ∧ d = lf then fits 0 str
      else (c ≤ 0xf4 || lp + 3 ≤ 75 || lp + 3 == 76 && atLineEnd (d :: str)) &&
        fits (encodeByte lp c d).2 (d :: str)

theorem fits_crlf (lp : Nat) (str : List UInt8) : fits lp (cr :: lf :: str) = fits 0 str := by
  rw [fits, if_pos ⟨rfl, rfl⟩]

theorem fits_cons (lp : Nat) {c : UInt8} {str : List UInt8}
    (one : ¬ (c = cr ∧ str.head? = some lf)) : fits lp (c :: str) =
      ((c ≤ 0xf4 || lp + 3 ≤ 75 || lp + 3 == 76 && atLineEnd str) &&
        fits (encodeByte lp c (CString.read str 0)).2 str) := by
  cases str with
  | nil =>
      have bound : decide (lp + 3 ≤ 76) = (decide (lp + 3 ≤ 75) || lp + 3 == 76) := by
        by_cases small : lp + 3 ≤ 75
        · simp [small, Nat.le_succ_of_le small]
        · simp only [small, decide_false, Bool.false_or]
          rw [Bool.eq_iff_iff, decide_eq_true_iff, beq_iff_eq]
          omega
      rw [show fits lp [c] = (decide (c ≤ 0xf4) || decide (lp + 3 ≤ 76)) from rfl, bound,
        ← Bool.or_assoc]
      simp [atLineEnd, fits]
  | cons d rest =>
      have different : ¬ (c = cr ∧ d = lf) := by simpa using one
      rw [fits, if_neg different]
      rfl

theorem within_data (column : Nat) {c : UInt8} {data : List UInt8} (isData : Data c data)
    (text : List UInt8) :
    Within column (data ++ text) ↔ Within (column + data.length) text := by
  cases isData with
  | inl isEscape =>
      rw [isEscape]
      exact within_escape column c text
  | inr isPlain =>
      rw [isPlain.1]
      exact within_cons column text isPlain.2.2.2.1

theorem data_length {c : UInt8} {data : List UInt8} (isData : Data c data) :
    1 ≤ data.length ∧ data.length ≤ 3 ∧ (¬ c ≤ 0xf4 → data.length = 3) := by
  cases isData with
  | inl isEscape =>
      rw [isEscape]
      exact ⟨by simp [escape], Nat.le_refl _, fun _ => rfl⟩
  | inr isPlain =>
      rw [isPlain.1]
      exact ⟨Nat.le_refl _, by simp, fun large => absurd isPlain.2.2.2.2 large⟩

/-- In the column 76 nothing more can be written on a line. -/
theorem not_within_full {str : List UInt8} (inside : atLineEnd str = false) :
    ¬ Within 76 (encodeFrom 76 str) := by
  intro within
  cases str with
  | nil => simp [atLineEnd] at inside
  | cons c rest =>
      have one : ¬ (c = cr ∧ rest.head? = some lf) := by
        intro both
        cases rest with
        | nil => simp at both
        | cons d rest =>
            have ends : d = lf := by simpa using both.2
            simp [atLineEnd, both.1, ends] at inside
      obtain ⟨data, isData, written⟩ := encodeByte_cases 76 c (CString.read rest 0)
      have size := data_length isData
      rw [encodeFrom_cons 76 one] at within
      cases written with
      | inl onNewLine =>
          rw [onNewLine.1, List.append_assoc, within_softBreak] at within
          omega
      | inr onLine =>
          rw [onLine.1, within_data 76 isData] at within
          have bound := within.column_le
          omega

theorem within_encodeFrom_iff (str : List UInt8) (lp : Nat)
    (inside : lp ≤ 75 ∨ lp = 76 ∧ atLineEnd str = true) :
    Within lp (encodeFrom lp str) ↔ fits lp str = true := by
  induction str using text_induction generalizing lp with
  | nil =>
      rw [encodeFrom_nil, within_nil]
      simp only [fits, iff_true]
      omega
  | crlf str induction =>
      rw [encodeFrom_crlf, within_crlf, fits_crlf, induction 0 (Or.inl (Nat.zero_le _))]
      simp only [and_iff_right_iff_imp]
      omega
  | one c str one induction =>
      have column : lp ≤ 75 := by
        cases inside with
        | inl small => exact small
        | inr ended =>
            cases str with
            | nil => simp [atLineEnd] at ended
            | cons d rest => simp_all [atLineEnd]
      obtain ⟨data, isData, written⟩ := encodeByte_cases lp c (CString.read str 0)
      have size := data_length isData
      rw [encodeFrom_cons lp one, fits_cons lp one]
      cases written with
      | inl onNewLine =>
          have rest := induction data.length (Or.inl (by omega))
          rw [onNewLine.1, List.append_assoc, within_softBreak, within_data 0 isData, Nat.zero_add,
            rest]
          simp only [onNewLine.2.2, decide_true, Bool.true_or, Bool.true_and,
            and_iff_right_iff_imp]
          omega
      | inr onLine =>
          rw [onLine.1, within_data lp isData]
          by_cases small : lp + data.length ≤ 75
          · have room : (decide (c ≤ 0xf4) || decide (lp + 3 ≤ 75)) = true := by
              by_cases ascii : c ≤ 0xf4
              · simp [ascii]
              · have long := size.2.2 ascii
                simp only [Bool.or_eq_true, decide_eq_true_iff]
                omega
            rw [room, Bool.true_or, Bool.true_and, induction _ (Or.inl small)]
          · have large : ¬ c ≤ 0xf4 := fun ascii => small (onLine.2 ascii)
            have long := size.2.2 large
            rw [long] at small ⊢
            simp only [large, small, decide_false, Bool.false_or]
            by_cases last : lp + 3 = 76
            · rw [last]
              cases ended : atLineEnd str with
              | true =>
                  rw [induction 76 (Or.inr ⟨rfl, ended⟩)]
                  simp
              | false =>
                  have full := not_within_full ended
                  simp [full]
            · have beyond : ¬ Within (lp + 3) (encodeFrom (lp + 3) str) := by
                intro within
                have bound := within.column_le
                omega
              simp only [beyond, Bool.and_eq_true, beq_iff_eq, last, false_and]

/-- The lines of an encoded text have at most 76 characters exactly where the escapes of the
bytes above `0xf4` leave room for that. -/
theorem line_length_le_iff (str : List UInt8) :
    (∀ line ∈ lines (phpQuotPrintEncode str), line.length ≤ 76) ↔ fits 0 str = true := by
  rw [← within_zero_iff]
  exact within_encodeFrom_iff str 0 (Or.inl (Nat.zero_le _))

/-- 26 bytes `0xff` are written on one line. -/
theorem long_line : ∃ line ∈ lines (phpQuotPrintEncode (List.replicate 26 0xff)),
    line.length = 78 := by
  decide +kernel

/-! ## The buffer of the encoder

A line that a soft break ends has at least 64 characters, and so at least 22 bytes of the
source. -/

theorem length_encodeFrom (str : List UInt8) (lp bytes : Nat) (credit : lp ≤ 3 * bytes) :
    (encodeFrom lp str).length ≤ 3 * str.length + 3 * ((bytes + str.length) / 22) := by
  induction str using text_induction generalizing lp bytes with
  | nil => simp
  | crlf str induction =>
      have rest := induction 0 0 (Nat.zero_le _)
      rw [encodeFrom_crlf]
      simp only [List.length_cons]
      omega
  | one c str one induction =>
      obtain ⟨data, isData, written⟩ := encodeByte_cases lp c (CString.read str 0)
      have size := data_length isData
      rw [encodeFrom_cons lp one]
      simp only [List.length_append, List.length_cons]
      cases written with
      | inl onNewLine =>
          have rest := induction data.length 1 (by omega)
          rw [onNewLine.1]
          simp only [List.length_append, softBreak, List.length_cons, List.length_nil]
          omega
      | inr onLine =>
          have rest := induction (lp + data.length) (bytes + 1) (by omega)
          rw [onLine.1]
          simp only
          omega

/-! ## The buffer of the decoder -/

theorem firstPass_add (size more : Int) (text : List UInt8) :
    firstPass (size + more) text = firstPass size text + more := by
  fun_induction firstPass size text with
  | case1 => simp [firstPass, *]
  | case2 size d text zero induction =>
      rw [firstPass, if_neg zero, if_pos rfl, ← induction]
      congr 1
      omega
  | case3 size c d text zero equals induction =>
      rw [firstPass, if_neg zero, if_neg equals, induction]
  | case4 size text short =>
      rw [firstPass.eq_def]
      split
      · rename_i c d text
        exact absurd rfl (short c d text)
      · rfl

/-- What the first pass reserves for a text. -/
def reserved (text : List UInt8) : Int := firstPass text.length text

theorem reserved_cons {c : UInt8} (text : List UInt8) (nonzero : c ≠ 0)
    (different : c ≠ byte '=') : reserved (c :: text) = reserved text + 1 := by
  cases text with
  | nil => rfl
  | cons d text =>
      rw [reserved, firstPass, if_neg nonzero, if_neg different, reserved, ← firstPass_add]
      rfl

theorem reserved_equals (d : UInt8) (text : List UInt8) :
    reserved (byte '=' :: d :: text) = reserved text := by
  rw [reserved, firstPass, if_neg (by decide), if_pos rfl, reserved]
  congr 1
  simp only [List.length_cons]
  omega

theorem reserved_nonneg (text : List UInt8) : 0 ≤ reserved text := by
  suffices general : ∀ size : Int, text.length ≤ size → 0 ≤ firstPass size text from
    general text.length (Int.le_refl _)
  intro size enough
  fun_induction firstPass size text with
  | case1 => omega
  | case2 size d text zero induction =>
      apply induction
      simp only [List.length_cons] at enough
      omega
  | case3 size c d text zero equals induction =>
      apply induction
      simp only [List.length_cons] at enough ⊢
      omega
  | case4 => omega

theorem ordinary_of_hexval {c : UInt8} (known : hexval c ≠ 64) : c ≠ 0 ∧ c ≠ byte '=' := by
  constructor
  · intro equal
    exact known (by rw [equal]; decide)
  · intro equal
    exact known (by rw [equal]; decide)

/-- Every character of a soft line break behind its first two has a byte of its own. -/
theorem reserved_skip {d : UInt8} {text stop : List UInt8}
    (found : skipBlanks (d :: text) = some stop) :
    reserved (skipLineEnd stop) ≤ reserved text := by
  induction text generalizing d with
  | nil =>
      simp only [skipBlanks] at found
      split at found
      · cases found
      · rw [← Option.some.inj found]
        rfl
  | cons e rest induction =>
      simp only [skipBlanks] at found
      split at found
      · split at found
        · cases found
        · rename_i known
          have ordinary := ordinary_of_hexval known
          rw [reserved_cons rest ordinary.1 ordinary.2]
          have bound := induction found
          omega
      · rw [← Option.some.inj found, skipLineEnd]
        split
        · rename_i ending
          rw [ending.2, reserved_cons rest (by decide) (by decide)]
          omega
        · exact Int.le_refl _

theorem decodeFrom_le_reserved (us : Bool) (text : List UInt8) :
    ((decodeFrom us text).1.length : Int) ≤ reserved text := by
  fun_induction decodeFrom us text with
  | case7 d nonzero digit e text low _ induction =>
      -- an escape: the first pass leaves one byte for its three characters
      have ordinary : e ≠ 0 ∧ e ≠ byte '=' := ordinary_of_hexval (by omega)
      rw [reserved_equals, reserved_cons text ordinary.1 ordinary.2]
      simp only [Prod.map_fst, List.length_cons]
      omega
  | case9 d text nonzero large known stop found _ induction =>
      rw [reserved_equals]
      have bound := reserved_skip found
      omega
  | case11 c text nonzero different induction =>
      rw [reserved_cons text nonzero different]
      simp only [Prod.map_fst, List.length_cons]
      omega
  | _ => exact reserved_nonneg _

/-- The encoder stays in the buffer that it asks for, and the decoder writes no more bytes than
its first pass counts, whether it accepts the text or not. -/
theorem buffers_suffice (str : List UInt8) :
    (phpQuotPrintEncode str).length ≤ 3 * (str.length + 3 * str.length / 66 + 1) ∧
      ∀ us, ((decodeFrom us (counted str)).1.length : Int) ≤ bufSize str := by
  constructor
  · have bound := length_encodeFrom str 0 0 (Nat.zero_le _)
    rw [phpQuotPrintEncode]
    omega
  · intro us
    have written := decodeFrom_le_reserved us (counted str)
    have seen : (counted str).length ≤ str.length := by
      rw [counted, List.length_take]
      exact Nat.min_le_right _ _
    obtain ⟨more, size⟩ := Nat.exists_eq_add_of_le seen
    rw [bufSize, size, Int.natCast_add, firstPass_add]
    rw [reserved] at written
    omega

end PhpRuntime.QuotPrint
