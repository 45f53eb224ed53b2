import PhpRuntime.Foundation.CString
import PhpRuntime.Foundation.Integers

/-! # Quoted-printable text

`php_quot_print_encode`, `php_quot_print_decode` and `quoted_printable_decode` of
`ext/standard/quot_print.c`, in the C locale. A pointer into a text is the part of the text
behind it, and a NUL stands behind every text.
-/

namespace PhpRuntime.QuotPrint

open Decimal CString

/-! ## The encoder -/

/-- `PHP_QPRINT_MAXL` -/
def phpQprintMaxl : Nat := 75

def hex : List UInt8 :=
  ['0', '1', '2', '3', '4', '5', '6', '7', '8', '9', 'A', 'B', 'C', 'D', 'E', 'F'].map byte

/-- `hex[n]` -/
def hexAt (n : Nat) : UInt8 := hex.getD n 0

def softBreak : List UInt8 := [byte '=', cr, lf]

def escape (c : UInt8) : List UInt8 :=
  [byte '=', hexAt (c.toNat >>> 4), hexAt (c.toNat &&& 0xf)]

/-- Whether `c`, with `next` behind it, is written as an escape. -/
def escaped (c next : UInt8) : Bool :=
  isCntrl c || c == 0x7f || c &&& 0x80 != 0 || c == byte '=' || (c == byte ' ' && next == cr)

/-- Whether the escape of `c`, which would end at the position `lp`, goes to a new line. The
bytes that lead a character of several bytes keep room for the others. -/
def breaks (lp : Nat) (c : UInt8) : Bool :=
  (lp > phpQprintMaxl && c ≤ 0x7f) ||
    (c > 0x7f && c ≤ 0xdf && lp + 3 > phpQprintMaxl) ||
    (c > 0xdf && c ≤ 0xef && lp + 6 > phpQprintMaxl) ||
    (c > 0xef && c ≤ 0xf4 && lp + 9 > phpQprintMaxl)

/-- What is written for one byte, and the position in the line behind it. -/
def encodeByte (lp : Nat) (c next : UInt8) : List UInt8 × Nat :=
  if escaped c next then
    if breaks (lp + 3) c then (softBreak ++ escape c, 3) else (escape c, lp + 3)
  else if lp + 1 > phpQprintMaxl then (softBreak ++ [c], 1) else ([c], lp + 1)

/-- The loop of `php_quot_print_encode` from the position `lp` of a line on. -/
def encodeFrom : Nat → List UInt8 → List UInt8
  | _, [] => []
  | lp, [c] => (encodeByte lp c 0).1
  | lp, c :: d :: str =>
      if c = cr ∧ d = lf then cr :: lf :: encodeFrom 0 str
      else (encodeByte lp c d).1 ++ encodeFrom (encodeByte lp c d).2 (d :: str)

def phpQuotPrintEncode (str : List UInt8) : List UInt8 := encodeFrom 0 str

/-! ## `php_quot_print_decode` -/

def hexvalTbl : List Nat := [
  64, 64, 64, 64, 64, 64, 64, 64, 64, 32, 16, 64, 64, 16, 64, 64,
  64, 64, 64, 64, 64, 64, 64, 64, 64, 64, 64, 64, 64, 64, 64, 64,
  32, 64, 64, 64, 64, 64, 64, 64, 64, 64, 64, 64, 64, 64, 64, 64,
   0,  1,  2,  3,  4,  5,  6,  7,  8,  9, 64, 64, 64, 64, 64, 64,
  64, 10, 11, 12, 13, 14, 15, 64, 64, 64, 64, 64, 64, 64, 64, 64,
  64, 64, 64, 64, 64, 64, 64, 64, 64, 64, 64, 64, 64, 64, 64, 64,
  64, 10, 11, 12, 13, 14, 15, 64, 64, 64, 64, 64, 64, 64, 64, 64,
  64, 64, 64, 64, 64, 64, 64, 64, 64, 64, 64, 64, 64, 64, 64, 64] ++
  -- the characters from 128 on
  List.replicate 128 64

/-- `hexval_tbl[c]` -/
def hexval (c : UInt8) : Nat := hexvalTbl.getD c.toNat 64

/-- The blanks between a `=` and the end of its line: the text that begins with the character
that ends them. -/
def skipBlanks : List UInt8 → Option (List UInt8)
  | [] => none
  | [c] => if hexval c = 32 then none else some [c]
  | c :: d :: text =>
      if hexval c = 32 then if hexval d = 64 then none else skipBlanks (d :: text)
      else some (c :: d :: text)

/-- The text behind the end of a line. -/
def skipLineEnd : List UInt8 → List UInt8
  | c :: d :: text => if c = cr ∧ d = lf then text else d :: text
  | _ => []

theorem length_skipBlanks {text stop : List UInt8} (found : skipBlanks text = some stop) :
    stop.length ≤ text.length := by
  induction text with
  | nil => simp [skipBlanks] at found
  | cons c rest induction =>
      cases rest with
      | nil =>
          simp only [skipBlanks] at found
          split at found
          · simp at found
          · simp [← Option.some.inj found]
      | cons d rest =>
          simp only [skipBlanks] at found
          split at found
          · split at found
            · simp at found
            · have bound := induction found
              simp only [List.length_cons] at bound ⊢
              omega
          · simp [← Option.some.inj found]

theorem length_skipLineEnd (text : List UInt8) : (skipLineEnd text).length ≤ text.length - 1 := by
  unfold skipLineEnd
  split
  · split <;> simp
  · simp

/-- The bytes that the second pass writes, and whether it accepts the text; the text is what
the counter `i` leaves of the string. -/
def decodeFrom (replaceUsByWs : Bool) (text : List UInt8) : List UInt8 × Bool :=
  match text with
  | [] => ([], true)
  | c :: text =>
      if c = 0 then ([], true)
      else if c = byte '=' then
        match text with
        | [] => ([], true)
        | d :: text =>
            if d = 0 then ([], true)
            else if hexval d < 16 then
              match text with
              | [] => ([], false)
              | e :: text =>
                  if 16 ≤ hexval e then ([], false)
                  else (decodeFrom replaceUsByWs text).map
                    (UInt8.ofNat ((hexval d <<< 4) ||| hexval e) :: ·) id
            else if hexval d < 64 then
              match _found : skipBlanks (d :: text) with
              | none => ([], false)
              | some stop => decodeFrom replaceUsByWs (skipLineEnd stop)
            else ([], false)
      else (decodeFrom replaceUsByWs text).map
        ((if replaceUsByWs ∧ c = byte '_' then byte ' ' else c) :: ·) id
termination_by text.length
decreasing_by
  all_goals simp_wf
  · omega
  · have skipped := length_skipBlanks _found
    have ended := length_skipLineEnd stop
    simp only [List.length_cons] at skipped
    omega

/-- The first pass: what is left of `buf_size` when two bytes are taken off for each `=` that
is found in front of a further character. -/
def firstPass : Int → List UInt8 → Int
  | bufSize, c :: d :: text =>
      if c = 0 then bufSize
      else if c = byte '=' then firstPass (bufSize - 2) text
      else firstPass bufSize (d :: text)
  | bufSize, _ => bufSize

/-- What the two passes see of a text: the counter `i` is an `unsigned int`. -/
def counted (str : List UInt8) : List UInt8 := str.take (str.length % 2 ^ 32)

def bufSize (str : List UInt8) : Int := firstPass str.length (counted str)

/-- The decoded bytes, `none` for `NULL`. -/
def phpQuotPrintDecode (str : List UInt8) (replaceUsByWs : Bool) : Option (List UInt8) :=
  let decoded := decodeFrom replaceUsByWs (counted str)
  if decoded.2 then some decoded.1 else none

/-! ## `quoted_printable_decode` -/

/-- `php_hex2int`, as the byte that its `char` is. -/
def phpHex2int (c : UInt8) : UInt8 :=
  if isDigit c then c - byte '0'
  else if byte 'A' ≤ c ∧ c ≤ byte 'F' then c - byte 'A' + 10
  else if byte 'a' ≤ c ∧ c ≤ byte 'f' then c - byte 'a' + 10
  else 255

def isBlank (c : UInt8) : Bool := c == 32 || c == 9

/-- The loop of `quoted_printable_decode`. -/
def unquote (strIn : List UInt8) : List UInt8 :=
  match strIn with
  | [] => []
  | c :: rest =>
      if c = 0 then []
      else if c = byte '=' then
        if read rest 0 ≠ 0 ∧ read rest 1 ≠ 0 ∧
            isXdigit (read rest 0) ∧ isXdigit (read rest 1) then
          ((phpHex2int (read rest 0) <<< 4) + phpHex2int (read rest 1)) :: unquote (rest.drop 2)
        else
          let line := rest.dropWhile isBlank
          if read line 0 = 0 then unquote line
          else if read line 0 = 13 ∧ read line 1 = 10 then unquote (line.drop 2)
          else if read line 0 = 13 ∨ read line 0 = 10 then unquote (line.drop 1)
          else c :: unquote rest
      else c :: unquote rest
termination_by strIn.length
decreasing_by
  all_goals simp only [List.length_cons, List.length_drop]
  all_goals have blanks := (List.dropWhile_sublist isBlank (l := rest)).length_le
  all_goals omega

/-- The decoded string; `none` if the length of the argument, or the size of the result, is no
`int`. -/
def quotedPrintableDecode (arg1 : List UInt8) : Option (List UInt8) := do
  let arg1Len ← Integers.counted arg1.length
  if arg1Len = 0 then return []
  -- `str_out = emalloc(arg1_len + 1)`
  let _ ← Integers.counted (arg1Len + 1)
  return unquote arg1

theorem quotedPrintableDecode_eq (arg1 : List UInt8) : quotedPrintableDecode arg1 =
    if arg1.length + 1 < 2 ^ 31 then some (unquote arg1) else none := by
  rw [quotedPrintableDecode]
  by_cases fits : arg1.length + 1 < 2 ^ 31
  · rw [Integers.counted_eq (Nat.lt_of_succ_lt fits), if_pos fits]
    by_cases empty : arg1.length = 0
    · simp [List.length_eq_zero_iff.mp empty, unquote]
    · simp [empty, Integers.counted_eq fits]
  · rw [if_neg fits, Integers.counted]
    split
    · have nonempty : arg1.length ≠ 0 := by omega
      simp [nonempty, Integers.counted_eq_none (Nat.le_of_not_lt fits)]
    · rfl

/-! ## The pieces of an encoded text -/

/-- A text is empty, begins with the end of a line, or begins with a byte that does not. -/
@[elab_as_elim]
theorem text_induction {motive : List UInt8 → Prop} (nil : motive [])
    (crlf : ∀ str, motive str → motive (cr :: lf :: str))
    (one : ∀ c str, ¬ (c = cr ∧ str.head? = some lf) → motive str → motive (c :: str))
    (str : List UInt8) : motive str := by
  suffices both : motive str ∧ ∀ c, motive (c :: str) from both.1
  induction str with
  | nil =>
      have single (c : UInt8) : motive [c] := one c [] (by simp) nil
      exact ⟨nil, single⟩
  | cons d rest induction =>
      have here : motive (d :: rest) := induction.2 d
      refine ⟨here, fun c => ?_⟩
      by_cases ending : c = cr ∧ d = lf
      · rw [ending.1, ending.2]
        exact crlf rest induction.1
      · exact one c (d :: rest) (by simpa using ending) here

@[simp]
theorem encodeFrom_nil (lp : Nat) : encodeFrom lp [] = [] := rfl

@[simp]
theorem encodeFrom_crlf (lp : Nat) (str : List UInt8) :
    encodeFrom lp (cr :: lf :: str) = cr :: lf :: encodeFrom 0 str := by
  simp [encodeFrom]

theorem encodeFrom_cons (lp : Nat) {c : UInt8} {str : List UInt8}
    (one : ¬ (c = cr ∧ str.head? = some lf)) :
    encodeFrom lp (c :: str) =
      (encodeByte lp c (read str 0)).1 ++ encodeFrom (encodeByte lp c (read str 0)).2 str := by
  cases str with
  | nil => simp [encodeFrom, CString.read]
  | cons d rest =>
      have different : ¬ (c = cr ∧ d = lf) := by simpa using one
      simp [encodeFrom, CString.read, different]

/-- A byte that stands for itself. -/
def Plain (c : UInt8) : Prop := c ≠ 0 ∧ c ≠ byte '=' ∧ c ≠ cr ∧ c ≤ 0xf4

theorem plain_of_not_escaped {c next : UInt8} (plain : escaped c next = false) : Plain c := by
  have bytes : ∀ n : Fin 256, UInt8.ofNat n &&& 0x80 = 0 → UInt8.ofNat n ≤ 0xf4 := by
    decide +kernel
  have ascii := bytes ⟨c.toNat, c.toNat_lt⟩
  simp only [UInt8.ofNat_toNat] at ascii
  simp only [escaped, isCntrl, Bool.or_eq_false_iff, decide_eq_false_iff_not,
    beq_eq_false_iff_ne, bne_eq_false_iff_eq] at plain
  obtain ⟨⟨⟨⟨⟨large, -⟩, -⟩, seven⟩, equals⟩, -⟩ := plain
  refine ⟨?_, equals, ?_, ascii seven⟩
  · intro equal
    exact large (by rw [equal]; decide)
  · intro equal
    exact large (by rw [equal]; decide)

/-- What a byte is written as. -/
def Data (c : UInt8) (data : List UInt8) : Prop := data = escape c ∨ data = [c] ∧ Plain c

/-- A byte goes to a new line only from the column 64 on; one up to `0xf4` that does not go to
a new line ends in the column 75 at most. -/
theorem encodeByte_cases (lp : Nat) (c next : UInt8) : ∃ data, Data c data ∧
    ((encodeByte lp c next = (softBreak ++ data, data.length) ∧ 64 ≤ lp ∧ c ≤ 0xf4) ∨
      (encodeByte lp c next = (data, lp + data.length) ∧
        (c ≤ 0xf4 → lp + data.length ≤ 75))) := by
  cases isEscaped : escaped c next with
  | true =>
      refine ⟨escape c, Or.inl rfl, ?_⟩
      simp only [encodeByte, isEscaped, if_true]
      cases onNewLine : breaks (lp + 3) c with
      | true =>
          left
          refine ⟨rfl, ?_⟩
          simp only [breaks, phpQprintMaxl, Bool.or_eq_true, Bool.and_eq_true,
            decide_eq_true_iff, UInt8.le_iff_toNat_le, UInt8.lt_iff_toNat_lt, gt_iff_lt,
            UInt8.toNat_ofNat] at onNewLine ⊢
          omega
      | false =>
          right
          refine ⟨rfl, ?_⟩
          simp only [breaks, phpQprintMaxl, Bool.or_eq_false_iff, Bool.and_eq_false_iff,
            decide_eq_false_iff_not, UInt8.le_iff_toNat_le, UInt8.lt_iff_toNat_lt, gt_iff_lt,
            UInt8.toNat_ofNat, escape, List.length_cons, List.length_nil] at onNewLine ⊢
          omega
  | false =>
      have plain := plain_of_not_escaped isEscaped
      refine ⟨[c], Or.inr ⟨rfl, plain⟩, ?_⟩
      simp only [encodeByte, isEscaped, Bool.false_eq_true, if_false]
      by_cases full : lp + 1 > phpQprintMaxl
      · rw [if_pos full]
        have column : 75 ≤ lp := Nat.lt_succ_iff.mp full
        exact Or.inl ⟨rfl, by omega, plain.2.2.2⟩
      · rw [if_neg full]
        exact Or.inr ⟨rfl, fun _ => Nat.le_of_not_lt full⟩

/-- A soft line break may stand in front of what a byte is written as. -/
theorem encodeByte_shape (lp : Nat) (c next : UInt8) : ∃ lead data,
    (encodeByte lp c next).1 = lead ++ data ∧ (lead = [] ∨ lead = softBreak) ∧ Data c data := by
  obtain ⟨data, isData, written⟩ := encodeByte_cases lp c next
  cases written with
  | inl onNewLine => exact ⟨softBreak, data, by rw [onNewLine.1], Or.inr rfl, isData⟩
  | inr onLine => exact ⟨[], data, by rw [onLine.1]; rfl, Or.inl rfl, isData⟩

/-! ## Decoding one piece -/

/-- What the decoders read in a digit of the encoder. -/
theorem hexAt_spec {n : Nat} (small : n < 16) :
    hexAt n ≠ 0 ∧ hexval (hexAt n) = n ∧ isXdigit (hexAt n) = true ∧
      phpHex2int (hexAt n) = UInt8.ofNat n := by
  have digits : ∀ n : Fin 16, hexAt n ≠ 0 ∧ hexval (hexAt n) = n ∧ isXdigit (hexAt n) = true ∧
      phpHex2int (hexAt n) = UInt8.ofNat n := by decide
  exact digits ⟨n, small⟩

theorem high_lt (c : UInt8) : c.toNat >>> 4 < 16 := by
  have bound := c.toNat_lt
  rw [Nat.shiftRight_eq_div_pow]
  omega

theorem low_lt (c : UInt8) : c.toNat &&& 0xf < 16 := Nat.lt_succ_of_le Nat.and_le_right

theorem halves (c : UInt8) :
    UInt8.ofNat (((c.toNat >>> 4) <<< 4) ||| (c.toNat &&& 0xf)) = c ∧
      (UInt8.ofNat (c.toNat >>> 4) <<< 4) + UInt8.ofNat (c.toNat &&& 0xf) = c := by
  have bytes : ∀ n : Fin 256,
      UInt8.ofNat (((n.val >>> 4) <<< 4) ||| (n.val &&& 0xf)) = UInt8.ofNat n.val ∧
      (UInt8.ofNat (n.val >>> 4) <<< 4) + UInt8.ofNat (n.val &&& 0xf) = UInt8.ofNat n.val := by
    decide +kernel
  have here := bytes ⟨c.toNat, c.toNat_lt⟩
  simpa using here

theorem decodeFrom_plain (us : Bool) {c : UInt8} (text : List UInt8) (nonzero : c ≠ 0)
    (different : c ≠ byte '=') : decodeFrom us (c :: text) =
      (decodeFrom us text).map
        ((if us ∧ c = byte '_' then byte ' ' else c) :: ·) id := by
  rw [decodeFrom.eq_def]
  simp only [nonzero, different, if_false]

theorem decodeFrom_escape (us : Bool) (c : UInt8) (text : List UInt8) :
    decodeFrom us (escape c ++ text) = (decodeFrom us text).map (c :: ·) id := by
  obtain ⟨highNonzero, highValue, -⟩ := hexAt_spec (high_lt c)
  obtain ⟨-, lowValue, -⟩ := hexAt_spec (low_lt c)
  have highSmall := high_lt c
  have lowSmall := low_lt c
  simp only [escape, List.cons_append, List.nil_append]
  rw [decodeFrom.eq_def]
  simp only [show ¬ byte '=' = 0 by decide, highNonzero, highValue, highSmall, lowValue,
    Nat.not_le.mpr lowSmall, if_true, if_false, (halves c).1]

theorem decodeFrom_softBreak (us : Bool) (text : List UInt8) :
    decodeFrom us (softBreak ++ text) = decodeFrom us text := by
  have blanks : skipBlanks (cr :: lf :: text) = some (cr :: lf :: text) := by
    rw [skipBlanks, if_neg (by decide)]
  have ended : skipLineEnd (cr :: lf :: text) = text := by
    rw [skipLineEnd, if_pos ⟨rfl, rfl⟩]
  simp only [softBreak, List.cons_append, List.nil_append]
  rw [decodeFrom.eq_def]
  simp only [show ¬ byte '=' = 0 by decide, show ¬ cr = 0 by decide,
    show ¬ hexval cr < 16 by decide, show hexval cr < 64 by decide, if_true, if_false]
  split
  · rename_i missing
    rw [blanks] at missing
    cases missing
  · rename_i stop found
    rw [blanks] at found
    rw [← Option.some.inj found, ended]

theorem unquote_plain {c : UInt8} (text : List UInt8) (nonzero : c ≠ 0)
    (different : c ≠ byte '=') : unquote (c :: text) = c :: unquote text := by
  rw [unquote.eq_def]
  simp only [nonzero, different, if_false]

theorem unquote_escape (c : UInt8) (text : List UInt8) :
    unquote (escape c ++ text) = c :: unquote text := by
  obtain ⟨highNonzero, -, highDigit, highValue⟩ := hexAt_spec (high_lt c)
  obtain ⟨lowNonzero, -, lowDigit, lowValue⟩ := hexAt_spec (low_lt c)
  simp only [escape, List.cons_append, List.nil_append]
  rw [unquote.eq_def]
  simp only [show ¬ byte '=' = 0 by decide, if_true, if_false]
  rw [if_pos (by simp [CString.read, highNonzero, lowNonzero, highDigit, lowDigit])]
  simp only [CString.read, List.getD_cons_zero, List.getD_cons_succ, highValue, lowValue,
    (halves c).2, List.drop_succ_cons, List.drop_zero]

theorem unquote_softBreak (text : List UInt8) : unquote (softBreak ++ text) = unquote text := by
  have blanks : (cr :: lf :: text).dropWhile isBlank = cr :: lf :: text := by
    simp [show isBlank cr = false by decide]
  simp only [softBreak, List.cons_append, List.nil_append]
  rw [unquote.eq_def]
  simp only [show ¬ byte '=' = 0 by decide, if_false, if_true, blanks]
  rw [if_neg (by simp [CString.read, show isXdigit cr = false by decide]),
    if_neg (by simp [CString.read, show ¬ cr = 0 by decide]),
    if_pos (by simp [CString.read, cr, lf])]
  rfl

/-! ## Round trips -/

/-- A decoder that undoes every piece the encoder writes. -/
structure Undoes {β : Type} (decode : List UInt8 → β) (push : UInt8 → β → β) : Prop where
  plain : ∀ c text, Plain c → decode (c :: text) = push c (decode text)
  crlf : ∀ text, decode (cr :: lf :: text) = push cr (push lf (decode text))
  escape : ∀ c text, decode (escape c ++ text) = push c (decode text)
  softBreak : ∀ text, decode (softBreak ++ text) = decode text

namespace Undoes

variable {β : Type} {decode : List UInt8 → β} {push : UInt8 → β → β}

theorem encodeByte (undoes : Undoes decode push) (lp : Nat) (c next : UInt8)
    (text : List UInt8) :
    decode ((encodeByte lp c next).1 ++ text) = push c (decode text) := by
  obtain ⟨lead, data, written, isLead, isData⟩ := encodeByte_shape lp c next
  have piece : decode (data ++ text) = push c (decode text) := by
    cases isData with
    | inl isEscape =>
        rw [isEscape]
        exact undoes.escape c text
    | inr isPlain =>
        rw [isPlain.1]
        exact undoes.plain c text isPlain.2
  rw [written, List.append_assoc]
  cases isLead with
  | inl empty => rw [empty, List.nil_append, piece]
  | inr isBreak => rw [isBreak, undoes.softBreak, piece]

theorem encodeFrom (undoes : Undoes decode push) (str : List UInt8) (lp : Nat) :
    decode (encodeFrom lp str) = str.foldr push (decode []) := by
  induction str using text_induction generalizing lp with
  | nil => rfl
  | crlf str induction =>
      rw [encodeFrom_crlf, undoes.crlf, induction]
      rfl
  | one c str one induction =>
      rw [encodeFrom_cons lp one, undoes.encodeByte, induction]
      rfl

end Undoes

theorem undoes_decodeFrom :
    Undoes (decodeFrom false) (fun c decoded => decoded.map (c :: ·) id) where
  plain c text plain := by
    have decoded := decodeFrom_plain false text plain.1 plain.2.1
    simpa using decoded
  crlf text := by
    rw [decodeFrom_plain false _ (by decide) (by decide),
      decodeFrom_plain false _ (by decide) (by decide)]
    rfl
  escape := decodeFrom_escape false
  softBreak := decodeFrom_softBreak false

theorem decodeFrom_encodeFrom (str : List UInt8) (lp : Nat) :
    decodeFrom false (encodeFrom lp str) = (str, true) := by
  have empty : decodeFrom false [] = ([], true) := by rw [decodeFrom.eq_def]
  rw [undoes_decodeFrom.encodeFrom, empty]
  induction str with
  | nil => rfl
  | cons c str induction =>
      rw [List.foldr_cons, induction]
      rfl

theorem undoes_unquote : Undoes unquote List.cons where
  plain c text plain := unquote_plain text plain.1 plain.2.1
  crlf text := by
    rw [unquote_plain _ (by decide) (by decide), unquote_plain _ (by decide) (by decide)]
  escape := unquote_escape
  softBreak := unquote_softBreak

theorem unquote_encodeFrom (str : List UInt8) (lp : Nat) :
    unquote (encodeFrom lp str) = str := by
  have empty : unquote [] = [] := by rw [unquote.eq_def]
  rw [undoes_unquote.encodeFrom, empty, List.foldr_cons_nil]

/-! ## A text that is cut short

The counter of `php_quot_print_decode` drops the higher half of the length. No byte is
decoded before its piece is complete. -/

theorem decodeFrom_data_take {c : UInt8} {data : List UInt8} (isData : Data c data) {k : Nat}
    (short : k < data.length) :
    (decodeFrom false (data.take k)).1 = [] := by
  have empty : (decodeFrom false []).1 = [] := by rw [decodeFrom.eq_def]
  cases isData with
  | inl isEscape =>
      subst isEscape
      obtain ⟨highNonzero, highValue, -⟩ := hexAt_spec (high_lt c)
      have digit : hexval (hexAt (c.toNat >>> 4)) < 16 := by
        rw [highValue]
        exact high_lt c
      have cases : k = 0 ∨ k = 1 ∨ k = 2 := by
        simp only [escape, List.length_cons, List.length_nil] at short
        omega
      obtain rfl | rfl | rfl := cases
      · exact empty
      · simp only [escape, List.take_succ_cons, List.take_zero]
        rw [decodeFrom.eq_def]
        simp [show ¬ byte '=' = 0 by decide]
      · simp only [escape, List.take_succ_cons, List.take_zero]
        rw [decodeFrom.eq_def]
        simp [show ¬ byte '=' = 0 by decide, highNonzero, digit]
  | inr isPlain =>
      rw [isPlain.1] at short ⊢
      have zero : k = 0 := Nat.lt_one_iff.mp short
      rw [zero, List.take_zero, empty]

theorem decodeFrom_softBreak_take {k : Nat} (short : k < 3) :
    (decodeFrom false (softBreak.take k)).1 = [] := by
  have cases : k = 0 ∨ k = 1 ∨ k = 2 := by omega
  obtain rfl | rfl | rfl := cases
  · rw [List.take_zero, decodeFrom.eq_def]
  · simp only [softBreak, List.take_succ_cons, List.take_zero]
    rw [decodeFrom.eq_def]
    simp [show ¬ byte '=' = 0 by decide]
  · have ended : skipLineEnd [cr] = [] := rfl
    have blanks : skipBlanks [cr] = some [cr] := rfl
    simp only [softBreak, List.take_succ_cons, List.take_zero]
    rw [decodeFrom.eq_def]
    simp only [show ¬ byte '=' = 0 by decide, show ¬ cr = 0 by decide,
      show ¬ hexval cr < 16 by decide, show hexval cr < 64 by decide, if_true, if_false]
    split
    · rfl
    · rename_i stop found
      rw [blanks] at found
      rw [← Option.some.inj found, ended, decodeFrom.eq_def]

theorem decodeFrom_encodeByte_take (lp : Nat) (c next : UInt8) {k : Nat}
    (short : k < (encodeByte lp c next).1.length) :
    (decodeFrom false ((encodeByte lp c next).1.take k)).1 = [] := by
  obtain ⟨lead, data, written, isLead, isData⟩ := encodeByte_shape lp c next
  rw [written] at short ⊢
  cases isLead with
  | inl empty =>
      rw [empty] at short ⊢
      exact decodeFrom_data_take isData short
  | inr isBreak =>
      rw [isBreak] at short ⊢
      by_cases inside : k < 3
      · have front : (softBreak ++ data).take k = softBreak.take k :=
          List.take_append_of_le_length (Nat.le_of_lt inside)
        rw [front, decodeFrom_softBreak_take inside]
      · have back : (softBreak ++ data).take k = softBreak ++ data.take (k - 3) := by
          rw [List.take_append, List.take_of_length_le (Nat.le_of_not_lt inside)]
          rfl
        have rest : k - 3 < data.length := by
          simp only [softBreak, List.length_append, List.length_cons, List.length_nil] at short
          omega
        rw [back, decodeFrom_softBreak, decodeFrom_data_take isData rest]

/-- What is decoded of the beginning of an encoded text is shorter than the source. -/
theorem decodeFrom_take_shorter (str : List UInt8) (lp k : Nat)
    (short : k < (encodeFrom lp str).length) :
    (decodeFrom false ((encodeFrom lp str).take k)).1.length < str.length := by
  induction str using text_induction generalizing lp k with
  | nil => simp at short
  | crlf str induction =>
      have empty : (decodeFrom false []).1 = [] := by rw [decodeFrom.eq_def]
      rw [encodeFrom_crlf] at short ⊢
      cases k with
      | zero => simp [empty]
      | succ k =>
          rw [List.take_succ_cons, decodeFrom_plain false _ (by decide) (by decide)]
          cases k with
          | zero => simp [empty]
          | succ k =>
              rw [List.take_succ_cons, decodeFrom_plain false _ (by decide) (by decide)]
              have rest := induction 0 k (by simpa using short)
              simpa using rest
  | one c str one induction =>
      rw [encodeFrom_cons lp one] at short ⊢
      generalize position : (encodeByte lp c (CString.read str 0)).2 = behind at short ⊢
      by_cases inside : k < (encodeByte lp c (CString.read str 0)).1.length
      · rw [List.take_append_of_le_length (Nat.le_of_lt inside),
          decodeFrom_encodeByte_take _ _ _ inside]
        simp
      · rw [List.take_append, List.take_of_length_le (Nat.le_of_not_lt inside),
          undoes_decodeFrom.encodeByte]
        have rest := induction behind (k - (encodeByte lp c (CString.read str 0)).1.length) (by
          rw [List.length_append] at short
          omega)
        simpa using rest

/-- Both decoders give the source of an encoded text back exactly where their counters can
count its characters, and the second also the NUL behind them. -/
theorem quotedPrintableDecode_encode_iff (str : List UInt8) :
    (phpQuotPrintDecode (phpQuotPrintEncode str) false = some str ↔
        (phpQuotPrintEncode str).length < 2 ^ 32) ∧
      (quotedPrintableDecode (phpQuotPrintEncode str) = some str ↔
        (phpQuotPrintEncode str).length < 2 ^ 31 - 1) := by
  constructor
  · constructor
    · intro decoded
      by_contra large
      have cut : (phpQuotPrintEncode str).length % 2 ^ 32 < (phpQuotPrintEncode str).length := by
        have remainder := Nat.mod_lt (phpQuotPrintEncode str).length (Nat.two_pow_pos 32)
        omega
      have shorter : (decodeFrom false (counted (phpQuotPrintEncode str))).1.length < str.length :=
        decodeFrom_take_shorter str 0 _ cut
      simp only [phpQuotPrintDecode, Option.ite_none_right_eq_some, Option.some.injEq] at decoded
      rw [decoded.2] at shorter
      exact Nat.lt_irrefl _ shorter
    · intro small
      simp only [phpQuotPrintDecode, counted, Nat.mod_eq_of_lt small, List.take_length]
      simp only [phpQuotPrintEncode, decodeFrom_encodeFrom, if_true]
  · have decoded : unquote (phpQuotPrintEncode str) = str := unquote_encodeFrom str 0
    rw [quotedPrintableDecode_eq, decoded, Option.ite_none_right_eq_some, and_iff_left rfl]
    omega

theorem encodeFrom_replicate (n lp : Nat) :
    encodeFrom lp (List.replicate n 0xff) = (List.replicate n (escape 0xff)).flatten := by
  induction n generalizing lp with
  | zero => rfl
  | succ n induction =>
      have one : ¬ ((0xff : UInt8) = cr ∧ (List.replicate n (0xff : UInt8)).head? = some lf) :=
        fun both => absurd both.1 (by decide)
      have never : breaks (lp + 3) 0xff = false := by
        simp [breaks]
      have written (next : UInt8) : encodeByte lp 0xff next = (escape 0xff, lp + 3) := by
        have isEscaped : escaped 0xff next = true := by
          rw [escaped, show ((0xff : UInt8) &&& 0x80 != 0) = true by decide]
          simp
        simp [encodeByte, isEscaped, never]
      rw [List.replicate_succ, encodeFrom_cons lp one, written, induction, List.replicate_succ,
        List.flatten_cons]

/-- 1431655766 bytes `0xff` are a string of PHP; of their 2^32 + 2 characters the decoder sees
the first two. -/
theorem long_text_rejected : ∃ str : List UInt8, str.length = 1431655766 ∧
    phpQuotPrintDecode (phpQuotPrintEncode str) false = none := by
  have rejected (n : Nat) (positive : 0 < n) (size : 3 * n % 2 ^ 32 = 2) :
      phpQuotPrintDecode (phpQuotPrintEncode (List.replicate n 0xff)) false = none := by
    obtain ⟨m, rfl⟩ := Nat.exists_eq_add_of_lt positive
    have long : (phpQuotPrintEncode (List.replicate (0 + m + 1) 0xff)).length =
        3 * (0 + m + 1) := by
      simp [phpQuotPrintEncode, encodeFrom_replicate, escape, Nat.mul_comm]
    have digit : hexval (hexAt ((0xff : UInt8).toNat >>> 4)) < 16 := by decide
    have seen : counted (phpQuotPrintEncode (List.replicate (0 + m + 1) 0xff)) =
        [byte '=', hexAt ((0xff : UInt8).toNat >>> 4)] := by
      rw [counted, long, size, phpQuotPrintEncode, encodeFrom_replicate, List.replicate_succ]
      rfl
    have result : (decodeFrom false [byte '=', hexAt ((0xff : UInt8).toNat >>> 4)]).2 = false := by
      rw [decodeFrom.eq_def]
      simp only [show ¬ byte '=' = 0 by decide, digit, if_true, if_false,
        show ¬ hexAt ((0xff : UInt8).toNat >>> 4) = 0 by decide]
    rw [phpQuotPrintDecode, seen]
    simp only [result, Bool.false_eq_true, if_false]
  exact ⟨List.replicate 1431655766 0xff, List.length_replicate, rejected _ (by decide) (by decide)⟩

end PhpRuntime.QuotPrint
