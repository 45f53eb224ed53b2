import PhpRuntime.Foundation.CString
import PhpRuntime.Foundation.Integers

/-! # Base64

`php_base64_encode` and `php_base64_decode_ex` of `ext/standard/base64.c`. The text that is
decoded ends with a NUL, and a pointer into it is the part of the text behind it.
-/

namespace PhpRuntime.Base64

open Decimal CString Integers

/-- The alphabet; the table of the source has a NUL behind it. -/
def base64Table : List UInt8 :=
  ['A', 'B', 'C', 'D', 'E', 'F', 'G', 'H', 'I', 'J', 'K', 'L', 'M',
    'N', 'O', 'P', 'Q', 'R', 'S', 'T', 'U', 'V', 'W', 'X', 'Y', 'Z',
    'a', 'b', 'c', 'd', 'e', 'f', 'g', 'h', 'i', 'j', 'k', 'l', 'm',
    'n', 'o', 'p', 'q', 'r', 's', 't', 'u', 'v', 'w', 'x', 'y', 'z',
    '0', '1', '2', '3', '4', '5', '6', '7', '8', '9', '+', '/'].map byte

def base64Pad : UInt8 := byte '='

def base64ReverseTable : List Int := [
  -2, -2, -2, -2, -2, -2, -2, -2, -2, -1, -1, -2, -2, -1, -2, -2,
  -2, -2, -2, -2, -2, -2, -2, -2, -2, -2, -2, -2, -2, -2, -2, -2,
  -1, -2, -2, -2, -2, -2, -2, -2, -2, -2, -2, 62, -2, -2, -2, 63,
  52, 53, 54, 55, 56, 57, 58, 59, 60, 61, -2, -2, -2, -2, -2, -2,
  -2,  0,  1,  2,  3,  4,  5,  6,  7,  8,  9, 10, 11, 12, 13, 14,
  15, 16, 17, 18, 19, 20, 21, 22, 23, 24, 25, -2, -2, -2, -2, -2,
  -2, 26, 27, 28, 29, 30, 31, 32, 33, 34, 35, 36, 37, 38, 39, 40,
  41, 42, 43, 44, 45, 46, 47, 48, 49, 50, 51, -2, -2, -2, -2, -2] ++
  -- the characters from 128 on
  List.replicate 128 (-2)

/-! ## The encoder -/

/-- `base64_table[n]` -/
def tableAt (n : Nat) : UInt8 := base64Table.getD n 0

/-- The characters written for the bytes from `current` on. -/
def encodeFrom : List UInt8 → List UInt8
  | c0 :: c1 :: c2 :: current =>
      tableAt (c0.toNat >>> 2) ::
      tableAt (((c0.toNat &&& 0x03) <<< 4) + (c1.toNat >>> 4)) ::
      tableAt (((c1.toNat &&& 0x0f) <<< 2) + (c2.toNat >>> 6)) ::
      tableAt (c2.toNat &&& 0x3f) :: encodeFrom current
  | [c0, c1] =>
      [tableAt (c0.toNat >>> 2), tableAt (((c0.toNat &&& 0x03) <<< 4) + (c1.toNat >>> 4)),
        tableAt ((c1.toNat &&& 0x0f) <<< 2), base64Pad]
  | [c0] =>
      [tableAt (c0.toNat >>> 2), tableAt ((c0.toNat &&& 0x03) <<< 4), base64Pad, base64Pad]
  | [] => []

/-- `php_base64_encode`: the text, `none` for `NULL`, and `*ret_length`. The `length` of the
string is an `int`. -/
def phpBase64Encode (str : List UInt8) : Option (List UInt8) × Int :=
  let length := int str.length
  if length < 0 then
    (none, 0)
  else
    let result := encodeFrom (str.take length.toNat)
    (some result, int result.length)

/-! ## The decoder -/

/-- The local variables of the decoder: `i`, the bytes of `result` in front of `j`, and
`result[j]`. -/
structure Decoder where
  i : Nat
  done : List UInt8
  pending : UInt8

/-- The `switch` on `i % 4` for a digit, and `i++`. -/
def Decoder.digit (state : Decoder) (ch : Nat) : Decoder :=
  match state.i % 4 with
  | 0 => ⟨state.i + 1, state.done, UInt8.ofNat (ch <<< 2)⟩
  | 1 => ⟨state.i + 1, state.done ++ [state.pending ||| UInt8.ofNat (ch >>> 4)],
      UInt8.ofNat ((ch &&& 0x0f) <<< 4)⟩
  | 2 => ⟨state.i + 1, state.done ++ [state.pending ||| UInt8.ofNat (ch >>> 2)],
      UInt8.ofNat ((ch &&& 0x03) <<< 6)⟩
  | _ => ⟨state.i + 1, state.done ++ [state.pending ||| UInt8.ofNat ch], state.pending⟩

/-- What follows the loop, which has ended on the character `ch`; `result[k]` is behind the
result. -/
def Decoder.finish (state : Decoder) (ch : UInt8) : Option (List UInt8) :=
  if ch = base64Pad ∧ state.i % 4 = 1 then none else some state.done

/-- `base64_reverse_table[ch]` -/
def reverseAt (ch : UInt8) : Int := base64ReverseTable.getD ch.toNat (-2)

/-- `while (isspace(*(++current)));` and whether `*current` is the NUL then. -/
def onlySpaceBehind (current : List UInt8) : Bool :=
  read ((current.drop 1).dropWhile isSpace) 0 = 0

/-- The loop over the text. -/
def decodeLoop (strict : Bool) : List UInt8 → Int → Decoder → Option (List UInt8)
  | [], _, state => state.finish 0
  | ch :: current, length, state =>
      if ch = 0 then
        state.finish 0
      else if length ≤ 0 then
        state.finish ch
      else if ch = base64Pad then
        if read current 0 ≠ base64Pad ∧ (state.i % 4 = 1 ∨ (strict = true ∧ 0 < length - 1)) then
          -- after `continue` the loop ends on the NUL
          if state.i % 4 ≠ 1 ∧ onlySpaceBehind current = true then state.finish 0 else none
        else
          decodeLoop strict current (length - 1) state
      else if (strict = false ∧ reverseAt ch < 0) ∨ reverseAt ch = -1 then
        decodeLoop strict current (length - 1) state
      else if reverseAt ch = -2 then
        none
      else
        decodeLoop strict current (length - 1) (state.digit (reverseAt ch).toNat)

/-- `php_base64_decode_ex`: the result, or `none` for `NULL` and where a negative `length` is
more than `safe_emalloc` can provide. -/
def phpBase64DecodeEx (str : List UInt8) (length : Int) (strict : Bool) : Option (List UInt8) :=
  if length < 0 then none else decodeLoop strict str length ⟨0, [], 0⟩

/-! ## The tables -/

theorem reverseAt_tableAt {n : Nat} (small : n < 64) : reverseAt (tableAt n) = n := by
  have all : ∀ n : Fin 64, reverseAt (tableAt n) = (n : Nat) := by decide +kernel
  exact all ⟨n, small⟩

theorem mem_base64Table {c : UInt8} : c ∈ base64Table ↔ ∃ n < 64, tableAt n = c := by
  have entry : ∀ (n : Nat) (small : n < base64Table.length), tableAt n = base64Table[n] := by
    intro n small
    rw [tableAt, List.getD_eq_getElem?_getD, List.getElem?_eq_getElem small, Option.getD_some]
  rw [List.mem_iff_getElem]
  constructor
  · rintro ⟨n, small, equal⟩
    exact ⟨n, small, (entry n small).trans equal⟩
  · rintro ⟨n, small, equal⟩
    exact ⟨n, small, (entry n small).symm.trans equal⟩

/-- An entry `r` of the reverse table is the right one for the character `c`. -/
def EntryFits (c : UInt8) (r : Int) : Prop :=
  (0 ≤ r ∧ r.toNat < 64 ∧ tableAt r.toNat = c ∧ c ≠ base64Pad ∧ c ≠ 0 ∧ isSpace c = false) ∨
    (r = -1 ∧ isSpace c = true) ∨ r = -2

instance (c : UInt8) (r : Int) : Decidable (EntryFits c r) :=
  inferInstanceAs (Decidable ((_ ∧ _) ∨ (_ ∧ _) ∨ _))

theorem entryFits (c : UInt8) : EntryFits c (reverseAt c) := by
  have all : base64ReverseTable.zipIdx.all
      (fun entry => decide (EntryFits (UInt8.ofNat entry.2) entry.1)) = true := by
    decide +kernel
  have size : base64ReverseTable.length = 256 := by decide +kernel
  have bound : c.toNat < base64ReverseTable.length := size ▸ c.toNat_lt
  have entry : base64ReverseTable[c.toNat]? = some (reverseAt c) := by
    rw [reverseAt, List.getD_eq_getElem?_getD, List.getElem?_eq_getElem bound, Option.getD_some]
  have member : (reverseAt c, c.toNat) ∈ base64ReverseTable.zipIdx :=
    List.mem_zipIdx_iff_getElem?.mpr entry
  have fits := List.all_eq_true.mp all _ member
  dsimp only at fits
  rw [UInt8.ofNat_toNat] at fits
  exact of_decide_eq_true fits

/-- What the reverse table says about the characters. -/
theorem reverseAt_cases (c : UInt8) :
    (c ∈ base64Table ∧ 0 ≤ reverseAt c ∧ c ≠ base64Pad ∧ c ≠ 0 ∧ isSpace c = false) ∨
      (c ∉ base64Table ∧ reverseAt c = -1 ∧ isSpace c = true) ∨
      (c ∉ base64Table ∧ reverseAt c = -2) := by
  have outside : reverseAt c < 0 → c ∉ base64Table := by
    intro negative member
    rcases mem_base64Table.mp member with ⟨n, small, rfl⟩
    rw [reverseAt_tableAt small] at negative
    omega
  rcases entryFits c with ⟨value, small, isChar, rest⟩ | ⟨isSkipped, space⟩ | isForeign
  · exact Or.inl ⟨mem_base64Table.mpr ⟨_, small, isChar⟩, value, rest⟩
  · exact Or.inr (Or.inl ⟨outside (by omega), isSkipped, space⟩)
  · exact Or.inr (Or.inr ⟨outside (by omega), isForeign⟩)

/-! ## Groups of bits -/

/-- The values of the digits that the encoder writes. -/
def sextets : List UInt8 → List Nat
  | c0 :: c1 :: c2 :: current =>
      (c0.toNat >>> 2) :: (((c0.toNat &&& 0x03) <<< 4) + (c1.toNat >>> 4)) ::
      (((c1.toNat &&& 0x0f) <<< 2) + (c2.toNat >>> 6)) :: (c2.toNat &&& 0x3f) ::
      sextets current
  | [c0, c1] =>
      [c0.toNat >>> 2, ((c0.toNat &&& 0x03) <<< 4) + (c1.toNat >>> 4),
        (c1.toNat &&& 0x0f) <<< 2]
  | [c0] => [c0.toNat >>> 2, (c0.toNat &&& 0x03) <<< 4]
  | [] => []

/-- The padding behind the digits of a string with `length` bytes. -/
def padding (length : Nat) : List UInt8 :=
  match length % 3 with
  | 0 => []
  | 1 => [base64Pad, base64Pad]
  | _ => [base64Pad]

theorem padding_add_three (n : Nat) : padding (n + 3) = padding n := by
  rw [padding, padding, Nat.add_mod_right]

theorem encodeFrom_eq (str : List UInt8) :
    encodeFrom str = (sextets str).map tableAt ++ padding str.length := by
  induction str using encodeFrom.induct with
  | case1 c0 c1 c2 current induction =>
      rw [encodeFrom, sextets, induction, List.length_cons, List.length_cons, List.length_cons,
        padding_add_three]
      rfl
  | case2 c0 c1 => rfl
  | case3 c0 => rfl
  | case4 => rfl

theorem and_three (n : Nat) : n &&& 0x03 = n % 4 := Nat.and_two_pow_sub_one_eq_mod n 2

theorem and_fifteen (n : Nat) : n &&& 0x0f = n % 16 := Nat.and_two_pow_sub_one_eq_mod n 4

theorem and_sixtyThree (n : Nat) : n &&& 0x3f = n % 64 := Nat.and_two_pow_sub_one_eq_mod n 6

theorem sextets_lt (str : List UInt8) : ∀ n ∈ sextets str, n < 64 := by
  induction str using encodeFrom.induct with
  | case1 c0 c1 c2 current induction =>
      have b0 := c0.toNat_lt
      have b1 := c1.toNat_lt
      have b2 := c2.toNat_lt
      simp only [sextets, List.forall_mem_cons, and_three, and_fifteen, and_sixtyThree,
        Nat.shiftRight_eq_div_pow, Nat.shiftLeft_eq]
      exact ⟨by omega, by omega, by omega, by omega, induction⟩
  | case2 c0 c1 =>
      have b0 := c0.toNat_lt
      have b1 := c1.toNat_lt
      simp only [sextets, List.forall_mem_cons, and_three, and_fifteen,
        Nat.shiftRight_eq_div_pow, Nat.shiftLeft_eq]
      exact ⟨by omega, by omega, by omega, by simp⟩
  | case3 c0 =>
      have b0 := c0.toNat_lt
      simp only [sextets, List.forall_mem_cons, and_three, Nat.shiftRight_eq_div_pow,
        Nat.shiftLeft_eq]
      exact ⟨by omega, by omega, by simp⟩
  | case4 => simp [sextets]

/-- Bits that are put behind others. -/
theorem or_eq {width high low : Nat} {c : UInt8} (fits : low < 2 ^ width)
    (sum : high * 2 ^ width + low = c.toNat) :
    UInt8.ofNat (high <<< width) ||| UInt8.ofNat low = c := by
  rw [← UInt8.ofNat_or, ← Nat.shiftLeft_add_eq_or_of_lt fits, Nat.shiftLeft_eq, sum,
    UInt8.ofNat_toNat]

theorem first_byte {c0 : UInt8} {low : Nat} (fits : low < 16) :
    UInt8.ofNat ((c0.toNat >>> 2) <<< 2) |||
      UInt8.ofNat ((((c0.toNat &&& 0x03) <<< 4) + low) >>> 4) = c0 := by
  have b0 := c0.toNat_lt
  simp only [and_three, Nat.shiftRight_eq_div_pow, Nat.shiftLeft_eq _ 4]
  apply or_eq <;> omega

theorem second_byte {c1 : UInt8} {high low : Nat} (fits : low < 4) :
    UInt8.ofNat ((((high <<< 4) + (c1.toNat >>> 4)) &&& 0x0f) <<< 4) |||
      UInt8.ofNat ((((c1.toNat &&& 0x0f) <<< 2) + low) >>> 2) = c1 := by
  have b1 := c1.toNat_lt
  simp only [and_fifteen, Nat.shiftRight_eq_div_pow, Nat.shiftLeft_eq high,
    Nat.shiftLeft_eq _ 2]
  apply or_eq <;> omega

theorem third_byte {c2 : UInt8} {high : Nat} :
    UInt8.ofNat ((((high <<< 2) + (c2.toNat >>> 6)) &&& 0x03) <<< 6) |||
      UInt8.ofNat (c2.toNat &&& 0x3f) = c2 := by
  have b2 := c2.toNat_lt
  simp only [and_three, and_sixtyThree, Nat.shiftRight_eq_div_pow, Nat.shiftLeft_eq high]
  apply or_eq <;> omega

theorem shiftRight_lt (c : UInt8) {n width : Nat} (whole : width + n = 8) :
    c.toNat >>> n < 2 ^ width := by
  rw [Nat.shiftRight_eq_div_pow, Nat.div_lt_iff_lt_mul (Nat.two_pow_pos n), ← Nat.pow_add, whole]
  exact c.toNat_lt

theorem Decoder.digit_zero {i : Nat} {done : List UInt8} {pending : UInt8}
    (place : i % 4 = 0) (ch : Nat) :
    Decoder.digit ⟨i, done, pending⟩ ch = ⟨i + 1, done, UInt8.ofNat (ch <<< 2)⟩ := by
  simp [Decoder.digit, place]

theorem Decoder.digit_one {i : Nat} {done : List UInt8} {pending : UInt8}
    (place : i % 4 = 1) (ch : Nat) :
    Decoder.digit ⟨i, done, pending⟩ ch =
      ⟨i + 1, done ++ [pending ||| UInt8.ofNat (ch >>> 4)], UInt8.ofNat ((ch &&& 0x0f) <<< 4)⟩ := by
  simp [Decoder.digit, place]

theorem Decoder.digit_two {i : Nat} {done : List UInt8} {pending : UInt8}
    (place : i % 4 = 2) (ch : Nat) :
    Decoder.digit ⟨i, done, pending⟩ ch =
      ⟨i + 1, done ++ [pending ||| UInt8.ofNat (ch >>> 2)], UInt8.ofNat ((ch &&& 0x03) <<< 6)⟩ := by
  simp [Decoder.digit, place]

theorem Decoder.digit_three {i : Nat} {done : List UInt8} {pending : UInt8}
    (place : i % 4 = 3) (ch : Nat) :
    Decoder.digit ⟨i, done, pending⟩ ch =
      ⟨i + 1, done ++ [pending ||| UInt8.ofNat ch], pending⟩ := by
  simp [Decoder.digit, place]

/-- The digits of a string give its bytes back, from any place where a byte begins. -/
theorem foldl_digit (str : List UInt8) (state : Decoder) (aligned : state.i % 4 = 0) :
    ((sextets str).foldl Decoder.digit state).done = state.done ++ str ∧
      ((sextets str).foldl Decoder.digit state).i % 4 ≠ 1 := by
  induction str using encodeFrom.induct generalizing state with
  | case1 c0 c1 c2 current induction =>
      rcases state with ⟨i, done, pending⟩
      dsimp only at aligned
      have one : (i + 1) % 4 = 1 := by omega
      have two : (i + 1 + 1) % 4 = 2 := by omega
      have three : (i + 1 + 1 + 1) % 4 = 3 := by omega
      rw [sextets, List.foldl_cons, List.foldl_cons, List.foldl_cons, List.foldl_cons,
        Decoder.digit_zero aligned, Decoder.digit_one one, Decoder.digit_two two,
        Decoder.digit_three three, first_byte (@shiftRight_lt c1 4 4 rfl), second_byte
        (@shiftRight_lt c2 6 2 rfl), third_byte]
      have later := fun pending => induction
        ⟨i + 1 + 1 + 1 + 1, done ++ [c0] ++ [c1] ++ [c2], pending⟩ (by dsimp only; omega)
      exact ⟨(later _).1.trans (by simp), (later _).2⟩
  | case2 c0 c1 =>
      rcases state with ⟨i, done, pending⟩
      dsimp only at aligned
      have one : (i + 1) % 4 = 1 := by omega
      have two : (i + 1 + 1) % 4 = 2 := by omega
      have second := @second_byte c1 (c0.toNat &&& 0x03) 0 (by decide)
      rw [Nat.add_zero] at second
      rw [sextets, List.foldl_cons, List.foldl_cons, List.foldl_cons, List.foldl_nil,
        Decoder.digit_zero aligned, Decoder.digit_one one, Decoder.digit_two two,
        first_byte (@shiftRight_lt c1 4 4 rfl), second]
      refine ⟨by simp, ?_⟩
      dsimp only
      omega
  | case3 c0 =>
      rcases state with ⟨i, done, pending⟩
      dsimp only at aligned
      have one : (i + 1) % 4 = 1 := by omega
      have first := @first_byte c0 0 (by decide)
      rw [Nat.add_zero] at first
      rw [sextets, List.foldl_cons, List.foldl_cons, List.foldl_nil, Decoder.digit_zero aligned,
        Decoder.digit_one one, first]
      refine ⟨rfl, ?_⟩
      dsimp only
      omega
  | case4 =>
      rw [sextets, List.foldl_nil, List.append_nil]
      exact ⟨rfl, by omega⟩

/-! ## The loop over digits, skipped characters and padding -/

/-- What the decoder reads in front of the padding. -/
def Readable (strict : Bool) (body : List UInt8) : Prop :=
  ∀ c ∈ body, c ∈ base64Table ∨ (strict = false ∧ c ≠ base64Pad ∧ c ≠ 0)

theorem decodeLoop_body {strict : Bool} {body : List UInt8} (readable : Readable strict body)
    (rest : List UInt8) {length : Nat} (state : Decoder) :
    decodeLoop strict (body ++ rest) (body.length + length : Nat) state =
      decodeLoop strict rest length
        (((body.filter (· ∈ base64Table)).map fun c => (reverseAt c).toNat).foldl
          Decoder.digit state) := by
  induction body generalizing state with
  | nil => simp
  | cons c body induction =>
      have remaining : ((c :: body).length + length : Nat) - (1 : Int) =
          (body.length + length : Nat) := by
        rw [List.length_cons]
        omega
      have left : ¬ (((c :: body).length + length : Nat) : Int) ≤ 0 := by
        rw [List.length_cons]
        omega
      have later := fun state => induction
        (fun d member => readable d (List.mem_cons_of_mem c member)) state
      rw [List.cons_append, decodeLoop, remaining]
      rcases reverseAt_cases c with ⟨inside, value, notPad, notNul, _⟩ | other
      · rw [if_neg notNul, if_neg left, if_neg notPad, if_neg (by omega), if_neg (by omega),
          later, List.filter_cons_of_pos (by simpa using inside), List.map_cons,
          List.foldl_cons]
      · have outside : c ∉ base64Table := by
          rcases other with ⟨outside, _⟩ | ⟨outside, _⟩ <;> exact outside
        rcases readable c List.mem_cons_self with inside | ⟨loose, notPad, notNul⟩
        · exact absurd inside outside
        · rw [if_neg notNul, if_neg left, if_neg notPad, if_pos (Or.inl ⟨loose, by omega⟩),
            later, List.filter_cons_of_neg (by simpa using outside)]

theorem decodeLoop_padding (strict : Bool) (length : Nat) {state : Decoder}
    (place : state.i % 4 ≠ 1) :
    decodeLoop strict (padding length) (padding length).length state = some state.done := by
  have ends : ∀ n, decodeLoop strict [] n state = some state.done := fun n => by
    rw [decodeLoop, Decoder.finish, if_neg (fun bad => absurd bad.1 (by decide))]
  have one : decodeLoop strict [base64Pad] 1 state = some state.done := by
    rw [decodeLoop, if_neg (by decide), if_neg (by decide), if_pos rfl, if_neg, ends]
    rintro ⟨_, bad | ⟨_, bad⟩⟩
    · exact place bad
    · exact absurd bad (by decide)
  rw [padding]
  split
  · exact ends _
  · change decodeLoop strict [base64Pad, base64Pad] 2 state = _
    rw [decodeLoop, if_neg (by decide), if_neg (by decide), if_pos rfl, if_neg]
    · exact one
    · intro bad
      exact bad.1 rfl
  · exact one

/-- A text whose digits in front of the padding are those of the string. -/
theorem phpBase64DecodeEx_body {strict : Bool} {body str : List UInt8}
    (readable : Readable strict body)
    (digits : body.filter (· ∈ base64Table) = (sextets str).map tableAt) :
    phpBase64DecodeEx (body ++ padding str.length)
      (body ++ padding str.length).length strict = some str := by
  have values : (((sextets str).map tableAt).map fun c => (reverseAt c).toNat) = sextets str := by
    rw [List.map_map]
    have back : ∀ n ∈ sextets str, ((fun c => (reverseAt c).toNat) ∘ tableAt) n = n := by
      intro n member
      rw [Function.comp_apply, reverseAt_tableAt (sextets_lt str n member), Int.toNat_natCast]
    exact (List.map_congr_left back).trans (List.map_id _)
  have result := foldl_digit str ⟨0, [], 0⟩ rfl
  rw [phpBase64DecodeEx, if_neg (by omega), List.length_append, decodeLoop_body readable,
    digits, values, decodeLoop_padding strict str.length result.2, result.1]
  rfl

/-! ## The round trip -/

/-- The text with characters inserted in front of its padding that are neither digits nor `=`
nor NUL. -/
def Inserted (encoded text : List UInt8) : Prop :=
  ∃ body, text = body ++ encoded.dropWhile (· != base64Pad) ∧
    body.filter (· ∈ base64Table) = encoded.takeWhile (· != base64Pad) ∧
    ∀ c ∈ body, c ≠ base64Pad ∧ c ≠ 0

/-- What was encoded is decoded again, in both modes, and without `strict` also from a text
with characters inserted. -/
def RoundTrips (str : List UInt8) : Prop :=
  ∃ encoded, (phpBase64Encode str).1 = some encoded ∧
    (∀ strict, phpBase64DecodeEx encoded (phpBase64Encode str).2 strict = some str) ∧
    ∀ text, Inserted encoded text → phpBase64DecodeEx text text.length false = some str

/-- The number of characters of the text. -/
def encodedLength (str : List UInt8) : Nat := 4 * ((str.length + 2) / 3)

theorem length_encodeFrom (str : List UInt8) : (encodeFrom str).length = encodedLength str := by
  rw [encodedLength]
  induction str using encodeFrom.induct with
  | case1 c0 c1 c2 current induction =>
      simp only [encodeFrom, List.length_cons, induction]
      omega
  | case2 c0 c1 => simp [encodeFrom]
  | case3 c0 => simp [encodeFrom]
  | case4 => rfl

/-- The padding begins where the digits end. -/
theorem encodeFrom_parts (str : List UInt8) :
    (encodeFrom str).takeWhile (· != base64Pad) = (sextets str).map tableAt ∧
      (encodeFrom str).dropWhile (· != base64Pad) = padding str.length := by
  have digits : ∀ c ∈ (sextets str).map tableAt, (c != base64Pad) = true := by
    intro c member
    rcases List.mem_map.mp member with ⟨n, isSextet, rfl⟩
    have inside := mem_base64Table.mpr ⟨n, sextets_lt str n isSextet, rfl⟩
    rcases reverseAt_cases (tableAt n) with ⟨_, _, notPad, _⟩ | ⟨outside, _⟩ | ⟨outside, _⟩
    · exact bne_iff_ne.mpr notPad
    · exact absurd inside outside
    · exact absurd inside outside
  have pads : (padding str.length).takeWhile (· != base64Pad) = [] ∧
      (padding str.length).dropWhile (· != base64Pad) = padding str.length := by
    rw [padding]
    split <;> exact ⟨rfl, rfl⟩
  rw [encodeFrom_eq, List.takeWhile_append_of_pos digits, List.dropWhile_append_of_pos digits,
    pads.1, pads.2, List.append_nil]
  exact ⟨rfl, rfl⟩

theorem filter_digits (str : List UInt8) :
    ((sextets str).map tableAt).filter (· ∈ base64Table) = (sextets str).map tableAt := by
  apply List.filter_eq_self.mpr
  intro c member
  rcases List.mem_map.mp member with ⟨n, isSextet, rfl⟩
  exact decide_eq_true (mem_base64Table.mpr ⟨n, sextets_lt str n isSextet, rfl⟩)

/-- The decoder gives back what the encoder has read. -/
theorem decode_encodeFrom (str : List UInt8) (strict : Bool) :
    phpBase64DecodeEx (encodeFrom str) (encodeFrom str).length strict = some str := by
  rw [encodeFrom_eq]
  apply phpBase64DecodeEx_body _ (filter_digits str)
  intro c member
  rcases List.mem_map.mp member with ⟨n, isSextet, rfl⟩
  exact Or.inl (mem_base64Table.mpr ⟨n, sextets_lt str n isSextet, rfl⟩)

theorem decode_inserted {str text : List UInt8} (inserted : Inserted (encodeFrom str) text) :
    phpBase64DecodeEx text text.length false = some str := by
  rcases inserted with ⟨body, rfl, digits, others⟩
  rw [(encodeFrom_parts str).1] at digits
  rw [(encodeFrom_parts str).2]
  apply phpBase64DecodeEx_body _ digits
  intro c member
  exact Or.inr ⟨rfl, others c member⟩

/-- The encoder reads no more than the largest `int` says. -/
theorem phpBase64Encode_cases (str : List UInt8) :
    (phpBase64Encode str).1 = none ∨ ∃ front : List UInt8, front.length < 2 ^ 31 ∧
      phpBase64Encode str = (some (encodeFrom front), int (encodeFrom front).length) := by
  rw [phpBase64Encode]
  dsimp only
  split
  · exact Or.inl rfl
  · rename_i notNegative
    have spec := int_spec str.length
    refine Or.inr ⟨str.take (int str.length).toNat, ?_, rfl⟩
    have shorter := List.length_take_le (int str.length).toNat str
    omega

theorem encodedLength_lt_of_roundTrips {str : List UInt8} (trips : RoundTrips str) :
    encodedLength str < 2 ^ 31 := by
  rcases trips with ⟨encoded, isEncoded, decodes, _⟩
  rcases phpBase64Encode_cases str with null | ⟨front, short, encodes⟩
  · rw [isEncoded] at null
    cases null
  · rw [encodes] at isEncoded decodes
    cases isEncoded
    have decoded := decodes false
    dsimp only at decoded
    have bound : encodedLength front < 2 ^ 32 := by
      rw [encodedLength]
      omega
    rw [← length_encodeFrom] at bound
    rcases Nat.lt_or_ge (encodeFrom front).length (2 ^ 31) with fits | long
    · rw [int_of_lt fits, decode_encodeFrom] at decoded
      cases decoded
      rwa [length_encodeFrom] at fits
    · have negative : int (encodeFrom front).length < 0 := by
        rw [int_of_ge long bound]
        omega
      rw [phpBase64DecodeEx, if_pos negative] at decoded
      cases decoded

/-- A string comes back from its encoding exactly if an `int` can hold the length of the
text. -/
theorem roundTrips_iff (str : List UInt8) : RoundTrips str ↔ encodedLength str < 2 ^ 31 := by
  constructor
  · exact encodedLength_lt_of_roundTrips
  · intro fits
    have short : str.length < 2 ^ 31 := by
      rw [encodedLength] at fits
      omega
    have encodes : phpBase64Encode str =
        (some (encodeFrom str), ((encodeFrom str).length : Int)) := by
      have whole : (int (str.length : Nat)).toNat = str.length := by rw [int_of_lt short]; rfl
      have length : int (encodeFrom str).length = (encodeFrom str).length :=
        int_of_lt (by rw [length_encodeFrom]; exact fits)
      have notNegative : ¬ int (str.length : Nat) < 0 := by
        rw [int_of_lt short]
        omega
      rw [phpBase64Encode]
      dsimp only
      rw [if_neg notNegative, whole, List.take_length, length]
    rw [RoundTrips, encodes]
    exact ⟨encodeFrom str, rfl, decode_encodeFrom str, fun text => decode_inserted⟩

/-- From 1610612734 bytes on the length of the text is a negative `int`. -/
theorem roundTrips_fails :
    ∃ str : List UInt8, str.length = 1610612734 ∧ (phpBase64Encode str).2 = -2147483648 ∧
      ¬ RoundTrips str := by
  have isLong : ∀ str : List UInt8, str.length = 1610612734 →
      (phpBase64Encode str).2 = -2147483648 ∧ ¬ RoundTrips str := by
    intro str length
    have encoded : encodedLength str = 2147483648 := by
      rw [encodedLength, length]
    constructor
    · have whole : (int (str.length : Nat)).toNat = str.length := by rw [length]; rfl
      have notNegative : ¬ int (str.length : Nat) < 0 := by rw [length]; decide
      rw [phpBase64Encode]
      dsimp only
      rw [if_neg notNegative, whole, List.take_length, length_encodeFrom, encoded]
      rfl
    · intro trips
      have fits := encodedLength_lt_of_roundTrips trips
      rw [encoded] at fits
      exact absurd fits (by decide)
  exact ⟨List.replicate 1610612734 0, List.length_replicate, isLong _ List.length_replicate⟩

end PhpRuntime.Base64
