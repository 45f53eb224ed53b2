import PhpRuntime.Foundation.CString
import PhpRuntime.Foundation.Integers

/-! # Uuencoded text

`php_uuencode` and `php_uudecode` of `ext/standard/uuencode.c`. A pointer into a string is the
part of the string behind it. The `char`s are taken without their sign, which has no influence
on the six bits that the macros keep.
-/

namespace PhpRuntime.Uuencode

open Decimal Integers

def newline : UInt8 := 10

/-- `PHP_UU_ENC` -/
def enc (c : Nat) : UInt8 := if c ≠ 0 then UInt8.ofNat ((c &&& 0x3f) + 32) else byte '`'

/-- `PHP_UU_ENC_C2` -/
def encC2 (c0 c1 : UInt8) : UInt8 :=
  enc (((c0.toNat <<< 4) &&& 0x30) ||| ((c1.toNat >>> 4) &&& 0x0f))

/-- `PHP_UU_ENC_C3` -/
def encC3 (c1 c2 : UInt8) : UInt8 :=
  enc (((c1.toNat <<< 2) &&& 0x3c) ||| ((c2.toNat >>> 6) &&& 0x03))

/-- `PHP_UU_DEC` -/
def dec (c : UInt8) : Nat := (c - 32).toNat &&& 0x3f

/-! ## The encoder -/

def encodeGroup (c0 c1 c2 : UInt8) : List UInt8 :=
  [enc (c0.toNat >>> 2), encC2 c0 c1, encC3 c1 c2, enc (c2.toNat &&& 0x3f)]

/-- The inner loop: the groups of three bytes up to `ee`. -/
def encodeGroups : List UInt8 → List UInt8
  | c0 :: c1 :: c2 :: s => encodeGroup c0 c1 c2 ++ encodeGroups s
  | _ => []

/-- What is written from `s` on: the outer loop with `len` 45 and the end of the text. -/
def encodeFrom (s : List UInt8) : List UInt8 :=
  if 45 ≤ s.length then
    enc 45 :: encodeGroups (s.take 45) ++ newline :: encodeFrom (s.drop 45)
  else if 3 < s.length then
    -- the last pass of the loop, which leaves the bytes of an incomplete group
    let ee := s.length / 3 * 3
    enc s.length :: encodeGroups (s.take ee) ++ encodeRest (s.drop ee) ++
      [newline, enc 0, newline]
  else if 0 < s.length then
    enc s.length :: encodeRest s ++ [newline, enc 0, newline]
  else [enc 0, newline]
termination_by s.length
decreasing_by
  rw [List.length_drop]
  omega
where
  /-- The group behind the loop, whose missing bytes are read as NUL. -/
  encodeRest (s : List UInt8) : List UInt8 :=
    if 0 < s.length then
      [enc ((CString.read s 0).toNat >>> 2), encC2 (CString.read s 0) (CString.read s 1),
        if s.length > 1 then encC3 (CString.read s 1) (CString.read s 2) else enc 0,
        if s.length > 2 then enc ((CString.read s 2).toNat &&& 0x3f) else enc 0]
    else []

/-- The text and the length that is returned as an `int`. -/
def phpUuencode (src : List UInt8) : List UInt8 × Int :=
  (encodeFrom src, int (encodeFrom src).length)

/-- The bytes that `php_uuencode` allocates, `ceil(src_len * 1.38) + 46`. -/
def encodeRoom (srcLen : Nat) : Nat := (69 * srcLen + 49) / 50 + 46

/-! ## The decoder -/

/-- The number of characters up to `ee`: `floor(len * 1.33)`, and 60 for 45. -/
def lineChars (len : Nat) : Nat := if len = 45 then 60 else 133 * len / 100

/-- The inner loop, with the number of characters up to `ee` and the bytes written so far;
where it goes to `err` only those are left. -/
def decodeGroups : Nat → List UInt8 → List UInt8 → Except (List UInt8) (List UInt8 × List UInt8)
  | 0, s, p => .ok (s, p)
  | chars + 1, c0 :: c1 :: c2 :: c3 :: s, p =>
      decodeGroups (chars + 1 - 4) s (p ++
        [UInt8.ofNat ((dec c0 <<< 2) ||| (dec c1 >>> 4)),
          UInt8.ofNat ((dec c1 <<< 4) ||| (dec c2 >>> 2)),
          UInt8.ofNat ((dec c2 <<< 6) ||| dec c3)])
  | _ + 1, _, p => .error p

theorem decodeGroups_length {chars : Nat} {s p rest written : List UInt8}
    (decoded : decodeGroups chars s p = .ok (rest, written)) :
    rest.length + 4 * ((chars + 3) / 4) = s.length ∧
      written.length = p.length + 3 * ((chars + 3) / 4) := by
  fun_induction decodeGroups chars s p with
  | case1 =>
      cases decoded
      simp
  | case2 chars c0 c1 c2 c3 s p induction =>
      have behind := induction decoded
      simp only [List.length_cons, List.length_append, List.length_nil] at behind ⊢
      omega
  | case3 => cases decoded

/-- What the outer loop leaves: the text at `s`, the bytes written and `total_len`. -/
structure Stopped where
  s : List UInt8
  p : List UInt8
  totalLen : Nat

/-- The outer loop. -/
def decodeLines (srcLen : Nat) (s p : List UInt8) (totalLen : Nat) :
    Except (List UInt8) Stopped :=
  match s with
  | [] => .ok ⟨[], p, totalLen⟩
  | c :: s =>
      let len := dec c
      if len = 0 then .ok ⟨s, p, totalLen⟩
      else if len > srcLen then .error p
      else if lineChars len > s.length then .error p
      else
        match _decoded : decodeGroups (lineChars len) s p with
        | .error p => .error p
        | .ok (s, p) =>
            if len < 45 then .ok ⟨s, p, totalLen + len⟩
            else decodeLines srcLen (s.drop 1) p (totalLen + len)
termination_by s.length
decreasing_by
  have behind := (decodeGroups_length _decoded).1
  rw [List.length_drop, List.length_cons]
  omega

/-- The bytes stored in `*dest` and the returned value. -/
structure Decoded where
  dest : List UInt8
  result : Int

/-- `php_uudecode`; `none` where a character outside of the text is read, or where the
allocated size is the conversion of a negative number. -/
def phpUudecode (src : List UInt8) (srcLen : Int) : Option Decoded :=
  if srcLen < 0 then none
  else
    match decodeLines srcLen.toNat (src.take srcLen.toNat) [] 0 with
    | .error p => some ⟨p, -1⟩
    | .ok stopped =>
        if stopped.totalLen > stopped.p.length then
          -- `len` has become the truth of the comparison, which is 1
          match stopped.s with
          | c0 :: c1 :: _ =>
              some ⟨stopped.p ++ [UInt8.ofNat ((dec c0 <<< 2) ||| (dec c1 >>> 4))],
                stopped.totalLen⟩
          | _ => none
        else some ⟨stopped.p, stopped.totalLen⟩

/-- The bytes that `php_uudecode` allocates in front of the terminator,
`ceil(src_len * 0.75)`. -/
def decodeRoom (srcLen : Nat) : Nat := (3 * srcLen + 3) / 4

/-- The string that a caller gets. -/
def Decoded.string (decoded : Decoded) : Option (List UInt8) :=
  if decoded.result < 0 then none else some (decoded.dest.take decoded.result.toNat)

/-! ## Any text is decoded inside of its buffers -/

/-- No line length asks for more bytes than its groups hold. -/
theorem lineChars_spec {len : Nat} (small : len < 64) : len ≤ 3 * ((lineChars len + 3) / 4) := by
  have lengths : ∀ len : Fin 64, len ≤ 3 * ((lineChars len + 3) / 4) := by decide
  exact lengths ⟨len, small⟩

theorem dec_lt (c : UInt8) : dec c < 64 := Nat.lt_succ_of_le Nat.and_le_right

theorem decodeGroups_error {chars : Nat} {s p written : List UInt8}
    (failed : decodeGroups chars s p = .error written) :
    4 * written.length ≤ 4 * p.length + 3 * s.length := by
  fun_induction decodeGroups chars s p with
  | case1 => cases failed
  | case2 chars c0 c1 c2 c3 s p induction =>
      have behind := induction failed
      simp only [List.length_cons, List.length_append, List.length_nil] at behind ⊢
      omega
  | case3 =>
      cases failed
      omega

/-- At most three quarters of the text `s` are written behind `p`, and they are enough for the
lengths that were read. -/
def Inside (s p : List UInt8) : Except (List UInt8) Stopped → Prop
  | .error written => 4 * written.length ≤ 4 * p.length + 3 * s.length
  | .ok stopped => 4 * stopped.p.length ≤ 4 * p.length + 3 * s.length ∧
      stopped.totalLen ≤ stopped.p.length

theorem decodeLines_inside (srcLen : Nat) (s p : List UInt8) (totalLen : Nat)
    (enough : totalLen ≤ p.length) : Inside s p (decodeLines srcLen s p totalLen) := by
  fun_induction decodeLines srcLen s p totalLen with
  | case1 => exact ⟨Nat.le_add_right _ _, enough⟩
  | case2 => exact ⟨Nat.le_add_right _ _, enough⟩
  | case3 => exact Nat.le_add_right _ _
  | case4 => exact Nat.le_add_right _ _
  | case5 p totalLen c s len nonzero known room written failed =>
      have bound := decodeGroups_error failed
      simp only [Inside, List.length_cons]
      omega
  | case6 p totalLen c s len nonzero known room rest written decoded short =>
      obtain ⟨consumed, size⟩ := decodeGroups_length decoded
      have held : len ≤ 3 * ((lineChars len + 3) / 4) := lineChars_spec (dec_lt c)
      simp only [Inside, List.length_cons]
      omega
  | case7 p totalLen c s len nonzero known room rest written decoded long induction =>
      obtain ⟨consumed, size⟩ := decodeGroups_length decoded
      have held : len ≤ 3 * ((lineChars len + 3) / 4) := lineChars_spec (dec_lt c)
      have behind := induction (by omega)
      generalize decodeLines srcLen (rest.drop 1) written (totalLen + len) = outcome at behind ⊢
      cases outcome with
      | error last =>
          simp only [Inside, List.length_drop, List.length_cons] at behind ⊢
          omega
      | ok stopped =>
          simp only [Inside, List.length_drop, List.length_cons] at behind ⊢
          omega

theorem phpUudecode_inside (src : List UInt8) : ∃ decoded,
    phpUudecode src src.length = some decoded ∧ decoded.dest.length ≤ decodeRoom src.length ∧
      decoded.result ≤ decodeRoom src.length := by
  have inside := decodeLines_inside src.length src [] 0 (Nat.le_refl _)
  simp only [phpUudecode, show ¬ (src.length : Int) < 0 by omega, if_false, Int.toNat_natCast,
    List.take_length]
  generalize decodeLines src.length src [] 0 = outcome at inside ⊢
  cases outcome with
  | error written =>
      simp only [Inside, List.length_nil] at inside
      refine ⟨⟨written, -1⟩, rfl, ?_, ?_⟩
      · simp only [decodeRoom]
        omega
      · exact Int.le_trans (show (-1 : Int) ≤ 0 by decide) (Int.natCast_nonneg _)
  | ok stopped =>
      simp only [Inside, List.length_nil] at inside
      simp only [show ¬ stopped.totalLen > stopped.p.length by omega, if_false]
      refine ⟨_, rfl, ?_, ?_⟩ <;> simp only [decodeRoom] <;> omega

/-! ## The lines that the encoder writes -/

/-- The groups of a line; missing bytes are NULs. -/
def encodePadded : List UInt8 → List UInt8
  | c0 :: c1 :: c2 :: s => encodeGroup c0 c1 c2 ++ encodePadded s
  | [c0, c1] => encodeGroup c0 c1 0
  | [c0] => encodeGroup c0 0 0
  | [] => []

theorem encodeRest_eq {s : List UInt8} (short : s.length ≤ 3) :
    encodeFrom.encodeRest s = encodePadded s := by
  match s, short with
  | [], _ => rfl
  | [_], _ => rfl
  | [_, _], _ => rfl
  | [_, _, _], _ => rfl

theorem encodeGroups_append_rest (s : List UInt8) :
    encodeGroups (s.take (s.length / 3 * 3)) ++ encodeFrom.encodeRest (s.drop (s.length / 3 * 3)) =
      encodePadded s := by
  induction s using encodePadded.induct with
  | case1 c0 c1 c2 s induction =>
      have groups : (c0 :: c1 :: c2 :: s).length / 3 * 3 = s.length / 3 * 3 + 3 := by
        simp only [List.length_cons]
        omega
      rw [groups, encodePadded, ← induction]
      simp [encodeGroups]
  | case2 c0 c1 => simpa [encodeGroups] using encodeRest_eq (s := [c0, c1]) (by simp)
  | case3 c0 => simpa [encodeGroups] using encodeRest_eq (s := [c0]) (by simp)
  | case4 => rfl

theorem encodeGroups_eq {s : List UInt8} (whole : s.length % 3 = 0) :
    encodeGroups s = encodePadded s := by
  have groups : s.length / 3 * 3 = s.length := by omega
  have parts := encodeGroups_append_rest s
  rw [groups, List.take_length, List.drop_length] at parts
  simpa [encodeFrom.encodeRest] using parts

theorem encodeFrom_long {s : List UInt8} (long : 45 ≤ s.length) :
    encodeFrom s =
      enc 45 :: encodePadded (s.take 45) ++ newline :: encodeFrom (s.drop 45) := by
  have size : (s.take 45).length = 45 := by
    rw [List.length_take]
    omega
  rw [encodeFrom, if_pos long, encodeGroups_eq (by rw [size])]

theorem encodeFrom_short {s : List UInt8} (positive : 0 < s.length) (short : s.length < 45) :
    encodeFrom s = enc s.length :: encodePadded s ++ [newline, enc 0, newline] := by
  rw [encodeFrom, if_neg (Nat.not_le.mpr short)]
  by_cases loop : 3 < s.length
  · simp only [loop, if_true]
    rw [← encodeGroups_append_rest s]
    simp
  · rw [if_neg loop, if_pos positive, encodeRest_eq (Nat.le_of_not_lt loop)]

theorem encodeFrom_nil : encodeFrom [] = [enc 0, newline] := by
  rw [encodeFrom]
  rfl

theorem length_encodePadded (s : List UInt8) :
    (encodePadded s).length = 4 * ((s.length + 2) / 3) := by
  induction s using encodePadded.induct with
  | case1 c0 c1 c2 s induction =>
      simp only [encodePadded, encodeGroup, List.length_append, List.length_cons, List.length_nil,
        induction]
      omega
  | case2 => simp [encodePadded, encodeGroup]
  | case3 => simp [encodePadded, encodeGroup]
  | case4 => rfl

theorem length_encodeFrom (s : List UInt8) : (encodeFrom s).length =
    62 * (s.length / 45) +
      (if s.length % 45 = 0 then 0 else 2 + 4 * ((s.length % 45 + 2) / 3)) + 2 := by
  induction size : s.length using Nat.strong_induction_on generalizing s with
  | _ n induction =>
      subst size
      by_cases long : 45 ≤ s.length
      · have behind := induction (s.drop 45).length (by rw [List.length_drop]; omega) _ rfl
        have first : min 45 s.length = 45 := Nat.min_eq_left long
        obtain ⟨more, equal⟩ := Nat.exists_eq_add_of_le long
        rw [encodeFrom_long long]
        simp only [List.length_append, List.length_cons, length_encodePadded, List.length_take,
          behind, List.length_drop, first]
        rw [equal, Nat.add_sub_cancel_left, Nat.add_mod_left, Nat.add_div_left more (by decide)]
        omega
      · by_cases positive : 0 < s.length
        · rw [encodeFrom_short positive (Nat.lt_of_not_le long)]
          simp only [List.length_append, List.length_cons, List.length_nil, length_encodePadded,
            Nat.mod_eq_of_lt (Nat.lt_of_not_le long), Nat.div_eq_of_lt (Nat.lt_of_not_le long),
            Nat.pos_iff_ne_zero.mp positive, if_false]
          omega
        · have empty : s = [] := List.length_eq_zero_iff.mp (Nat.eq_zero_of_not_pos positive)
          rw [empty, encodeFrom_nil]
          rfl

theorem length_encodeFrom_lt (s : List UInt8) :
    (encodeFrom s).length + 1 ≤ encodeRoom s.length := by
  rw [length_encodeFrom, encodeRoom]
  split <;> omega

/-! ## Round trip -/

theorem dec_enc {n : Nat} (small : n < 64) : dec (enc n) = n := by
  have characters : ∀ n : Fin 64, dec (enc n) = n := by decide
  exact characters ⟨n, small⟩

/-- The bytes that the decoder writes for a line. -/
def pad : List UInt8 → List UInt8
  | c0 :: c1 :: c2 :: s => c0 :: c1 :: c2 :: pad s
  | [c0, c1] => [c0, c1, 0]
  | [c0] => [c0, 0, 0]
  | [] => []

theorem take_pad (s : List UInt8) : (pad s).take s.length = s := by
  induction s using pad.induct with
  | case1 c0 c1 c2 s induction => simp [pad, induction]
  | case2 => rfl
  | case3 => rfl
  | case4 => rfl

theorem pad_eq {s : List UInt8} (whole : s.length % 3 = 0) : pad s = s := by
  induction s using pad.induct with
  | case1 c0 c1 c2 s induction =>
      rw [pad, induction (by simp only [List.length_cons] at whole; omega)]
  | case2 => simp at whole
  | case3 => simp at whole
  | case4 => rfl

theorem and_or_eq {high low width m mask : Nat} (masked : mask = (2 ^ m - 1) <<< width)
    (fits : low < 2 ^ width) :
    ((high <<< width) &&& mask) ||| low = high % 2 ^ m * 2 ^ width + low := by
  rw [masked, ← Nat.shiftLeft_and_distrib, Nat.and_two_pow_sub_one_eq_mod,
    ← Nat.shiftLeft_add_eq_or_of_lt fits, Nat.shiftLeft_eq]

theorem encC2_eq (c0 c1 : UInt8) : encC2 c0 c1 = enc (c0.toNat % 4 * 16 + c1.toNat / 16) := by
  have bound := c1.toNat_lt
  have low : (c1.toNat >>> 4) &&& 0x0f = c1.toNat / 16 := by
    rw [Nat.shiftRight_eq_div_pow]
    exact (Nat.and_two_pow_sub_one_eq_mod _ 4).trans (Nat.mod_eq_of_lt (by omega))
  rw [encC2, low]
  exact congrArg enc (and_or_eq (m := 2) rfl (by omega))

theorem encC3_eq (c1 c2 : UInt8) : encC3 c1 c2 = enc (c1.toNat % 16 * 4 + c2.toNat / 64) := by
  have bound := c2.toNat_lt
  have low : (c2.toNat >>> 6) &&& 0x03 = c2.toNat / 64 := by
    rw [Nat.shiftRight_eq_div_pow]
    exact (Nat.and_two_pow_sub_one_eq_mod _ 2).trans (Nat.mod_eq_of_lt (by omega))
  rw [encC3, low]
  exact congrArg enc (and_or_eq (m := 4) rfl (by omega))

theorem ofNat_or_eq {width high low : Nat} {c : UInt8} (fits : low < 2 ^ width)
    (sum : (high * 2 ^ width + low) % 256 = c.toNat) :
    UInt8.ofNat ((high <<< width) ||| low) = c := by
  rw [← Nat.shiftLeft_add_eq_or_of_lt fits, Nat.shiftLeft_eq]
  apply UInt8.toNat_inj.mp
  simpa using sum

/-- A group of four characters is decoded to its three bytes. -/
theorem decodeGroups_group {chars : Nat} (positive : 0 < chars) (c0 c1 c2 : UInt8)
    (s p : List UInt8) : decodeGroups chars (encodeGroup c0 c1 c2 ++ s) p =
      decodeGroups (chars - 4) s (p ++ [c0, c1, c2]) := by
  obtain ⟨less, rfl⟩ := Nat.exists_eq_add_of_lt positive
  have b0 := c0.toNat_lt
  have b1 := c1.toNat_lt
  have b2 := c2.toNat_lt
  have last : c2.toNat &&& 0x3f = c2.toNat % 64 := Nat.and_two_pow_sub_one_eq_mod c2.toNat 6
  simp only [encodeGroup, encC2_eq, encC3_eq, last, Nat.shiftRight_eq_div_pow,
    List.cons_append, List.nil_append, Nat.zero_add, decodeGroups]
  rw [dec_enc (by omega), dec_enc (by omega), dec_enc (by omega), dec_enc (by omega)]
  rw [ofNat_or_eq (c := c0) (by omega) (by omega), ofNat_or_eq (c := c1) (by omega) (by omega),
    ofNat_or_eq (c := c2) (by omega) (by omega)]

theorem decodeGroups_encodePadded (s : List UInt8) {chars : Nat}
    (groups : (chars + 3) / 4 = (s.length + 2) / 3) (rest p : List UInt8) :
    decodeGroups chars (encodePadded s ++ rest) p = .ok (rest, p ++ pad s) := by
  have none {chars : Nat} (zero : (chars + 3) / 4 = 0) (p : List UInt8) :
      decodeGroups chars rest p = .ok (rest, p) := by
    have last : chars = 0 := by omega
    rw [last, decodeGroups]
  induction s using encodePadded.induct generalizing chars p with
  | case1 c0 c1 c2 s induction =>
      simp only [List.length_cons] at groups
      rw [encodePadded, List.append_assoc, decodeGroups_group (by omega),
        induction (by omega), pad]
      simp
  | case2 c0 c1 =>
      simp only [List.length_cons, List.length_nil] at groups
      rw [encodePadded, decodeGroups_group (by omega), none (by omega), pad]
  | case3 c0 =>
      simp only [List.length_cons, List.length_nil] at groups
      rw [encodePadded, decodeGroups_group (by omega), none (by omega), pad]
  | case4 =>
      simp only [List.length_nil] at groups
      rw [encodePadded, List.nil_append, none (by omega), pad, List.append_nil]

/-- The decoder finds the number of groups that the encoder wrote. -/
theorem lineChars_groups {len : Nat} (small : len ≤ 45) :
    (lineChars len + 3) / 4 = (len + 2) / 3 := by
  have lengths : ∀ len : Fin 46, (lineChars len + 3) / 4 = (len + 2) / 3 := by decide
  exact lengths ⟨len, Nat.lt_succ_of_le small⟩

/-- One line in front of `rest`. -/
theorem decodeLines_line {line : List UInt8} (positive : 0 < line.length)
    (short : line.length ≤ 45) {srcLen : Nat} (known : line.length ≤ srcLen)
    (rest p : List UInt8) (totalLen : Nat) :
    decodeLines srcLen (enc line.length :: encodePadded line ++ rest) p totalLen =
      if line.length < 45 then .ok ⟨rest, p ++ pad line, totalLen + line.length⟩
      else decodeLines srcLen (rest.drop 1) (p ++ pad line) (totalLen + line.length) := by
  have groups := lineChars_groups short
  have length := dec_enc (n := line.length) (Nat.lt_of_le_of_lt short (by decide))
  have decoded := decodeGroups_encodePadded line groups rest p
  have room : ¬ lineChars line.length > (encodePadded line ++ rest).length := by
    rw [List.length_append, length_encodePadded]
    omega
  rw [List.cons_append, decodeLines.eq_def]
  simp only [length, Nat.pos_iff_ne_zero.mp positive, Nat.not_lt.mpr known, gt_iff_lt, if_false]
  rw [if_neg room]
  split
  · rename_i failed
    rw [length, decoded] at failed
    cases failed
  · rename_i found
    rw [length, decoded] at found
    cases found
    rfl

theorem decodeLines_encodeFrom (s : List UInt8) {srcLen : Nat}
    (known : (encodeFrom s).length ≤ srcLen) (p : List UInt8) (totalLen : Nat) :
    ∃ stopped, decodeLines srcLen (encodeFrom s) p totalLen = .ok stopped ∧
      stopped.p.take (p.length + s.length) = p ++ s ∧ stopped.totalLen = totalLen + s.length ∧
      p.length + s.length ≤ stopped.p.length := by
  induction size : s.length using Nat.strong_induction_on generalizing s p totalLen with
  | _ n induction =>
      subst size
      by_cases long : 45 ≤ s.length
      · have line : (s.take 45).length = 45 := by
          rw [List.length_take]
          omega
        have rest : (s.drop 45).length = s.length - 45 := List.length_drop
        have written := encodeFrom_long long
        rw [written] at known ⊢
        simp only [List.length_append, List.length_cons] at known
        obtain ⟨stopped, decoded, bytes, total, enough⟩ := induction (s.drop 45).length
          (by omega) (s.drop 45) (by omega) (p ++ pad (s.take 45)) (totalLen + 45) rfl
        have groups := length_encodePadded (s.take 45)
        have positive : 0 < (s.take 45).length := by omega
        have below : (s.take 45).length ≤ srcLen := by omega
        have step := decodeLines_line positive (Nat.le_of_eq line) below
          (newline :: encodeFrom (s.drop 45)) p totalLen
        rw [line] at step
        rw [pad_eq (by omega), List.length_append, line, rest, List.append_assoc,
          List.take_append_drop] at bytes
        rw [pad_eq (by omega), List.length_append, line] at enough
        refine ⟨stopped, step.trans decoded, ?_, by omega, by omega⟩
        rw [← bytes]
        congr 1
        omega
      · by_cases positive : 0 < s.length
        · have written := encodeFrom_short positive (Nat.lt_of_not_le long)
          rw [written] at known ⊢
          simp only [List.length_append, List.length_cons, length_encodePadded] at known
          have below : s.length ≤ srcLen := by omega
          have step := decodeLines_line positive (Nat.le_of_not_le long) below
            [newline, enc 0, newline] p totalLen
          rw [if_pos (Nat.lt_of_not_le long)] at step
          have whole := take_pad s
          have enough : s.length ≤ (pad s).length := by
            have size := congrArg List.length whole
            rw [List.length_take] at size
            omega
          refine ⟨_, step, ?_, rfl, ?_⟩
          · rw [List.take_append, List.take_of_length_le (Nat.le_add_right _ _),
              Nat.add_sub_cancel_left, whole]
          · rw [List.length_append]
            omega
        · have empty : s = [] := List.length_eq_zero_iff.mp (Nat.eq_zero_of_not_pos positive)
          subst empty
          refine ⟨⟨[newline], p, totalLen⟩, ?_, by simp, rfl, Nat.le_refl _⟩
          rw [encodeFrom_nil, decodeLines.eq_def]
          rfl

/-- The bytes that a caller gets from the decoder for a text of the encoder. -/
def roundTrip (s : List UInt8) : Option (List UInt8) :=
  (phpUudecode (phpUuencode s).1 (phpUuencode s).2).bind Decoded.string

/-- A string that has an `int` as its length comes back exactly where the length of its text is
an `int` too. The encoder stays in its buffer, and whatever is decoded, only characters of the
text are read and the buffer suffices, with its last byte for the terminator. -/
theorem roundTrip_iff (s : List UInt8) (isInt : s.length < 2 ^ 31) :
    (roundTrip s = some s ↔ (encodeFrom s).length < 2 ^ 31) ∧
      (encodeFrom s).length + 1 ≤ encodeRoom s.length ∧
      ∀ src : List UInt8, ∃ decoded, phpUudecode src src.length = some decoded ∧
        decoded.dest.length ≤ decodeRoom src.length ∧
        decoded.result ≤ decodeRoom src.length := by
  refine ⟨?_, length_encodeFrom_lt s, phpUudecode_inside⟩
  have room := length_encodeFrom_lt s
  rw [encodeRoom] at room
  unfold roundTrip phpUuencode phpUudecode
  by_cases small : (encodeFrom s).length < 2 ^ 31
  · obtain ⟨stopped, decoded, bytes, total, enough⟩ :=
      decodeLines_encodeFrom s (Nat.le_refl _) [] 0
    simp only [int_of_lt small, show ¬ ((encodeFrom s).length : Int) < 0 by omega, if_false,
      Int.toNat_natCast, List.take_length, decoded, small, iff_true]
    simp only [List.length_nil, Nat.zero_add, List.nil_append] at bytes total enough
    rw [if_neg (by omega)]
    simp only [Option.bind_some, Decoded.string, total, Int.toNat_natCast, bytes]
    rw [if_neg (by omega)]
  · have negative : int (encodeFrom s).length < 0 := by
      rw [int_of_ge (Nat.le_of_not_lt small) (by omega)]
      omega
    simp only [negative, if_true, Option.bind_none, small, iff_false]
    exact nofun

/-- A full line and a line of five bytes. -/
theorem roundTrip_lines :
    let s := (List.range 50).map UInt8.ofNat
    roundTrip s = some s := by
  intro s
  have result := roundTrip_iff s (by decide)
  have room : (encodeFrom s).length + 1 ≤ encodeRoom 50 := result.2.1
  have small : encodeRoom 50 < 2 ^ 31 := by decide
  exact result.1.mpr (by omega)

/-- The text of a string of 1558657485 bytes has 2^31 characters. -/
theorem roundTrip_fails : ∃ s : List UInt8, s.length = 1558657485 ∧ roundTrip s = none := by
  have failing (n : Nat) (lines : n % 45 = 0) (size : 62 * (n / 45) + 2 = 2 ^ 31) :
      roundTrip (List.replicate n 0) = none := by
    have length : (encodeFrom (List.replicate n 0)).length = 2 ^ 31 := by
      rw [length_encodeFrom, List.length_replicate, if_pos lines]
      exact size
    have negative : int (encodeFrom (List.replicate n 0)).length < 0 := by
      rw [int_of_ge (by omega) (by omega)]
      omega
    rw [roundTrip, phpUudecode, phpUuencode, if_pos negative]
    rfl
  exact ⟨List.replicate 1558657485 0, List.length_replicate, failing _ (by decide) (by decide)⟩

end PhpRuntime.Uuencode
