import PhpRuntime.Base64.Codec

/-! # What the decoder accepts when it is strict -/

namespace PhpRuntime.Base64

open CString

/-- Without its whitespace the text is digits with only `=` behind them. -/
def Padded (text : List UInt8) : Prop :=
  ∃ (digits : List UInt8) (count : Nat), (∀ c ∈ digits, c ∈ base64Table) ∧
    text.filter (!isSpace ·) = digits ++ List.replicate count base64Pad

/-- One character that is neither `=` nor whitespace stands right behind a `=`, and at most
whitespace behind that. -/
def EndsBehindPad (text : List UInt8) : Prop :=
  ∃ front c back, text = front ++ base64Pad :: c :: back ∧ c ≠ base64Pad ∧
    isSpace c = false ∧ ∀ d ∈ back, isSpace d = true

/-- `php_base64_decode_ex` with `strict` has a result. -/
def AcceptsStrict (text : List UInt8) : Prop :=
  (phpBase64DecodeEx text text.length true).isSome = true

instance (text : List UInt8) : Decidable (AcceptsStrict text) :=
  inferInstanceAs (Decidable (_ = true))

theorem pad_facts : base64Pad ∉ base64Table ∧ isSpace base64Pad = false ∧ base64Pad ≠ 0 := by
  decide

theorem nul_facts : (0 : UInt8) ∉ base64Table ∧ isSpace 0 = false := by
  decide

variable {text rest : List UInt8} {c : UInt8}

theorem Padded.mem (padded : Padded text) (member : c ∈ text) (visible : isSpace c = false) :
    c ∈ base64Table ∨ c = base64Pad := by
  rcases padded with ⟨digits, count, inside, equal⟩
  have kept : c ∈ text.filter (!isSpace ·) := by simp [member, visible]
  rw [equal, List.mem_append, List.mem_replicate] at kept
  rcases kept with isDigit | isPad
  · exact Or.inl (inside c isDigit)
  · exact Or.inr isPad.2

/-- Such a text is not padded. -/
theorem EndsBehindPad.not_padded (ends : EndsBehindPad text) : ¬ Padded text := by
  rintro ⟨digits, count, inside, equal⟩
  rcases ends with ⟨front, c, back, rfl, notPad, visible, spaces⟩
  have backEmpty : back.filter (!isSpace ·) = [] := by
    apply List.filter_eq_nil_iff.mpr
    intro d member
    simp [spaces d member]
  have shape : (front ++ base64Pad :: c :: back).filter (!isSpace ·) =
      front.filter (!isSpace ·) ++ [base64Pad, c] := by
    simp [visible, pad_facts.2.1, backEmpty]
  rw [shape] at equal
  cases count with
  | zero =>
      rw [List.replicate_zero, List.append_nil] at equal
      apply pad_facts.1
      apply inside
      rw [← equal]
      simp
  | succ count =>
      rw [List.replicate_succ', ← List.append_assoc] at equal
      have last := (List.append_inj' (equal.symm.trans (by simp :
        _ = (front.filter (!isSpace ·) ++ [base64Pad]) ++ [c])) rfl).2
      exact notPad (List.singleton_inj.mp last).symm

theorem Padded.cons_digit (isDigit : c ∈ base64Table) (visible : isSpace c = false)
    (padded : Padded rest) : Padded (c :: rest) := by
  rcases padded with ⟨digits, count, inside, equal⟩
  refine ⟨c :: digits, count, ?_, ?_⟩
  · intro d member
    rcases List.mem_cons.mp member with isHead | inTail
    · exact isHead ▸ isDigit
    · exact inside d inTail
  · rw [List.filter_cons_of_pos (by simp [visible]), equal, List.cons_append]

theorem Padded.cons_space (space : isSpace c = true) (padded : Padded rest) :
    Padded (c :: rest) := by
  rcases padded with ⟨digits, count, inside, equal⟩
  exact ⟨digits, count, inside, by rw [List.filter_cons_of_neg (by simp [space]), equal]⟩

theorem Padded.cons_pad (padded : Padded (base64Pad :: rest)) :
    Padded (base64Pad :: base64Pad :: rest) := by
  rcases padded with ⟨digits, count, inside, equal⟩
  have visible : ∀ rest : List UInt8, (base64Pad :: rest).filter (!isSpace ·) =
      base64Pad :: rest.filter (!isSpace ·) := fun rest => List.filter_cons_of_pos (by decide)
  cases digits with
  | nil =>
      refine ⟨[], count + 1, inside, ?_⟩
      rw [visible, equal, List.replicate_succ]
      rfl
  | cons d digits =>
      rw [visible, List.cons_append] at equal
      have isPad := (List.cons.inj equal).1
      exact absurd (isPad ▸ inside d List.mem_cons_self) pad_facts.1

theorem EndsBehindPad.cons (c : UInt8) (ends : EndsBehindPad rest) : EndsBehindPad (c :: rest) := by
  rcases ends with ⟨front, d, back, rfl, facts⟩
  exact ⟨c :: front, d, back, rfl, facts⟩

/-- What stands behind the character that the look-ahead passes over. -/
theorem spaces_of_onlySpaceBehind {back : List UInt8} (noNul : (0 : UInt8) ∉ back)
    (only : onlySpaceBehind (c :: back) = true) : ∀ d ∈ back, isSpace d = true := by
  have isNul : read (back.dropWhile isSpace) 0 = 0 := of_decide_eq_true only
  cases dropped : back.dropWhile isSpace with
  | nil => exact List.dropWhile_eq_nil_iff.mp dropped
  | cons d behind =>
      rw [dropped] at isNul
      have member : d ∈ back := (List.dropWhile_suffix isSpace).subset (by simp [dropped])
      exact absurd ((isNul : d = 0) ▸ member) noNul

/-- The count of the characters that are left is positive, and goes down by one. -/
theorem length_left (ch : UInt8) (current : List UInt8) :
    ¬ ((ch :: current).length : Int) ≤ 0 ∧
      ((ch :: current).length : Int) - 1 = current.length := by
  rw [List.length_cons]
  omega

/-- The look-ahead behind a `=`: the text goes on with another one, or it ends, or what
follows is one character and whitespace. -/
theorem behind_pad {current : List UInt8} {state : Decoder} (noNul : (0 : UInt8) ∉ current)
    (accepted : (decodeLoop true (base64Pad :: current)
      (base64Pad :: current).length state).isSome = true) :
    current = [] ∨ (current.head? = some base64Pad ∧
        (decodeLoop true current current.length state).isSome = true) ∨
      ∃ c back, current = c :: back ∧ c ≠ base64Pad ∧ ∀ d ∈ back, isSpace d = true := by
  rcases length_left base64Pad current with ⟨left, remaining⟩
  rw [decodeLoop, if_neg pad_facts.2.2, if_neg left, if_pos rfl, remaining] at accepted
  cases current with
  | nil => exact Or.inl rfl
  | cons c back =>
      right
      split at accepted
      · rename_i looked
        split at accepted
        · rename_i passed
          refine Or.inr ⟨c, back, rfl, looked.1, spaces_of_onlySpaceBehind ?_ passed.2⟩
          exact fun member => noNul (List.mem_cons_of_mem c member)
        · cases accepted
      · rename_i notLooked
        have isPad : c = base64Pad := by
          by_contra notPad
          exact notLooked ⟨notPad, Or.inr ⟨rfl, by rw [List.length_cons]; omega⟩⟩
        exact Or.inl ⟨by rw [isPad]; rfl, accepted⟩

/-- The loop accepts a text without NUL only if it is padded or ends behind a `=`. -/
theorem padded_or_ends {state : Decoder} (noNul : (0 : UInt8) ∉ text)
    (accepted : (decodeLoop true text text.length state).isSome = true) :
    Padded text ∨ EndsBehindPad text := by
  induction text generalizing state with
  | nil => exact Or.inl ⟨[], 0, by simp, rfl⟩
  | cons ch current induction =>
      have noNulBehind : (0 : UInt8) ∉ current := fun member =>
        noNul (List.mem_cons_of_mem ch member)
      by_cases isPad : ch = base64Pad
      · subst isPad
        rcases behind_pad noNulBehind accepted with
          rfl | ⟨another, acceptedBehind⟩ | ⟨c, back, rfl, notPad, spaces⟩
        · exact Or.inl ⟨[], 1, by simp, by decide⟩
        · rcases List.head?_eq_some_iff.mp another with ⟨rest, rfl⟩
          rcases induction noNulBehind acceptedBehind with padded | ends
          · exact Or.inl padded.cons_pad
          · exact Or.inr (ends.cons _)
        · cases visible : isSpace c with
          | false => exact Or.inr ⟨[], c, back, rfl, notPad, visible, spaces⟩
          | true =>
              refine Or.inl ⟨[], 1, by simp, ?_⟩
              have backEmpty : back.filter (!isSpace ·) = [] := by
                apply List.filter_eq_nil_iff.mpr
                intro d member
                simp [spaces d member]
              simp [visible, pad_facts.2.1, backEmpty]
      · have notNul : ch ≠ 0 := fun isNul => noNul (isNul ▸ List.mem_cons_self)
        rcases length_left ch current with ⟨left, remaining⟩
        rw [decodeLoop, if_neg notNul, if_neg left, if_neg isPad, remaining] at accepted
        rcases reverseAt_cases ch with ⟨isDigit, value, _, _, visible⟩ | ⟨_, skipped, space⟩ |
          ⟨_, foreign⟩
        · rw [if_neg (by simp; omega), if_neg (by omega)] at accepted
          rcases induction noNulBehind accepted with padded | ends
          · exact Or.inl (padded.cons_digit isDigit visible)
          · exact Or.inr (ends.cons ch)
        · rw [if_pos (Or.inr skipped)] at accepted
          rcases induction noNulBehind accepted with padded | ends
          · exact Or.inl (padded.cons_space space)
          · exact Or.inr (ends.cons ch)
        · rw [if_neg (by simp [foreign]), if_pos foreign] at accepted
          cases accepted

/-- What the strict decoder accepts is padded, except for texts with a NUL and texts that go
on with one character behind a `=`. -/
theorem acceptsStrict_padded_iff (text : List UInt8) :
    (AcceptsStrict text → Padded text) ↔
      ¬ (AcceptsStrict text ∧ ((0 : UInt8) ∈ text ∨ EndsBehindPad text)) := by
  constructor
  · rintro holds ⟨accepted, nul | ends⟩
    · rcases (holds accepted).mem nul nul_facts.2 with isDigit | isPad
      · exact nul_facts.1 isDigit
      · exact pad_facts.2.2 isPad.symm
    · exact ends.not_padded (holds accepted)
  · intro sound accepted
    have noNul : (0 : UInt8) ∉ text := fun nul => sound ⟨accepted, Or.inl nul⟩
    have looped : (decodeLoop true text text.length ⟨0, [], 0⟩).isSome = true := by
      rw [AcceptsStrict, phpBase64DecodeEx, if_neg (by omega)] at accepted
      exact accepted
    rcases padded_or_ends noNul looped with padded | ends
    · exact padded
    · exact absurd ⟨accepted, Or.inr ends⟩ sound

/-- `AA=A` and, with a NUL, `QQ!` behind `QQ` are accepted. -/
theorem acceptsStrict_behind_pad :
    (AcceptsStrict [65, 65, 61, 65] ∧ EndsBehindPad [65, 65, 61, 65] ∧
      ¬ Padded [65, 65, 61, 65]) ∧
      AcceptsStrict [81, 81, 0, 33] ∧ ¬ Padded [81, 81, 0, 33] := by
  have ends : EndsBehindPad [65, 65, 61, 65] :=
    ⟨[65, 65], 65, [], rfl, by decide, by decide, by simp⟩
  refine ⟨⟨by decide, ends, ends.not_padded⟩, by decide, fun padded => ?_⟩
  rcases padded.mem (by decide : (0 : UInt8) ∈ [81, 81, 0, 33]) nul_facts.2 with isDigit | isPad
  · exact nul_facts.1 isDigit
  · exact pad_facts.2.2 isPad.symm

end PhpRuntime.Base64
