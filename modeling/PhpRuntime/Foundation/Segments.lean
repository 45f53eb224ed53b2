import Mathlib.Data.List.Basic
import Mathlib.Data.List.Induction

/-! # Segments of a text

The parts of a text between separators, without the empty ones, and the removal of segments
by others: a `here` stays where it is, an `up` takes away the segment before it.
-/

namespace PhpRuntime.Segments

variable {α : Type*}

/-! ## The text of some segments -/

section Joining

variable {separator : α}

/-- Segments with a separator between two of them, and one in front of the first and behind the
last as it is asked for. -/
def join (separator : α) (leading trailing : Bool) (parts : List (List α)) : List α :=
  (if leading then [separator] else []) ++ List.intercalate [separator] parts ++
    if trailing && !parts.isEmpty then [separator] else []

theorem join_concat (leading : Bool) (parts : List (List α)) (part : List α) :
    join separator leading false (parts ++ [part]) =
      (if leading then [separator] else []) ++ parts.flatMap (· ++ [separator]) ++ part := by
  have joined : List.intercalate [separator] (parts ++ [part]) =
      parts.flatMap (· ++ [separator]) ++ part := by
    induction parts with
    | nil => simp
    | cons head tail induction =>
        cases tail with
        | nil => simp
        | cons next tail =>
            rw [List.cons_append, List.cons_append, List.intercalate_cons_cons,
              ← List.cons_append, induction]
            simp
  simp [join, joined]

theorem join_trailing (leading : Bool) (parts : List (List α)) :
    join separator leading true parts =
      (if leading then [separator] else []) ++ parts.flatMap (· ++ [separator]) := by
  induction parts using List.reverseRecOn with
  | nil => simp [join]
  | append_singleton parts part _ =>
      have untrailed := @join_concat _ separator leading parts part
      rw [join] at untrailed ⊢
      simp only [Bool.false_and, Bool.false_eq_true, if_false, List.append_nil] at untrailed
      rw [untrailed]
      simp

theorem head?_join {leading trailing : Bool} {parts : List (List α)}
    (whole : ∀ part ∈ parts, part ≠ [] ∧ separator ∉ part) :
    (join separator leading trailing parts).head? = some separator ↔ leading = true := by
  cases leading with
  | true => simp [join]
  | false =>
      cases parts with
      | nil => simp [join]
      | cons part more =>
          have first := whole part List.mem_cons_self
          cases part with
          | nil => exact absurd rfl first.1
          | cons head tail =>
              have different : head ≠ separator := fun equal => first.2 (by simp [equal])
              cases more with
              | nil => simpa [join] using different
              | cons next more => simpa [join, List.intercalate_cons_cons] using different

end Joining

/-! ## Splitting a text -/

variable [DecidableEq α]

/-- The parts between separators that are not empty. -/
def segments (separator : α) (text : List α) : List (List α) :=
  (text.splitOn separator).filter fun part => !part.isEmpty

section Splitting

variable {separator : α}

@[simp]
theorem segments_nil : segments separator [] = [] := rfl

theorem segments_append (front back : List α) :
    segments separator (front ++ separator :: back) =
      segments separator front ++ segments separator back := by
  rw [segments, List.splitOn_append_cons_self, List.filter_append]
  rfl

@[simp]
theorem segments_separator (back : List α) :
    segments separator (separator :: back) = segments separator back :=
  segments_append [] back

theorem segments_single {part : List α} (nonempty : part ≠ []) (plain : separator ∉ part) :
    segments separator part = [part] := by
  rw [segments, List.splitOn_eq_singleton plain]
  simp [nonempty]

theorem segments_front {part : List α} (nonempty : part ≠ []) (plain : separator ∉ part)
    (back : List α) :
    segments separator (part ++ separator :: back) = part :: segments separator back := by
  rw [segments_append, segments_single nonempty plain]
  rfl

theorem segments_dropWhile (text : List α) :
    segments separator (text.dropWhile (· == separator)) = segments separator text := by
  induction text with
  | nil => rfl
  | cons head tail induction =>
      by_cases equal : head = separator
      · subst equal
        simpa using induction
      · simp [equal]

theorem splitOn_plain (text : List α) : ∀ part ∈ text.splitOn separator, separator ∉ part := by
  induction text with
  | nil => simp [List.splitOn_nil]
  | cons head tail induction =>
      rw [List.splitOn_cons_eq_if_modifyHead]
      split_ifs with isSeparator
      · simpa using induction
      · cases parts : tail.splitOn separator with
        | nil => simp
        | cons first more =>
            rw [parts, List.forall_mem_cons] at induction
            have different : separator ≠ head := fun equal => isSeparator (by simp [equal])
            rw [List.modifyHead_cons, List.forall_mem_cons]
            exact ⟨List.not_mem_cons_of_ne_of_not_mem different induction.1, induction.2⟩

theorem mem_segments {text part : List α} (member : part ∈ segments separator text) :
    part ≠ [] ∧ separator ∉ part := by
  rw [segments, List.mem_filter] at member
  exact ⟨by simpa using member.2, splitOn_plain text part member.1⟩

/-- The segments of the text of some segments. -/
theorem segments_join {leading trailing : Bool} {parts : List (List α)}
    (whole : ∀ part ∈ parts, part ≠ [] ∧ separator ∉ part) :
    segments separator (join separator leading trailing parts) = parts := by
  have middle : segments separator (List.intercalate [separator] parts) = parts := by
    by_cases empty : parts = []
    · rw [empty]
      rfl
    · rw [segments, List.splitOn_intercalate _ (fun part member => (whole part member).2) empty,
        List.filter_eq_self]
      intro part member
      simp [(whole part member).1]
  have trailed (text : List α) : segments separator
      (text ++ if trailing && !parts.isEmpty then [separator] else []) =
        segments separator text := by
    split_ifs
    · rw [segments_append]
      simp
    · rw [List.append_nil]
  rw [join, trailed]
  cases leading with
  | false => exact middle
  | true => exact (segments_separator _).trans middle

/-- The part behind the last separator. -/
def ending (separator : α) (text : List α) : List α := (text.splitOn separator).getLast?.getD []

theorem ending_append (front back : List α) :
    ending separator (front ++ separator :: back) = ending separator back := by
  rw [ending, List.splitOn_append_cons_self,
    List.getLast?_append_of_ne_nil _ (List.splitOn_ne_nil separator back)]
  rfl

theorem ending_single {part : List α} (plain : separator ∉ part) :
    ending separator part = part := by
  rw [ending, List.splitOn_eq_singleton plain]
  rfl

theorem ending_dropWhile (text : List α) :
    ending separator (text.dropWhile (· == separator)) = ending separator text := by
  induction text with
  | nil => rfl
  | cons head tail induction =>
      by_cases equal : head = separator
      · rw [equal]
        simpa using induction.trans (ending_append [] tail).symm
      · simp [equal]

end Splitting

/-! ## Removing segments -/

section Removing

variable (here up : List α)

/-- One segment behind the ones that are left. -/
def walk (left : List (List α)) (segment : List α) : List (List α) :=
  if segment = up then left.dropLast
  else if segment = here then left
  else left ++ [segment]

/-- The segments that are left. -/
def resolve (parts : List (List α)) : List (List α) := parts.foldl (walk here up) []

variable {here up}

theorem mem_resolve {parts : List (List α)} {part : List α}
    (member : part ∈ resolve here up parts) : part ∈ parts := by
  induction parts using List.reverseRecOn with
  | nil => exact member
  | append_singleton parts last induction =>
      rw [resolve, List.foldl_concat, walk] at member
      rw [List.mem_append]
      split_ifs at member
      · exact Or.inl (induction ((List.dropLast_sublist _).subset member))
      · exact Or.inl (induction member)
      · exact (List.mem_append.mp member).imp_left induction

theorem walk_plain {left : List (List α)} {segment : List α}
    (plain : ∀ part ∈ left, part ≠ here ∧ part ≠ up) :
    ∀ part ∈ walk here up left segment, part ≠ here ∧ part ≠ up := by
  intro part member
  rw [walk] at member
  split_ifs at member with isUp isHere
  · exact plain part ((List.dropLast_sublist left).subset member)
  · exact plain part member
  · rw [List.mem_append, List.mem_singleton] at member
    cases member with
    | inl member => exact plain part member
    | inr equal =>
        rw [equal]
        exact ⟨isHere, isUp⟩

theorem foldl_walk_plain {left : List (List α)} (parts : List (List α))
    (plain : ∀ part ∈ left, part ≠ here ∧ part ≠ up) :
    ∀ part ∈ parts.foldl (walk here up) left, part ≠ here ∧ part ≠ up := by
  induction parts generalizing left with
  | nil => exact plain
  | cons head tail induction => exact induction (walk_plain plain)

/-- Neither `here` nor `up` is left. -/
theorem resolve_plain (parts : List (List α)) :
    ∀ part ∈ resolve here up parts, part ≠ here ∧ part ≠ up :=
  foldl_walk_plain parts (by simp)

end Removing

end PhpRuntime.Segments
