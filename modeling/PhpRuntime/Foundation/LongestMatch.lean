import Mathlib.Data.List.Infix

/-! # Translating by the longest match

A text is scanned from left to right. Where one of the keys stands it is exchanged for its
value, the longest one if there are several, and elsewhere the text is copied.
-/

namespace PhpRuntime.LongestMatch

variable {α : Type}

/-- The text and what it is translated to; the values are not scanned. -/
inductive Translated (pairs : List (List α × List α)) : List α → List α → Prop where
  | nil : Translated pairs [] []
  | exchange {key value rest result : List α} (listed : (key, value) ∈ pairs)
      (longest : ∀ pair ∈ pairs, pair.1 <+: key ++ rest → pair.1.length ≤ key.length)
      (behind : Translated pairs rest result) : Translated pairs (key ++ rest) (value ++ result)
  | copy {c : α} {rest result : List α} (none : ∀ pair ∈ pairs, ¬pair.1 <+: c :: rest)
      (behind : Translated pairs rest result) : Translated pairs (c :: rest) (c :: result)

variable {pairs : List (List α × List α)} {text rest result : List α}

/-- No key stands at the place. -/
def Free (pairs : List (List α × List α)) (text : List α) (place : Nat) : Prop :=
  ∀ pair ∈ pairs, ¬pair.1 <+: text.drop place

/-- Two stretches without keys make one. -/
theorem free_join {start middle stop : Nat}
    (before : ∀ place, start ≤ place → place < middle → Free pairs text place)
    (behind : ∀ place, middle ≤ place → place < stop → Free pairs text place) :
    ∀ place, start ≤ place → place < stop → Free pairs text place := by
  intro place lower upper
  rcases Nat.lt_or_ge place middle with less | reached
  · exact before place lower less
  · exact behind place reached upper

/-- A stretch of a text in which no key starts is copied. -/
theorem Translated.stretch (behind : Translated pairs rest result) (stretch : List α)
    (free : ∀ place < stretch.length, Free pairs (stretch ++ rest) place) :
    Translated pairs (stretch ++ rest) (stretch ++ result) := by
  induction stretch with
  | nil => exact behind
  | cons c stretch induction =>
      refine .copy (free 0 (Nat.succ_pos _)) (induction fun place inside => ?_)
      exact free (place + 1) (by rw [List.length_cons]; omega)

/-- The stretch between two places of a text. -/
theorem Translated.between {start stop : Nat} (ordered : start ≤ stop)
    (inside : stop ≤ text.length)
    (free : ∀ place, start ≤ place → place < stop → Free pairs text place)
    (behind : Translated pairs (text.drop stop) result) :
    Translated pairs (text.drop start) ((text.drop start).take (stop - start) ++ result) := by
  have whole : (text.drop start).take (stop - start) ++ text.drop stop = text.drop start := by
    have parts := List.take_append_drop (stop - start) (text.drop start)
    rw [List.drop_drop, show start + (stop - start) = stop by omega] at parts
    exact parts
  have copied := behind.stretch ((text.drop start).take (stop - start))
  rw [whole] at copied
  apply copied
  intro place less pair member isPrefix
  rw [List.length_take, List.length_drop] at less
  rw [List.drop_drop] at isPrefix
  exact free (start + place) (by omega) (by omega) pair member isPrefix

/-- The longest key at a place of a text is exchanged. -/
theorem Translated.exchange_at {key value : List α} {place : Nat}
    (behind : Translated pairs (text.drop (place + key.length)) result)
    (listed : (key, value) ∈ pairs) (stands : key <+: text.drop place)
    (longest : ∀ pair ∈ pairs, pair.1 <+: text.drop place → pair.1.length ≤ key.length) :
    Translated pairs (text.drop place) (value ++ result) := by
  obtain ⟨rest, split⟩ := stands
  rw [← List.drop_drop, ← split, List.drop_left] at behind
  rw [← split] at longest ⊢
  exact .exchange listed longest behind

/-- If no key starts behind a place, the rest is copied. -/
theorem Translated.remainder {start : Nat} (inside : start ≤ text.length)
    (free : ∀ place, start ≤ place → place < text.length → Free pairs text place) :
    Translated pairs (text.drop start) (text.drop start) := by
  have done : Translated pairs (text.drop text.length) [] := by
    rw [List.drop_length]
    exact .nil
  have copied := Translated.between inside (Nat.le_refl _) free done
  rwa [List.append_nil, List.take_of_length_le (by rw [List.length_drop])] at copied

/-- If no key stands anywhere, the whole text is copied. -/
theorem Translated.whole (free : ∀ place < text.length, Free pairs text place) :
    Translated pairs text text := by
  have copied := Translated.remainder (Nat.zero_le _) fun place _ inside => free place inside
  rwa [List.drop_zero] at copied

end PhpRuntime.LongestMatch
