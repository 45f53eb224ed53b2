import PhpRuntime.Foundation.EditScripts

/-! # Levenshtein distance

`reference_levdist` of `ext/standard/levenshtein.c`. The two rows are lists of `int`s; a run
stops at the first access outside of a row and at the first result that is no `int`.
-/

namespace PhpRuntime.Standard

open EditScripts

/-- `LEVENSHTEIN_MAX_LENGTH` -/
def levenshteinMaxLength : Nat := 255

inductive Fault where
  | outside
  | overflow
  deriving DecidableEq

/-- The result of an operation on `int`s. -/
def intResult (n : Int) : Except Fault Int :=
  if -2 ^ 31 ≤ n ∧ n < 2 ^ 31 then .ok n else .error .overflow

def readCell (row : List Int) (i : Nat) : Except Fault Int :=
  match row[i]? with
  | some n => .ok n
  | none => .error .outside

def writeCell (row : List Int) (i : Nat) (n : Int) : Except Fault (List Int) :=
  if i < row.length then .ok (row.set i n) else .error .outside

section Program

variable (costs : Costs)

/-- `for (i2 = 0; i2 <= l2; i2++)`: the cells from `i2` on. -/
def firstRow : List Int → Nat → Nat → Except Fault (List Int)
  | p1, _, 0 => .ok p1
  | p1, i2, left + 1 => do
      let p1 ← writeCell p1 i2 (← intResult (i2 * costs.ins))
      firstRow p1 (i2 + 1) left

/-- The loop over `i2`, with the bytes of the second string from there on. -/
def rowLoop (p1 : List Int) (byte : UInt8) : List UInt8 → Nat → List Int → Except Fault (List Int)
  | [], _, p2 => .ok p2
  | other :: s2, i2, p2 => do
      let c0 ← intResult ((← readCell p1 i2) + if byte = other then 0 else costs.rep)
      let c1 ← intResult ((← readCell p1 (i2 + 1)) + costs.del)
      let c0 := if c1 < c0 then c1 else c0
      let c2 ← intResult ((← readCell p2 i2) + costs.ins)
      let c0 := if c2 < c0 then c2 else c0
      rowLoop p1 byte s2 (i2 + 1) (← writeCell p2 (i2 + 1) c0)

/-- The loop over `i1`, which exchanges the rows behind each of its rounds. -/
def rowsLoop (s2 : List UInt8) : List UInt8 → List Int → List Int → Except Fault (List Int)
  | [], p1, _ => .ok p1
  | byte :: s1, p1, p2 => do
      let p2 ← writeCell p2 0 (← intResult ((← readCell p1 0) + costs.del))
      let p2 ← rowLoop costs p1 byte s2 0 p2
      rowsLoop s2 s1 p2 p1

/-- `reference_levdist`; both rows are allocated with arbitrary contents. -/
def referenceLevdist (s1 s2 : List UInt8) (row1 row2 : Nat → Int) : Except Fault Int :=
  if s1.length = 0 then intResult (s2.length * costs.ins)
  else if s2.length = 0 then intResult (s1.length * costs.del)
  else if s1.length > levenshteinMaxLength ∨ s2.length > levenshteinMaxLength then .ok (-1)
  else do
    let p1 := (List.range (s2.length + 1)).map row1
    let p2 := (List.range (s2.length + 1)).map row2
    let p1 ← firstRow costs p1 0 (s2.length + 1)
    let p1 ← rowsLoop costs s2 s1 p1 p2
    readCell p1 s2.length

end Program

/-! ## Runs without a fault other than an overflow -/

/-- A run ends with a value as described, or where an `int` overflows. -/
def Gives {α : Type} (run : Except Fault α) (post : α → Prop) : Prop :=
  match run with
  | .ok a => post a
  | .error fault => fault = .overflow

section Runs

variable {α β : Type} {post : α → Prop}

theorem Gives.bind {run : Except Fault α} {next : α → Except Fault β} {final : β → Prop}
    (gives : Gives run post) (continues : ∀ a, post a → Gives (next a) final) :
    Gives (run >>= next) final := by
  cases run with
  | ok a => exact continues a gives
  | error fault => exact gives

theorem Gives.mono {run : Except Fault α} {final : α → Prop} (gives : Gives run post)
    (implies : ∀ a, post a → final a) : Gives run final := by
  cases run with
  | ok a => exact implies a gives
  | error fault => exact gives

theorem intResult_gives (n : Int) : Gives (intResult n) (· = n) := by
  rw [intResult]
  split_ifs <;> rfl

theorem readCell_gives {row : List Int} {i : Nat} {n : Int} (isCell : row[i]? = some n) :
    Gives (readCell row i) (· = n) := by
  rw [readCell, isCell]
  rfl

end Runs

/-! ## The rows -/

section Rows

variable {costs : Costs} {s t : List UInt8} {row : List Int}

/-- The first `n` cells of a row are the least costs of turning `s` into the beginnings of
`t`. -/
structure Filled (costs : Costs) (s t : List UInt8) (n : Nat) (row : List Int) : Prop where
  length : row.length = t.length + 1
  least : ∀ j < n, ∃ d, row[j]? = some d ∧ Least costs s (t.take j) d

theorem Filled.write {n : Nat} {d : Int} (filled : Filled costs s t n row)
    (inside : n ≤ t.length) (isLeast : Least costs s (t.take n) d) :
    Gives (writeCell row n d) (Filled costs s t (n + 1)) := by
  have fits : n < row.length := by
    rw [filled.length]
    omega
  rw [writeCell, if_pos fits]
  refine ⟨by rw [List.length_set, filled.length], fun j below => ?_⟩
  rcases Nat.lt_succ_iff_lt_or_eq.mp below with before | rfl
  · rw [List.getElem?_set_ne (by omega)]
    exact filled.least j before
  · exact ⟨d, List.getElem?_set_self fits, isLeast⟩

theorem firstRow_gives {p1 : List Int} {i2 left : Nat} (filled : Filled costs [] t i2 p1)
    (isLast : i2 + left = t.length + 1)
    (isLeast : ∀ j ≤ t.length, Least costs ([] : List UInt8) (t.take j) (j * costs.ins)) :
    Gives (firstRow costs p1 i2 left) (Filled costs [] t (t.length + 1)) := by
  induction left generalizing p1 i2 with
  | zero =>
      rw [firstRow]
      exact isLast ▸ filled
  | succ left induction =>
      rw [firstRow]
      refine (intResult_gives _).bind ?_
      rintro _ rfl
      refine (filled.write (by omega) (isLeast i2 (by omega))).bind ?_
      intro row written
      exact induction written (by omega)

/-- One row from the one above it; `front` is the part of the second string that is done. -/
theorem rowLoop_gives (nonneg : 0 ≤ costs.rep) {byte : UInt8} {p1 p2 : List Int}
    {front rest : List UInt8} (above : Filled costs s (front ++ rest) (t.length + 1) p1)
    (isT : t = front ++ rest)
    (filled : Filled costs (s ++ [byte]) t (front.length + 1) p2) :
    Gives (rowLoop costs p1 byte rest front.length p2)
      (Filled costs (s ++ [byte]) t (t.length + 1)) := by
  induction rest generalizing front p2 with
  | nil =>
      rw [rowLoop]
      simpa [Gives, isT] using filled
  | cons other rest induction =>
      have size : t.length = front.length + (rest.length + 1) := by simp [isT]
      rcases above.least front.length (by omega) with ⟨both, isBoth, leastBoth⟩
      rcases above.least (front.length + 1) (by omega) with ⟨up, isUp, leastUp⟩
      rcases filled.least front.length (by omega) with ⟨left, isLeft, leastLeft⟩
      have here : t.take front.length = front := by simp [isT]
      have next : t.take (front.length + 1) = front ++ [other] := by
        simp [isT, List.take_append]
      rw [← isT, here] at leastBoth
      rw [here] at leastLeft
      rw [← isT, next] at leastUp
      have recurrence := leastBoth.last nonneg leastUp leastLeft
      rw [rowLoop]
      refine (readCell_gives isBoth).bind ?_
      rintro _ rfl
      refine (intResult_gives _).bind ?_
      rintro _ rfl
      refine (readCell_gives isUp).bind ?_
      rintro _ rfl
      refine (intResult_gives _).bind ?_
      rintro _ rfl
      refine (readCell_gives isLeft).bind ?_
      rintro _ rfl
      refine (intResult_gives _).bind ?_
      rintro _ rfl
      -- the two comparisons take the minimum
      have isMin (m n : Int) : (if n < m then n else m) = min m n := by
        split_ifs <;> omega
      simp only [isMin]
      refine (filled.write (by omega) (next ▸ recurrence)).bind ?_
      intro row written
      have continued := @induction row (front ++ [other]) (by simpa using above)
        (by simpa using isT) (by simpa using written)
      simpa using continued

theorem rowsLoop_gives (nonneg : 0 ≤ costs.rep) {p1 p2 : List Int} {rest : List UInt8}
    (filled : Filled costs s t (t.length + 1) p1) (room : p2.length = t.length + 1) :
    Gives (rowsLoop costs t rest p1 p2) (Filled costs (s ++ rest) t (t.length + 1)) := by
  induction rest generalizing s p1 p2 with
  | nil => simpa [rowsLoop, Gives] using filled
  | cons byte rest induction =>
      rcases filled.least 0 (by omega) with ⟨corner, isCorner, leastCorner⟩
      rw [rowsLoop]
      refine (readCell_gives isCorner).bind ?_
      rintro _ rfl
      refine (intResult_gives _).bind ?_
      rintro _ rfl
      have empty : Filled costs (s ++ [byte]) t 0 p2 := ⟨room, by simp⟩
      refine (empty.write (by omega) leastCorner.delete_last).bind ?_
      intro row written
      refine (@rowLoop_gives costs s t nonneg byte p1 row [] t filled rfl written).bind ?_
      intro row done
      have continued := induction done filled.length
      rwa [List.append_assoc] at continued

end Rows

end PhpRuntime.Standard
