import Mathlib.Data.List.Infix

/-! # Substring search

`zend_memnstr` of `Zend/zend_operators.h`. The range from `haystack` to `end` is a list of
bytes and a pointer into it an index. A function returns `none` when it is given bytes
outside the range to examine, and `some none` for `NULL`.
-/

namespace PhpRuntime.Operators

/-- `memchr(p, c, n)`; the `n` bytes may all be examined. -/
def memchr (range : List UInt8) (p : Nat) (c : UInt8) (n : Nat) : Option (Option Nat) :=
  if p + n ≤ range.length then
    some ((((range.drop p).take n).findIdx? (· == c)).map (p + ·))
  else
    none

/-- `!memcmp(needle, p, n)` -/
def memcmpEqual (range needle : List UInt8) (p n : Nat) : Option Bool :=
  if p + n ≤ range.length ∧ n ≤ needle.length then
    some ((range.drop p).take n == needle.take n)
  else
    none

/-- `while (p <= end)`, with `end` already moved back by the length of the needle. -/
def memnstrLoop (haystack needle : List UInt8) (first ne : UInt8) (last : Nat) :
    Nat → Nat → Option (Option Nat)
  | 0, _ => none
  | fuel + 1, p =>
      if p ≤ last then
        match memchr haystack p first (last - p + 1) with
        | none => none
        | some none => some none
        | some (some p) =>
            match haystack[p + needle.length - 1]? with
            | none => none
            | some c =>
                if ne = c then
                  match memcmpEqual haystack needle p (needle.length - 1) with
                  | none => none
                  | some true => some (some p)
                  | some false => memnstrLoop haystack needle first ne last fuel (p + 1)
                else
                  memnstrLoop haystack needle first ne last fuel (p + 1)
      else
        some none

/-- `zend_memnstr`; the loop moves forward in each of its rounds. -/
def zendMemnstr (haystack needle : List UInt8) : Option (Option Nat) :=
  match needle.head?, needle.getLast? with
  | some first, some ne =>
      if needle.length = 1 then
        memchr haystack 0 first haystack.length
      else if haystack.length < needle.length then
        some none
      else
        memnstrLoop haystack needle first ne (haystack.length - needle.length)
          (haystack.length + 1) 0
  | _, _ => none

/-- The needle stands at an offset, and all of it is inside the range. -/
def Occurs (haystack needle : List UInt8) (p : Nat) : Prop := needle <+: haystack.drop p

/-- The lowest offset from `p` on at which the needle stands, or `NULL`. -/
def FirstFrom (haystack needle : List UInt8) (p : Nat) (result : Option Nat) : Prop :=
  match result with
  | some q => p ≤ q ∧ Occurs haystack needle q ∧ ∀ r, p ≤ r → r < q → ¬ Occurs haystack needle r
  | none => ∀ r, p ≤ r → ¬ Occurs haystack needle r

section Search

variable {haystack needle : List UInt8} {p : Nat}

theorem Occurs.inside (occurs : Occurs haystack needle p) (nonempty : needle ≠ []) :
    p + needle.length ≤ haystack.length := by
  have shorter := List.IsPrefix.length_le occurs
  have positive := List.length_pos_of_ne_nil nonempty
  rw [List.length_drop] at shorter
  omega

theorem Occurs.first {first : UInt8} (occurs : Occurs haystack needle p)
    (isFirst : needle.head? = some first) : haystack[p]? = some first := by
  rcases occurs with ⟨behind, equal⟩
  rcases List.head?_eq_some_iff.mp isFirst with ⟨rest, rfl⟩
  have atZero := @List.getElem?_drop _ haystack p 0
  rw [← equal] at atZero
  exact atZero.symm

/-- The needle is compared as its last byte and the bytes in front of that. -/
theorem occurs_iff_init {ne : UInt8} (isLast : needle.getLast? = some ne) :
    Occurs haystack needle p ↔
      (haystack.drop p).take (needle.length - 1) = needle.take (needle.length - 1) ∧
        haystack[p + needle.length - 1]? = some ne := by
  rcases List.getLast?_eq_some_iff.mp isLast with ⟨init, rfl⟩
  have place : p + (init ++ [ne]).length - 1 = p + init.length := by simp
  have front : (init ++ [ne]).take ((init ++ [ne]).length - 1) = init := by simp
  rw [Occurs, List.prefix_iff_eq_take, place, front, ← List.getElem?_drop, List.length_append,
    List.length_singleton, Nat.add_sub_cancel, List.take_add_one]
  cases last : (haystack.drop p)[init.length]? with
  | none =>
      constructor
      · intro equal
        have lengths := congrArg List.length equal
        simp at lengths
        omega
      · intro both
        cases both.2
  | some c =>
      rw [Option.toList_some, Option.some_inj]
      constructor
      · intro equal
        have parts := List.append_inj' equal rfl
        exact ⟨parts.1.symm, (List.singleton_inj.mp parts.2).symm⟩
      · intro both
        rw [both.1, both.2]

theorem FirstFrom.skip {q : Nat} {result : Option Nat} (forward : p ≤ q)
    (skipped : ∀ r, p ≤ r → r < q → ¬ Occurs haystack needle r)
    (found : FirstFrom haystack needle q result) : FirstFrom haystack needle p result := by
  cases result with
  | none =>
      intro r lower
      rcases Nat.lt_or_ge r q with before | behind
      · exact skipped r lower before
      · exact found r behind
  | some o =>
      rcases found with ⟨lower, occurs, lowest⟩
      refine ⟨Nat.le_trans forward lower, occurs, fun r from_ below => ?_⟩
      rcases Nat.lt_or_ge r q with before | behind
      · exact skipped r from_ before
      · exact lowest r behind below

theorem FirstFrom.unique {result other : Option Nat} (found : FirstFrom haystack needle p result)
    (also : FirstFrom haystack needle p other) : result = other := by
  cases result with
  | none =>
      cases other with
      | none => rfl
      | some q => exact absurd also.2.1 (found q also.1)
  | some q =>
      cases other with
      | none => exact absurd found.2.1 (also q found.1)
      | some r =>
          rcases Nat.lt_trichotomy q r with before | equal | behind
          · exact absurd found.2.1 (also.2.2 q found.1 before)
          · rw [equal]
          · exact absurd also.2.1 (found.2.2 r also.1 behind)

/-- What a call inside the range says about the bytes from `p` on. -/
theorem memchr_spec {c : UInt8} {n : Nat} (inside : p + n ≤ haystack.length) :
    ∃ result, memchr haystack p c n = some result ∧
      match result with
      | some q => p ≤ q ∧ q < p + n ∧ haystack[q]? = some c ∧
          ∀ r, p ≤ r → r < q → haystack[r]? ≠ some c
      | none => ∀ r, p ≤ r → r < p + n → haystack[r]? ≠ some c := by
  refine ⟨_, if_pos inside, ?_⟩
  have window : ∀ r, p ≤ r → r < p + n →
      ((haystack.drop p).take n)[r - p]? = haystack[r]? := by
    intro r lower upper
    rw [List.getElem?_take_of_lt (by omega), List.getElem?_drop]
    congr 1
    omega
  cases found : ((haystack.drop p).take n).findIdx? (· == c) with
  | none =>
      intro r lower upper isC
      rw [List.findIdx?_eq_none_iff] at found
      have member := List.mem_of_getElem? ((window r lower upper).trans isC)
      simpa using found c member
  | some i =>
      rcases List.findIdx?_eq_some_iff_getElem.mp found with ⟨bound, isFound, before⟩
      have short : i < n := Nat.lt_of_lt_of_le bound (List.length_take_le n _)
      refine ⟨Nat.le_add_right p i, Nat.add_lt_add_left short p, ?_, ?_⟩
      · rw [← window (p + i) (Nat.le_add_right p i) (Nat.add_lt_add_left short p),
          Nat.add_sub_cancel_left, List.getElem?_eq_getElem bound, eq_of_beq isFound]
      · intro r lower upper isC
        dsimp only at upper
        have here := (window r lower (by omega)).trans isC
        rcases List.getElem?_eq_some_iff.mp here with ⟨_, equal⟩
        have different := before (r - p) (by omega)
        simp [equal] at different

variable {first ne : UInt8}

/-- From `p` on, the loop finds the first place of a needle of two bytes or more. -/
theorem memnstrLoop_spec (isFirst : needle.head? = some first)
    (isLast : needle.getLast? = some ne) (fits : needle.length ≤ haystack.length)
    {fuel : Nat} (enough : haystack.length < fuel + p) (inRange : p ≤ haystack.length) :
    ∃ result,
      memnstrLoop haystack needle first ne (haystack.length - needle.length) fuel p =
        some result ∧ FirstFrom haystack needle p result := by
  have nonempty : needle ≠ [] := by
    intro empty
    rw [empty] at isFirst
    cases isFirst
  have positive := List.length_pos_of_ne_nil nonempty
  induction fuel generalizing p with
  | zero => omega
  | succ fuel induction =>
      rw [memnstrLoop]
      split
      · rename_i notPast
        rcases @memchr_spec haystack p first (haystack.length - needle.length - p + 1)
          (by omega) with ⟨found, equal, answer⟩
        rw [equal]
        cases found with
        | none =>
            refine ⟨none, rfl, fun r lower occurs => ?_⟩
            have upper := occurs.inside nonempty
            exact answer r lower (by omega) (occurs.first isFirst)
        | some q =>
            rcases answer with ⟨lower, upper, _, skipped⟩
            have noneBefore : ∀ r, p ≤ r → r < q → ¬ Occurs haystack needle r :=
              fun r from_ below occurs => skipped r from_ below (occurs.first isFirst)
            have atLast : q + needle.length - 1 < haystack.length := by omega
            have compared : memcmpEqual haystack needle q (needle.length - 1) =
                some ((haystack.drop q).take (needle.length - 1) ==
                  needle.take (needle.length - 1)) := if_pos ⟨by omega, by omega⟩
            have parts := @occurs_iff_init haystack needle q ne isLast
            -- the search goes on behind `q` unless the needle stands there
            have continues : ¬ Occurs haystack needle q → ∃ result,
                memnstrLoop haystack needle first ne (haystack.length - needle.length) fuel
                  (q + 1) = some result ∧ FirstFrom haystack needle p result := by
              intro absent
              rcases @induction (q + 1) (by omega) (by omega) with ⟨result, isResult, firstFrom⟩
              refine ⟨result, isResult, firstFrom.skip (by omega) ?_⟩
              intro r from_ below
              rcases Nat.lt_succ_iff_lt_or_eq.mp below with before | here
              · exact noneBefore r from_ before
              · exact here ▸ absent
            dsimp only
            rw [List.getElem?_eq_getElem atLast] at parts ⊢
            dsimp only
            split
            · rename_i sameLast
              rw [compared]
              cases same : (haystack.drop q).take (needle.length - 1) ==
                  needle.take (needle.length - 1) with
              | true =>
                  refine ⟨some q, rfl, lower, parts.mpr ⟨?_, by rw [sameLast]⟩, noneBefore⟩
                  exact eq_of_beq same
              | false =>
                  apply continues
                  intro occurs
                  rw [(parts.mp occurs).1, beq_self_eq_true] at same
                  cases same
            · rename_i otherLast
              apply continues
              intro occurs
              exact otherLast (Option.some_inj.mp (parts.mp occurs).2).symm
      · rename_i past
        refine ⟨none, rfl, fun r lower occurs => ?_⟩
        have upper := occurs.inside nonempty
        omega

/-- A needle of one byte. -/
theorem memchr_finds {c : UInt8} :
    ∃ result, memchr haystack 0 c haystack.length = some result ∧
      FirstFrom haystack [c] 0 result := by
  have stands : ∀ r, Occurs haystack [c] r ↔ haystack[r]? = some c := by
    intro r
    rw [@occurs_iff_init haystack [c] r c List.getLast?_singleton]
    simp
  rcases @memchr_spec haystack 0 c haystack.length (Nat.le_of_eq (Nat.zero_add _)) with
    ⟨found, equal, answer⟩
  refine ⟨found, equal, ?_⟩
  cases found with
  | none =>
      intro r lower occurs
      rw [stands] at occurs
      have inside := (List.getElem?_eq_some_iff.mp occurs).1
      exact answer r lower (by omega) occurs
  | some q =>
      rcases answer with ⟨lower, _, isC, before⟩
      refine ⟨lower, (stands q).mpr isC, fun r from_ below occurs => ?_⟩
      exact before r from_ below ((stands r).mp occurs)

theorem zendMemnstr_spec (nonempty : needle ≠ []) :
    ∃ result, zendMemnstr haystack needle = some result ∧
      FirstFrom haystack needle 0 result := by
  have isFirst := List.head?_eq_some_head nonempty
  have isLast := List.getLast?_eq_some_getLast nonempty
  rw [zendMemnstr, isFirst, isLast]
  dsimp only
  split
  · rename_i single
    rcases List.length_eq_one_iff.mp single with ⟨c, rfl⟩
    exact memchr_finds
  · split
    · rename_i longer
      refine ⟨none, rfl, fun r _ occurs => ?_⟩
      have upper := occurs.inside nonempty
      omega
    · rename_i fits
      exact memnstrLoop_spec isFirst isLast (Nat.le_of_not_lt fits) (Nat.lt_succ_self _)
        (Nat.zero_le _)

theorem FirstFrom.zendMemnstr_eq {result : Option Nat} (nonempty : needle ≠ [])
    (found : FirstFrom haystack needle 0 result) : zendMemnstr haystack needle = some result := by
  rcases @zendMemnstr_spec haystack needle nonempty with ⟨other, equal, also⟩
  rw [equal, found.unique also]

section Folding

variable {fold : UInt8 → UInt8}

/-- The needle is nowhere, when bytes are compared by what `fold` makes of them. -/
theorem zendMemnstr_absent {s : List UInt8} (nonempty : needle ≠ [])
    (absent : ∀ q, ¬ needle.map fold <+: (s.drop q).map fold) :
    zendMemnstr (s.map fold) (needle.map fold) = some none := by
  refine FirstFrom.zendMemnstr_eq (by simpa using nonempty) fun q _ occurs => absent q ?_
  rwa [List.map_drop]

/-- The needle is found behind `front`. -/
theorem zendMemnstr_found {front found back : List UInt8} (nonempty : needle ≠ [])
    (same : found.map fold = needle.map fold)
    (first : ∀ q < front.length,
      ¬ needle.map fold <+: ((front ++ (found ++ back)).drop q).map fold) :
    zendMemnstr ((front ++ (found ++ back)).map fold) (needle.map fold) =
      some (some front.length) := by
  refine FirstFrom.zendMemnstr_eq (by simpa using nonempty) ⟨Nat.zero_le _, ?_, ?_⟩
  · rw [Occurs, ← List.map_drop, List.drop_left, List.map_append, same]
    exact List.prefix_append _ _
  · intro q _ below occurs
    apply first q below
    rwa [List.map_drop]

end Folding

/-- For every range and every needle of one byte or more the search stays inside the range
and ends with the lowest offset at which the needle stands, or with `NULL` exactly if it
stands nowhere. -/
theorem zendMemnstr_finds_first (haystack needle : List UInt8) (nonempty : needle ≠ []) :
    ∃ result, zendMemnstr haystack needle = some result ∧
      (∀ p, result = some p → Occurs haystack needle p ∧
        p + needle.length ≤ haystack.length ∧ ∀ r < p, ¬ Occurs haystack needle r) ∧
      (result = none ↔ ∀ p, ¬ Occurs haystack needle p) := by
  rcases @zendMemnstr_spec haystack needle nonempty with ⟨result, equal, found⟩
  refine ⟨result, equal, ?_⟩
  cases result with
  | none =>
      constructor
      · intro p isSome
        cases isSome
      · exact ⟨fun _ p => found p (Nat.zero_le p), fun _ => rfl⟩
  | some q =>
      rcases found with ⟨_, occurs, lowest⟩
      constructor
      · intro p isSome
        cases isSome
        exact ⟨occurs, occurs.inside nonempty, fun r below => lowest r (Nat.zero_le r) below⟩
      · constructor
        · intro isNone
          cases isNone
        · intro absent
          exact absurd occurs (absent q)

/-- Partial matches that overlap: the needle `aab` in `aaabaab`. -/
theorem zendMemnstr_finds_first_overlapping :
    zendMemnstr [97, 97, 97, 98, 97, 97, 98] [97, 97, 98] = some (some 1) ∧
      ∃ result, zendMemnstr [97, 97, 97, 98, 97, 97, 98] [97, 97, 98] = some result ∧
        (∀ p, result = some p → Occurs [97, 97, 97, 98, 97, 97, 98] [97, 97, 98] p ∧
          p + 3 ≤ 7 ∧ ∀ r < p, ¬ Occurs [97, 97, 97, 98, 97, 97, 98] [97, 97, 98] r) ∧
        (result = none ↔ ∀ p, ¬ Occurs [97, 97, 97, 98, 97, 97, 98] [97, 97, 98] p) :=
  ⟨by decide, zendMemnstr_finds_first [97, 97, 97, 98, 97, 97, 98] [97, 97, 98] (by decide)⟩

end Search

end PhpRuntime.Operators
