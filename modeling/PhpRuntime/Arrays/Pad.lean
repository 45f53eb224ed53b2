import PhpRuntime.Arrays.Tables

/-! # `array_pad` -/

namespace PhpRuntime.Arrays

open Hash Hash.HashTable Integers

/-- What `array_pad` does: the warning, with `FALSE` returned, or an array. -/
inductive PadOutcome (α : Type) where
  | warned
  | returned (ht : HashTable α)

/-- `array_pad` behind the copy of the array. -/
def padCopied (returnValue : HashTable α) (inputSize : Int) (padSizeAbs : Nat) (padSize : Int)
    (padValue : α) : Option (PadOutcome α) :=
  if padSizeAbs ≤ inputSize then
    some (.returned returnValue)
  else
    let numPads := int (padSizeAbs - inputSize)
    if 1048576 < numPads then
      some .warned
    else if numPads < 0 then
      none
    else do
      let pads := List.replicate numPads.toNat padValue
      let offset := if 0 < padSize then inputSize else 0
      let (returnValue, _) ← phpSplice returnValue offset 0 (some pads) none
      some (.returned returnValue)

/-- `array_pad`; the result is `none` when `abs` is undefined, when the request for memory
fails and when `php_splice` does not return. An `int` that `abs` returns is not negative, so
that the first warning is never given. -/
def arrayPad (memory input : HashTable α) (padSize : BitVec 64) (padValue : α) :
    Option (PadOutcome α) := do
  let padSizeAbs ← intAbs padSize.toInt
  let returnValue ← zvalCopyCtor memory input
  padCopied returnValue (int input.nNumOfElements) padSizeAbs padSize.toInt padValue

/-- The pairs of an array with copies of a value in front of them or behind them. -/
def paddedPairs (pairs : List (Key × α)) (padSize : Int) (padValue : α) : List (Key × α) :=
  let pads := List.replicate (padSize.natAbs - pairs.length) (Key.index 0, padValue)
  renumberFrom 0 (if padSize < 0 then pads ++ pairs else pairs ++ pads)

/-- The warning is given, or the array is padded to the size asked for. -/
def PadAgrees (memory input : HashTable α) (padSize : BitVec 64) (padValue : α) : Prop :=
  arrayPad memory input padSize padValue = some .warned ∨
    ∃ ht, arrayPad memory input padSize padValue = some (.returned ht) ∧
      ht.nNumOfElements = max input.contents.length padSize.toInt.natAbs ∧
      ht.contents = paddedPairs input.contents padSize.toInt padValue

/-- The sizes for which the warning is given. -/
def PadRefused (count : Nat) (padSize : BitVec 64) : Prop :=
  ∃ padSizeAbs : Nat, intAbs padSize.toInt = some padSizeAbs ∧
    1048576 < int (padSizeAbs - int count)

variable {memory input : HashTable α} {padSize : BitVec 64} {padSizeAbs : Nat}

/-- Nothing is returned if `abs` is undefined, and the size is not that of an `int` then. -/
theorem arrayPad_undefined (padValue : α) (undefined : intAbs padSize.toInt = none) :
    arrayPad memory input padSize padValue = none ∧ ¬ padSize.toInt.natAbs < 2 ^ 31 := by
  constructor
  · rw [arrayPad, undefined]
    rfl
  · have spec := int_spec padSize.toInt
    rw [intAbs] at undefined
    split at undefined
    · omega
    · cases undefined

theorem arrayPad_eq (proper : Proper input) (padValue : α)
    (isAbs : intAbs padSize.toInt = some padSizeAbs) {tmp : HashTable α}
    (copied : zvalCopyCtor memory input = some tmp) :
    arrayPad memory input padSize padValue =
      padCopied tmp (int input.contents.length) padSizeAbs padSize.toInt padValue := by
  rw [arrayPad, isAbs, copied, (count_eq proper).1, Option.bind_eq_bind, Option.bind_some,
    Option.bind_eq_bind, Option.bind_some]

/-- The array is copied when the size is no larger than the number of its elements. -/
theorem arrayPad_copied (proper : Proper input) (padValue : α)
    (isAbs : intAbs padSize.toInt = some padSizeAbs)
    (enough : (padSizeAbs : Int) ≤ int input.contents.length) :
    ∃ ht, arrayPad memory input padSize padValue = some (.returned ht) ∧
      ht.nNumOfElements = input.contents.length ∧ ht.contents = input.contents := by
  rcases zvalCopyCtor_spec proper memory with ⟨tmp, copied, tmpProper, same⟩
  refine ⟨tmp, ?_, ?_, same⟩
  · rw [arrayPad_eq proper padValue isAbs copied, padCopied, if_pos enough]
  · rw [(count_eq tmpProper).1, same]

/-- The array is spliced when an `int` holds the number of copies and the positions. -/
theorem arrayPad_spliced (proper : Proper input) (padValue : α) {numPads : Nat}
    (isAbs : intAbs padSize.toInt = some padSizeAbs)
    (more : int input.contents.length < padSizeAbs)
    (isNumber : int (padSizeAbs - int input.contents.length) = numPads)
    (small : numPads ≤ 1048576) :
    (arrayPad memory input padSize padValue = none ∧ ¬ input.contents.length < 2 ^ 31) ∨
      ∃ ht, arrayPad memory input padSize padValue = some (.returned ht) ∧
        ht.nNumOfElements = (input.contents.length + numPads) % 2 ^ 32 ∧
        (input.contents.length + numPads < 2 ^ 32 → ht.contents =
          splicedPairs input.contents (if 0 < padSize.toInt then input.contents.length else 0) 0
            (List.replicate numPads padValue)) := by
  rcases zvalCopyCtor_spec proper memory with ⟨tmp, copied, tmpProper, same⟩
  have fits := (count_eq proper).2
  have spec := int_spec input.contents.length
  have isStart : (if 0 < padSize.toInt then int input.contents.length else 0) % 2 ^ 32 =
      ((if 0 < padSize.toInt then input.contents.length else 0 : Nat) : Int) := by
    split <;> omega
  have noWrap : (if 0 < padSize.toInt then input.contents.length else 0) + 0 < 2 ^ 32 := by
    split <;> omega
  have receives : Receives (none : Option (HashTable α)) := by
    intro table isTable
    cases isTable
  have notMany : ¬ 1048576 < (numPads : Int) := by omega
  have natural : ¬ (numPads : Int) < 0 := by omega
  have steps : arrayPad memory input padSize padValue = (do
      let (returnValue, _) ← phpSplice tmp
        (if 0 < padSize.toInt then int input.contents.length else 0) 0
        (some (List.replicate numPads padValue)) none
      some (.returned returnValue)) := by
    rw [arrayPad_eq proper padValue isAbs copied, padCopied, if_neg (Int.not_le_of_gt more), isNumber,
      if_neg notMany, if_neg natural, Int.toNat_natCast]
  by_cases counts : tmp.SpliceCounts (if 0 < padSize.toInt then input.contents.length else 0) 0
    (some (List.replicate numPads padValue))
  · right
    rcases @phpSplice_spec _ _ tmpProper _ 0 _ 0 isStart rfl noWrap _ counts _ receives with
      ⟨ht, removed, spliced, _, isCounted, pairs⟩
    have length : tmp.splicedLength (if 0 < padSize.toInt then input.contents.length else 0) 0
        (some (List.replicate numPads padValue)) = input.contents.length + numPads := by
      rw [splicedLength, same]
      simp only [Option.getD_some, List.length_replicate, Nat.add_zero]
      split
      · simp
      · simp [Nat.add_comm]
    rw [length] at isCounted pairs
    rw [same] at pairs
    refine ⟨ht, ?_, isCounted, pairs⟩
    rw [steps, spliced]
    rfl
  · left
    constructor
    · have stopped := splice_overflows tmpProper id noWrap receives counts
      rw [steps, phpSplice, isStart, Int.toNat_natCast, Int.zero_emod, Int.toNat_zero, stopped]
      rfl
    · intro short
      have tmpLength : tmp.elements.length = input.contents.length := by
        rw [← same]
        exact (List.length_map _).symm
      refine counts ⟨by omega, ?_⟩
      rw [Option.getD_some, List.length_replicate]
      omega

/-- What is spliced is what was to be added. -/
theorem splicedPairs_padded (pairs : List (Key × α)) (size : Int) (value : α)
    (more : pairs.length < size.natAbs) :
    splicedPairs pairs (if 0 < size then pairs.length else 0) 0
      (List.replicate (size.natAbs - pairs.length) value) = paddedPairs pairs size value := by
  rw [splicedPairs, paddedPairs, List.map_replicate]
  by_cases positive : 0 < size
  · rw [if_pos positive, if_neg (by omega)]
    simp
  · rw [if_neg positive, if_pos (by omega)]
    simp

theorem paddedPairs_of_le {pairs : List (Key × α)} {size : Int} (value : α)
    (enough : size.natAbs ≤ pairs.length) :
    paddedPairs pairs size value = renumberFrom 0 pairs := by
  rw [paddedPairs, Nat.sub_eq_zero_of_le enough]
  simp

/-- The size computed, and the number of copies, if the warning is not given. -/
theorem notRefused_cases {count : Nat} {size : Int} (fits : count < 2 ^ 32)
    (isAbs : intAbs size = some padSizeAbs)
    (notMany : ¬ 1048576 < int (padSizeAbs - int count)) :
    ((padSizeAbs : Int) ≤ int count ∧ count < 2 ^ 31 ∧
        (size.natAbs < 2 ^ 31 → size.natAbs ≤ count)) ∨
      (int count < padSizeAbs ∧
        ((int (padSizeAbs - int count) < 0 ∧ 2 ^ 31 ≤ count) ∨
          ∃ numPads : Nat, int (padSizeAbs - int count) = numPads ∧ numPads ≤ 1048576 ∧
            ((count + numPads) % 2 ^ 32 = max count size.natAbs →
              count < 2 ^ 31 ∧ size.natAbs < 2 ^ 31 ∧ count < size.natAbs) ∧
            (count < 2 ^ 31 → size.natAbs < 2 ^ 31 →
              count < size.natAbs ∧ numPads = size.natAbs - count))) := by
  have countCases : (count < 2 ^ 31 ∧ int count = count) ∨
      (2 ^ 31 ≤ count ∧ int count = count - 2 ^ 32) := by
    rcases Nat.lt_or_ge count (2 ^ 31) with short | long
    · exact Or.inl ⟨short, int_of_lt short⟩
    · exact Or.inr ⟨long, int_of_ge long fits⟩
  have sizeSpec := int_spec size
  have numberSpec := int_spec (padSizeAbs - int count)
  have absSpec : int size ≠ -2 ^ 31 ∧ (int size).natAbs = padSizeAbs := by
    rw [intAbs] at isAbs
    split at isAbs
    · cases isAbs
    · rename_i notSmallest
      exact ⟨notSmallest, Option.some.inj isAbs⟩
  -- only the values matter from here on
  generalize int (padSizeAbs - int count) = number at *
  generalize int size = shortSize at *
  generalize int count = inputSize at *
  rcases lt_or_ge inputSize padSizeAbs with more | enough
  · right
    refine ⟨more, ?_⟩
    rcases lt_or_ge number 0 with negative | natural
    · exact Or.inl ⟨negative, by omega⟩
    · right
      have isNumber : number = padSizeAbs - inputSize := by omega
      clear numberSpec
      refine ⟨number.toNat, by omega, by omega, ?_, ?_⟩
      · intro isMax
        rcases countCases with ⟨short, isInput⟩ | ⟨long, isInput⟩
        · refine ⟨short, ?_⟩
          omega
        · omega
      · intro isShort isSmall
        omega
  · exact Or.inl ⟨enough, by omega, by omega⟩

/-- When the warning is not given: the array is padded exactly if its number of elements and
the size are values of an `int`, and a mere copy has its integer keys in order already. -/
theorem padAgrees_of_not_refused (proper : Proper input) (padValue : α)
    (notRefused : ¬ PadRefused input.contents.length padSize) :
    PadAgrees memory input padSize padValue ↔
      input.contents.length < 2 ^ 31 ∧ padSize.toInt.natAbs < 2 ^ 31 ∧
        (input.contents.length < padSize.toInt.natAbs ∨
          input.contents = renumberFrom 0 input.contents) := by
  have failed : arrayPad memory input padSize padValue = none →
      ¬ PadAgrees memory input padSize padValue := by
    intro noResult
    simp only [PadAgrees, noResult, reduceCtorEq, false_and, exists_false, or_self,
      not_false_eq_true]
  cases isAbs : intAbs padSize.toInt with
  | none =>
      rcases @arrayPad_undefined _ memory input _ padValue isAbs with ⟨noResult, large⟩
      exact iff_of_false (failed noResult) fun conditions => large conditions.2.1
  | some padSizeAbs =>
      have notMany : ¬ 1048576 < int (padSizeAbs - int input.contents.length) := fun many =>
        notRefused ⟨padSizeAbs, isAbs, many⟩
      rcases notRefused_cases (count_eq proper).2 isAbs notMany with
        ⟨enough, short, covers⟩ |
          ⟨more, ⟨negative, long⟩ | ⟨numPads, isNumber, small, fits, exact⟩⟩
      · rcases @arrayPad_copied _ memory _ _ _ proper padValue isAbs enough with
          ⟨ht, isReturned, isCounted, same⟩
        simp only [PadAgrees, isReturned, Option.some.injEq, PadOutcome.returned.injEq,
          reduceCtorEq, false_or, exists_eq_left', isCounted, same]
        constructor
        · rintro ⟨isMax, isPadded⟩
          have covered : padSize.toInt.natAbs ≤ input.contents.length :=
            isMax ▸ Nat.le_max_right _ _
          rw [paddedPairs_of_le padValue covered] at isPadded
          exact ⟨short, Nat.lt_of_le_of_lt covered short, Or.inr isPadded⟩
        · rintro ⟨_, smallSize, numbered⟩
          have covered := covers smallSize
          rw [paddedPairs_of_le padValue covered]
          exact ⟨(Nat.max_eq_left covered).symm,
            numbered.resolve_left (Nat.not_lt_of_le covered)⟩
      · rcases zvalCopyCtor_spec proper memory with ⟨tmp, copied, _⟩
        refine iff_of_false (failed ?_) fun conditions => Nat.not_lt_of_le long conditions.1
        rw [arrayPad_eq proper padValue isAbs copied, padCopied, if_neg (Int.not_le_of_gt more),
          if_neg notMany, if_pos negative]
      · rcases @arrayPad_spliced _ memory _ _ _ proper padValue _ isAbs more isNumber small with
          ⟨noResult, long⟩ | ⟨ht, isReturned, isCounted, pairs⟩
        · exact iff_of_false (failed noResult) fun conditions => long conditions.1
        simp only [PadAgrees, isReturned, Option.some.injEq, PadOutcome.returned.injEq,
          reduceCtorEq, false_or, exists_eq_left', isCounted]
        constructor
        · rintro ⟨isMax, _⟩
          rcases fits isMax with ⟨short, smallSize, padded⟩
          exact ⟨short, smallSize, Or.inl padded⟩
        · rintro ⟨short, smallSize, _⟩
          rcases exact short smallSize with ⟨padded, rfl⟩
          have total : input.contents.length + (padSize.toInt.natAbs - input.contents.length) =
              padSize.toInt.natAbs := Nat.add_sub_of_le (Nat.le_of_lt padded)
          have countable : padSize.toInt.natAbs < 2 ^ 32 := Nat.lt_trans smallSize (by decide)
          rw [total] at pairs ⊢
          rw [pairs countable, splicedPairs_padded _ _ _ padded, Nat.mod_eq_of_lt countable,
            Nat.max_eq_right (Nat.le_of_lt padded)]
          exact ⟨rfl, rfl⟩

/-- `array_pad` gives its warning or pads the array to the size asked for exactly if the
size that it computes is refused, or the size and the number of elements are values of an
`int` and either elements are added or the integer keys are in order already. -/
theorem padAgrees_iff (proper : Proper input) (memory : HashTable α) (padSize : BitVec 64)
    (padValue : α) :
    PadAgrees memory input padSize padValue ↔
      PadRefused input.contents.length padSize ∨
      input.contents.length < 2 ^ 31 ∧ padSize.toInt.natAbs < 2 ^ 31 ∧
        (input.contents.length < padSize.toInt.natAbs ∨
          input.contents = renumberFrom 0 input.contents) := by
  by_cases refused : PadRefused input.contents.length padSize
  · refine iff_of_true (Or.inl ?_) (Or.inl refused)
    rcases refused with ⟨padSizeAbs, isAbs, many⟩
    rcases zvalCopyCtor_spec proper memory with ⟨tmp, copied, _⟩
    have more : ¬ (padSizeAbs : Int) ≤ int input.contents.length := by
      intro enough
      have count := int_spec input.contents.length
      have number := int_spec (padSizeAbs - int input.contents.length)
      generalize int (padSizeAbs - int input.contents.length) = number at *
      omega
    rw [arrayPad_eq proper padValue isAbs copied, padCopied, if_neg more, if_pos many]
  · rw [padAgrees_of_not_refused proper padValue refused]
    exact (or_iff_right refused).symm

/-- Four elements, with two copies in front of them. -/
theorem padAgrees_mixed :
    ∃ ht : HashTable Unit, ht.contents.length = 4 ∧ PadAgrees (blankMemory ()) ht (-6) () := by
  rcases mixedKeys_played with ⟨ht, played, isKeys⟩
  have four : ht.contents.length = 4 := by
    simpa [keys, contents] using congrArg List.length isKeys
  refine ⟨ht, four, ?_⟩
  apply (padAgrees_iff (proper_of_reachable (reachable_of_play rfl played)) _ _ _).mpr
  rw [four]
  exact Or.inr ⟨by decide, by decide, Or.inl (by decide)⟩

/-- The size of what is returned. -/
def PadOutcome.size : PadOutcome α → Option Nat
  | warned => none
  | returned ht => some ht.nNumOfElements

/-- The size 2^32 + 5 is cut to 5, and the smallest `long` to 0. -/
theorem array_pad_cuts_size :
    (arrayPad (blankMemory ()) emptyArray 4294967301 ()).map PadOutcome.size = some (some 5) ∧
      ¬ PadAgrees (blankMemory ()) emptyArray 4294967301 () ∧
      (arrayPad (blankMemory ()) emptyArray (BitVec.intMin 64) ()).map PadOutcome.size =
        some (some 0) ∧
      ¬ PadAgrees (blankMemory ()) emptyArray (BitVec.intMin 64) () := by
  have none : emptyArray.contents.length = 0 := by decide +kernel
  have differs : ∀ {padSize : BitVec 64} {size : Nat},
      (arrayPad (blankMemory ()) emptyArray padSize ()).map PadOutcome.size = some (some size) →
      size ≠ padSize.toInt.natAbs → ¬ PadAgrees (blankMemory ()) emptyArray padSize () := by
    rintro padSize size isSize different (warned | ⟨ht, isReturned, counted, _⟩)
    · rw [warned] at isSize
      cases isSize
    · rw [isReturned] at isSize
      cases isSize
      rw [none, Nat.max_eq_right (Nat.zero_le _)] at counted
      exact different counted
  have five : (arrayPad (blankMemory ()) emptyArray 4294967301 ()).map PadOutcome.size =
      some (some 5) := by decide +kernel
  have zero : (arrayPad (blankMemory ()) emptyArray (BitVec.intMin 64) ()).map
      PadOutcome.size = some (some 0) := by decide +kernel
  exact ⟨five, differs five (by decide), zero, differs zero (by decide)⟩

end PhpRuntime.Arrays
