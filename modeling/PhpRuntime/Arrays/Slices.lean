import PhpRuntime.Arrays.Tables

/-! # `array_slice` and `array_splice`

Both functions clamp their offset and length to the array, each in its own way.
-/

namespace PhpRuntime.Arrays

open Hash Hash.HashTable Integers

/-! ## The functions -/

/-- `(unsigned long) offset + (unsigned long) length > (unsigned) num_in` -/
def reachesBehind (numIn offset length : Int) : Bool :=
  decide (numIn % 2 ^ 32 < (offset + length) % 2 ^ 64)

/-- The offset and the length of `array_splice`, clamped. -/
def spliceClamp (numIn offset length : Int) : Int × Int :=
  let moved := if offset < 0 then long (numIn + offset) else offset
  let clamped := if offset < 0 ∧ moved < 0 then 0 else if numIn < moved then numIn else moved
  let cut := if length < 0 then long (long (numIn - clamped) + length) else length
  (clamped,
    if length < 0 ∧ cut < 0 then 0
    else if reachesBehind numIn clamped cut then long (numIn - clamped) else cut)

/-- The values of the replacement array, from `pListHead` on. -/
def replacementValues (replArray : HashTable α) : Option (List α) :=
  (Linked.follow replArray.pListNext replArray.brk replArray.pListHead).map fun nodes =>
    nodes.map replArray.pData

/-- `array_splice`: the array, and the array of removed elements if it is used. -/
def arraySplice (memory array : HashTable α) (offset : BitVec 64) (length : Option (BitVec 64))
    (replArray : Option (HashTable α)) (returnValueUsed : Bool) :
    Option (HashTable α × Option (HashTable α)) := do
  let numIn := int array.nNumOfElements
  let repl ← match replArray with
    | none => some none
    | some replArray => (replacementValues replArray).map some
  let (offset, length) := spliceClamp numIn offset.toInt ((length.map BitVec.toInt).getD numIn)
  let remHash := if returnValueUsed then
    some (memory.zendHashInit (length % 2 ^ 32).toNat) else none
  phpSplice array offset length repl remHash

/-- The offset and the length of `array_slice`, clamped; `none` if the offset is behind the
array. -/
def sliceClamp (numIn offset length : Int) : Option (Int × Int) :=
  if numIn < offset then
    none
  else
    let moved := if offset < 0 then long (numIn + offset) else offset
    let clamped := if offset < 0 ∧ moved < 0 then 0 else moved
    some (clamped,
      if length < 0 then long (long (numIn - clamped) + length)
      else if reachesBehind numIn clamped length then long (numIn - clamped) else length)

/-- An element is stored in the array that is returned. -/
def sliceElement (preserveKeys : Bool) (input returnValue : HashTable α) (p : Nat) :
    Option (HashTable α) :=
  (if input.nKeyLength p ≠ 0 then
    returnValue.zendHashAddOrUpdate (input.callerKey p) (input.pData p) .update
  else if preserveKeys then
    returnValue.zendHashIndexUpdateOrNextInsert (input.h p) (input.pData p) .update
  else
    returnValue.zendHashNextIndexInsert (input.pData p)).map Prod.fst

/-- The second loop: `count` elements from the position on. -/
def sliceLoop (preserveKeys : Bool) (input : HashTable α) :
    Nat → HashTable α → Option Nat → Option (HashTable α)
  | 0, returnValue, _ => some returnValue
  | _ + 1, returnValue, none => some returnValue
  | count + 1, returnValue, some p => do
      let returnValue ← sliceElement preserveKeys input returnValue p
      sliceLoop preserveKeys input count returnValue (input.pListNext p)

def arraySlice (memory input : HashTable α) (offset : BitVec 64) (length : Option (BitVec 64))
    (preserveKeys : Bool) : Option (HashTable α) :=
  let numIn := int input.nNumOfElements
  match sliceClamp numIn offset.toInt ((length.map BitVec.toInt).getD numIn) with
  | none => some (memory.zendHashInit 0)
  | some (offset, length) =>
      if length ≤ 0 then
        some (memory.zendHashInit 0)
      else
        let (pos, hpos) := input.skipTo offset.toNat 0 input.pListHead
        sliceLoop preserveKeys input (long (offset + length) - pos).toNat
          (memory.zendHashInit (length % 2 ^ 32).toNat) hpos

/-! ## The range that is meant -/

/-- The first position: a negative offset counts from the end. -/
def clampOffset (count : Nat) (offset : Int) : Nat :=
  if offset < 0 then (count + offset).toNat else min offset.toNat count

/-- The number of elements: a negative length leaves elements out at the end, and without a
length all elements are meant. -/
def clampLength (count start : Nat) : Option Int → Nat
  | none => count - start
  | some length =>
      if length < 0 then (count - start + length).toNat else min length.toNat (count - start)

def rangeStart (ht : HashTable α) (offset : BitVec 64) : Nat :=
  clampOffset ht.contents.length offset.toInt

def rangeCount (ht : HashTable α) (offset : BitVec 64) (length : Option (BitVec 64)) : Nat :=
  clampLength ht.contents.length (rangeStart ht offset) (length.map BitVec.toInt)

/-- The elements that are meant, with their keys. -/
def selectedPairs (ht : HashTable α) (offset : BitVec 64) (length : Option (BitVec 64)) :
    List (Key × α) :=
  slice ht.contents (rangeStart ht offset) (rangeCount ht offset length)

/-- For every offset and length, both functions select the elements that are meant, and
`array_splice` leaves the others. -/
def SlicesAgree (memory ht : HashTable α) : Prop :=
  ∀ (offset : BitVec 64) (length : Option (BitVec 64)),
    (∀ preserveKeys, ∃ selected, arraySlice memory ht offset length preserveKeys = some selected ∧
      selected.contents =
        if preserveKeys then selectedPairs ht offset length
        else renumberFrom 0 (selectedPairs ht offset length)) ∧
    ∀ returnValueUsed, ∃ rest removed,
      arraySplice memory ht offset length none returnValueUsed = some (rest, removed) ∧
      rest.contents =
        splicedPairs ht.contents (rangeStart ht offset) (rangeCount ht offset length) [] ∧
      (returnValueUsed = true → ∃ table, removed = some table ∧
        table.contents = renumberFrom 0 (selectedPairs ht offset length))

/-! ## Clamping -/

section Clamping

variable {count : Nat} {offset length : Int}

theorem clampOffset_le (count : Nat) (offset : Int) : clampOffset count offset ≤ count := by
  rw [clampOffset]
  split <;> omega

theorem clampLength_le (count start : Nat) (length : Option Int) :
    clampLength count start length ≤ count - start := by
  cases length with
  | none => exact Nat.le_refl _
  | some length =>
      rw [clampLength]
      split <;> omega

/-- Without a length the number of elements stands for it. -/
theorem clampLength_getD (count start : Nat) (length : Option Int) :
    clampLength count start (some (length.getD count)) = clampLength count start length := by
  cases length with
  | none =>
      simp only [Option.getD_none, clampLength]
      rw [if_neg (by omega)]
      omega
  | some length => rfl

variable (small : count < 2 ^ 31) (offsetLower : -2 ^ 63 ≤ offset) (offsetUpper : offset < 2 ^ 63)
  (lengthLower : -2 ^ 63 ≤ length) (lengthUpper : length < 2 ^ 63)

include small offsetLower offsetUpper lengthLower lengthUpper in
theorem spliceClamp_eq :
    spliceClamp count offset length =
      ((clampOffset count offset : Int),
        (clampLength count (clampOffset count offset) (some length) : Int)) := by
  have moved : (if offset < 0 ∧ (if offset < 0 then long (count + offset) else offset) < 0 then 0
      else if (count : Int) < (if offset < 0 then long (count + offset) else offset) then
        (count : Int)
      else if offset < 0 then long (count + offset) else offset) = clampOffset count offset := by
    rw [clampOffset]
    by_cases negative : offset < 0
    · rw [if_pos negative, if_pos negative, long_eq (by omega) (by omega)]
      split
      · omega
      · split <;> omega
    · rw [if_neg negative, if_neg (by omega), if_neg negative]
      split <;> omega
  have inside := clampOffset_le count offset
  simp only [spliceClamp, moved]
  generalize clampOffset count offset = start at *
  rw [Prod.mk.injEq]
  refine ⟨rfl, ?_⟩
  rw [clampLength, reachesBehind, long_eq (n := (count : Int) - start) (by omega) (by omega)]
  by_cases negative : length < 0
  · rw [if_pos negative, if_pos negative, long_eq (by omega) (by omega)]
    split
    · omega
    · rw [if_neg]
      · omega
      · rw [decide_eq_true_iff]
        omega
  · rw [if_neg negative, if_neg (by omega), if_neg negative]
    split
    · rename_i behind
      rw [decide_eq_true_iff] at behind
      omega
    · rename_i within
      rw [decide_eq_true_iff] at within
      omega

include small offsetLower offsetUpper lengthLower lengthUpper in
/-- `array_slice` starts at the same place, or there is nothing to select; a length that is
not positive selects nothing. -/
theorem sliceClamp_cases :
    (sliceClamp count offset length = none ∧ clampOffset count offset = count) ∨
      ∃ cut, sliceClamp count offset length = some ((clampOffset count offset : Int), cut) ∧
        cut.toNat = clampLength count (clampOffset count offset) (some length) := by
  by_cases behind : (count : Int) < offset
  · left
    rw [sliceClamp, if_pos behind, clampOffset, if_neg (by omega)]
    exact ⟨rfl, by omega⟩
  · right
    have moved : (if offset < 0 ∧ (if offset < 0 then long (count + offset) else offset) < 0
        then 0 else if offset < 0 then long (count + offset) else offset) =
          clampOffset count offset := by
      rw [clampOffset]
      by_cases negative : offset < 0
      · rw [if_pos negative, if_pos negative, long_eq (by omega) (by omega)]
        split <;> omega
      · rw [if_neg negative, if_neg (by omega), if_neg negative]
        omega
    have inside := clampOffset_le count offset
    simp only [sliceClamp, if_neg behind, moved]
    generalize clampOffset count offset = start at *
    refine ⟨_, rfl, ?_⟩
    rw [clampLength, reachesBehind, long_eq (n := (count : Int) - start) (by omega) (by omega)]
    by_cases negative : length < 0
    · rw [if_pos negative, if_pos negative, long_eq (by omega) (by omega)]
    · rw [if_neg negative, if_neg negative]
      split
      · rename_i reaches
        rw [decide_eq_true_iff] at reaches
        omega
      · rename_i within
        rw [decide_eq_true_iff] at within
        omega

end Clamping

/-! ## Selecting -/

variable {input table : HashTable α} {order nodes : List Nat} {p : Nat}

theorem construct_id (ht : HashTable α) (entry : Option Nat) : ht.construct id entry = ht := by
  cases entry with
  | none => rfl
  | some p => simp [construct]

/-- The hash of a string key is the one that its bucket has. -/
theorem hash_callerKey (keyed : input.Keyed p) (stringKeyed : input.nKeyLength p ≠ 0) :
    zendInlineHashFunc (input.callerKey p).bytes = input.h p := by
  rcases keyed stringKeyed with ⟨length, hash⟩
  rw [hash, callerKey, ← length, List.take_length]

theorem sliceElement_copies (keyed : input.Keyed p) (returnValue : HashTable α) :
    sliceElement true input returnValue p = returnValue.copyFrom input p .update id := by
  rw [sliceElement, copyFrom, insertFrom]
  split
  · rename_i stringKeyed
    rw [zendHashAddOrUpdate, hash_callerKey keyed stringKeyed, Option.map_eq_bind]
    simp only [construct_id]
    rfl
  · rw [if_pos rfl, Option.map_eq_bind]
    simp only [construct_id]
    rfl

theorem sliceElement_collects (keyed : input.Keyed p) (returnValue : HashTable α) :
    (sliceElement false input returnValue p).map some =
      collectRemoved (some returnValue) input p id := by
  rw [sliceElement, collectRemoved, insertRemoved]
  by_cases integer : input.nKeyLength p = 0
  · rw [if_neg (not_not.mpr integer), if_pos integer, if_neg Bool.false_ne_true,
      Option.map_map, Option.map_eq_bind]
    simp only [construct_id]
    rfl
  · rw [if_pos integer, if_neg integer, zendHashAddOrUpdate, hash_callerKey keyed integer,
      Option.map_map, Option.map_eq_bind]
    simp only [construct_id]
    rfl

/-- Copying keeps the keys if none of them is there yet. -/
theorem foldlM_sliceElement_true (listed : Listed input order)
    (inside : ∀ q ∈ nodes, q ∈ order) {tableOrder : List Nat}
    (consistent : Consistent table tableOrder) (clean : Clean table tableOrder)
    (different : (Pairs.keys (tableOrder.map table.pair) ++ nodes.map input.key).Nodup) :
    ∃ selected, nodes.foldlM (sliceElement true input) table = some selected ∧
      selected.contents = tableOrder.map table.pair ++ nodes.map input.pair := by
  induction nodes generalizing table tableOrder with
  | nil =>
      refine ⟨table, rfl, ?_⟩
      rw [consistent.contents_eq, List.map_nil, List.append_nil]
  | cons p nodes induction =>
      have distinct : Distinct table tableOrder :=
        distinct_of_nodup (List.nodup_append.mp different).1
      have member := inside p List.mem_cons_self
      rcases copyFrom_stored consistent distinct listed member id with
        ⟨next, nextOrder, isStep, key, stored, isKey⟩
      have own : key = input.key p := by
        rcases isKey with ⟨_, own⟩ | ⟨s, _, hides, _⟩
        · exact own
        · exact absurd ⟨s, hides⟩ (clean.not_hides consistent)
      have fresh : key ∉ Pairs.keys (tableOrder.map table.pair) := by
        rw [List.map_cons] at different
        intro present
        rw [own] at present
        exact (List.nodup_cons.mp (List.nodup_middle.mp different)).1
          (List.mem_append_left _ present)
      have pairs : nextOrder.map next.pair = tableOrder.map table.pair ++ [input.pair p] := by
        rw [stored.pairs, Pairs.upsert, if_neg fresh, own]
        rfl
      rcases induction (fun q later => inside q (List.mem_cons_of_mem p later))
        stored.consistent (stored.clean clean) (by
          rw [pairs, Pairs.keys_append, List.append_assoc]
          exact different) with ⟨selected, loop, contents⟩
      refine ⟨selected, ?_, ?_⟩
      · rw [List.foldlM_cons, sliceElement_copies (listed.keyed p member), isStep]
        exact loop
      · rw [contents, pairs, List.append_assoc]
        rfl

/-- Without the keys the elements are collected as by a splice. -/
theorem foldlM_sliceElement_false (keyed : ∀ p ∈ nodes, input.Keyed p)
    (table : HashTable α) :
    (nodes.foldlM (sliceElement false input) table).map some =
      nodes.foldlM (fun removed p => collectRemoved removed input p id) (some table) := by
  induction nodes generalizing table with
  | nil => rfl
  | cons p nodes induction =>
      rw [List.foldlM_cons, List.foldlM_cons,
        ← sliceElement_collects (keyed p List.mem_cons_self)]
      cases sliceElement false input table p with
      | none => rfl
      | some next => exact induction (fun q later => keyed q (List.mem_cons_of_mem p later)) next

theorem sliceLoop_eq (preserveKeys : Bool) (count : Nat) {before : Option Nat}
    (segment : Linked.Segment input.pListNext input.pListLast before nodes none)
    (table : HashTable α) :
    sliceLoop preserveKeys input count table nodes.head? =
      (nodes.take count).foldlM (sliceElement preserveKeys input) table := by
  induction count generalizing before nodes table with
  | zero => rfl
  | succ count induction =>
      cases nodes with
      | nil => rfl
      | cons p nodes =>
          rcases segment with ⟨_, isNext, rest⟩
          have isHead : input.pListNext p = nodes.head? := by simpa using isNext
          rw [List.head?_cons, sliceLoop, List.take_succ_cons, List.foldlM_cons, isHead]
          congr 1
          funext next
          exact induction rest next

/-- Selecting a range into a new array. -/
theorem foldlM_sliceElement (proper : Proper input) (memory : HashTable α) (nSize : Nat)
    (start count : Nat) (preserveKeys : Bool) :
    ∃ selected, (slice input.elements start count).foldlM (sliceElement preserveKeys input)
        (memory.zendHashInit nSize) = some selected ∧
      selected.contents =
        if preserveKeys then slice input.contents start count
        else renumberFrom 0 (slice input.contents start count) := by
  have inside : ∀ q ∈ slice input.elements start count, q ∈ input.elements :=
    fun q member => mem_of_slice member
  have different := proper.slice_keys_nodup start count
  rw [slice_contents]
  cases preserveKeys with
  | true =>
      rcases foldlM_sliceElement_true proper.toListed inside
        (zendHashInit_consistent memory nSize) (by simp [Clean]) different with
        ⟨selected, loop, contents⟩
      exact ⟨selected, loop, contents⟩
  | false =>
      rcases (collected_start input id (zendHashInit_consistent memory nSize)).loop
        (slice input.elements start count) proper.toListed inside different
        (proper.slice_few start count) (Or.inl rfl) with ⟨final, finalOrder, loop, collected⟩
      rw [← foldlM_sliceElement_false fun p member => proper.keyed p (inside p member)] at loop
      rcases Option.map_eq_some_iff.mp loop with ⟨selected, isSelected, equal⟩
      cases equal
      refine ⟨final, isSelected, ?_⟩
      rw [collected.consistent.contents_eq, collected.pairs]
      rfl

/-! ## Agreement -/

variable {ht memory : HashTable α}

theorem slice_zero (elements : List β) (start : Nat) : slice elements start 0 = [] :=
  List.take_zero

theorem slice_length (elements : List β) (count : Nat) :
    slice elements elements.length count = [] := by
  rw [slice, List.drop_length, List.take_nil]

theorem toInt_getD_bounds (length : Option (BitVec 64)) {count : Nat} (small : count < 2 ^ 31) :
    -2 ^ 63 ≤ (length.map BitVec.toInt).getD count ∧
      (length.map BitVec.toInt).getD count < 2 ^ 63 := by
  cases length with
  | none =>
      rw [Option.map_none, Option.getD_none]
      omega
  | some length =>
      have lower := BitVec.le_toInt length
      have upper := @BitVec.toInt_lt 64 length
      rw [Option.map_some, Option.getD_some]
      omega

section Agreement

variable (proper : Proper ht) (small : ht.contents.length < 2 ^ 31) (offset : BitVec 64)
  (length : Option (BitVec 64))

include proper small in
theorem arraySlice_spec (preserveKeys : Bool) :
    ∃ selected, arraySlice memory ht offset length preserveKeys = some selected ∧
      selected.contents =
        if preserveKeys then selectedPairs ht offset length
        else renumberFrom 0 (selectedPairs ht offset length) := by
  have isCount : int ht.nNumOfElements = ht.contents.length := by
    rw [(count_eq proper).1]
    exact int_of_lt small
  have nothing : (memory.zendHashInit 0).contents = [] :=
    (zendHashInit_consistent memory 0).contents_eq
  have empty : ∀ pairs : List (Key × α), pairs = [] → (memory.zendHashInit 0).contents =
      if preserveKeys then pairs else renumberFrom 0 pairs := by
    intro pairs isEmpty
    rw [isEmpty, nothing]
    cases preserveKeys <;> rfl
  rcases toInt_getD_bounds length small with ⟨lengthLower, lengthUpper⟩
  have offsetLower := BitVec.le_toInt offset
  have offsetUpper := @BitVec.toInt_lt 64 offset
  rw [arraySlice, isCount, selectedPairs, rangeCount, rangeStart]
  dsimp only
  rcases sliceClamp_cases small offsetLower offsetUpper lengthLower lengthUpper with
    ⟨isNone, atEnd⟩ | ⟨cut, isSome, isLength⟩
  · rw [isNone, atEnd]
    exact ⟨_, rfl, empty _ (slice_length _ _)⟩
  · rw [clampLength_getD] at isLength
    rw [isSome, ← isLength]
    dsimp only
    by_cases none' : cut ≤ 0
    · rw [if_pos none', Int.toNat_of_nonpos none']
      exact ⟨_, rfl, empty _ (slice_zero _ _)⟩
    · have startLe := clampOffset_le ht.contents.length offset.toInt
      have cutLe := clampLength_le ht.contents.length
        (clampOffset ht.contents.length offset.toInt) (length.map BitVec.toInt)
      generalize clampOffset ht.contents.length offset.toInt = start at *
      have skipped := skipTo_eq start 0 proper.linked
      have length : ht.contents.length = ht.elements.length := List.length_map _
      rw [← proper.head, Nat.zero_add, Nat.min_eq_left (by omega)] at skipped
      have segment := proper.linked
      rw [← List.take_append_drop start ht.elements] at segment
      have counted : (long ((start : Int) + cut) - start).toNat = cut.toNat := by
        rw [long_eq (by omega) (by omega)]
        omega
      rw [if_neg none', Int.toNat_natCast, skipped]
      dsimp only
      rw [counted, sliceLoop_eq preserveKeys cut.toNat (Linked.segment_append.mp segment).2]
      exact foldlM_sliceElement proper memory _ start cut.toNat preserveKeys

include proper small in
theorem arraySplice_spec (returnValueUsed : Bool) :
    ∃ rest removed,
      arraySplice memory ht offset length none returnValueUsed = some (rest, removed) ∧
      rest.contents =
        splicedPairs ht.contents (rangeStart ht offset) (rangeCount ht offset length) [] ∧
      (returnValueUsed = true → ∃ table, removed = some table ∧
        table.contents = renumberFrom 0 (selectedPairs ht offset length)) := by
  have isCount : int ht.nNumOfElements = ht.contents.length := by
    rw [(count_eq proper).1]
    exact int_of_lt small
  rcases toInt_getD_bounds length small with ⟨lengthLower, lengthUpper⟩
  have clamp := spliceClamp_eq small (BitVec.le_toInt offset) (@BitVec.toInt_lt 64 offset)
    lengthLower lengthUpper
  rw [clampLength_getD] at clamp
  have startLe := clampOffset_le ht.contents.length offset.toInt
  have countLe := clampLength_le ht.contents.length
    (clampOffset ht.contents.length offset.toInt) (length.map BitVec.toInt)
  rw [selectedPairs, rangeCount, rangeStart]
  generalize clampOffset ht.contents.length offset.toInt = start at *
  generalize clampLength ht.contents.length start (length.map BitVec.toInt) = count at *
  have receives : Receives (if returnValueUsed then
      some (memory.zendHashInit ((count : Int) % 2 ^ 32).toNat) else none) := by
    intro table isTable
    cases returnValueUsed with
    | true =>
        cases isTable
        exact ⟨[], zendHashInit_consistent memory _⟩
    | false => cases isTable
  have elementCount : ht.contents.length = ht.elements.length := List.length_map _
  rcases @phpSplice_spec _ ht proper start count start count (by omega) (by omega) (by omega)
    none ⟨by omega, Nat.two_pow_pos 31⟩ _ receives with ⟨rest, removed, spliced, collected, _, contents⟩
  refine ⟨rest, removed, ?_, ?_, ?_⟩
  · rw [arraySplice, isCount, Option.bind_eq_bind, Option.bind_some, clamp]
    exact spliced
  · apply contents
    simp only [splicedLength, List.length_take, List.length_drop, Option.getD_none,
      List.length_nil]
    omega
  · intro used
    rw [used] at collected
    rcases foldlM_sliceElement proper memory ((count : Int) % 2 ^ 32).toNat start count false
      with ⟨table, isTable, isSlice⟩
    have same := @foldlM_sliceElement_false _ ht (slice ht.elements start count)
      (fun p member => proper.keyed p (mem_of_slice member))
      (memory.zendHashInit ((count : Int) % 2 ^ 32).toNat)
    rw [isTable] at same
    exact ⟨table, Option.some.inj (collected.symm.trans same.symm), isSlice⟩

end Agreement

/-- The number of elements of a longer array is negative as an `int`, and nothing of it is
selected. -/
theorem arraySlice_of_many (proper : Proper ht) (many : 2 ^ 31 ≤ ht.contents.length)
    {offset : BitVec 64} (natural : 0 ≤ offset.toInt) (preserveKeys : Bool) :
    arraySlice memory ht offset none preserveKeys = some (memory.zendHashInit 0) := by
  have few := (count_eq proper).2
  have behind : (ht.contents.length : Int) - 2 ^ 32 < offset.toInt := by omega
  rw [arraySlice, (count_eq proper).1, int_of_ge many few]
  dsimp only
  rw [sliceClamp, if_pos behind]

theorem not_slicesAgree (proper : Proper ht) (many : 2 ^ 31 ≤ ht.contents.length) :
    ¬ SlicesAgree memory ht := by
  intro agree
  rcases (agree 0 none).1 true with ⟨selected, isSelected, contents⟩
  have natural : 0 ≤ (0 : BitVec 64).toInt := by decide
  rw [arraySlice_of_many proper many natural] at isSelected
  cases isSelected
  have start : rangeStart ht 0 = 0 := by
    have zero : (0 : BitVec 64).toInt = 0 := BitVec.toInt_zero
    rw [rangeStart, zero, clampOffset, if_neg (Int.lt_irrefl 0)]
    exact Nat.zero_min _
  rw [(zendHashInit_consistent memory 0).contents_eq, if_pos rfl, selectedPairs, rangeCount,
    start, slice, List.drop_zero, Option.map_none, clampLength, Nat.sub_zero,
    List.take_length] at contents
  rw [← contents, List.map_nil, List.length_nil] at many
  exact absurd many (by decide)

/-- Both functions select the range that is meant, for every offset and length, exactly if
an `int` can hold the number of elements. -/
theorem slicesAgree_iff (proper : Proper ht) (memory : HashTable α) :
    SlicesAgree memory ht ↔ ht.contents.length < 2 ^ 31 := by
  constructor
  · intro agree
    by_contra notSmall
    exact not_slicesAgree proper (Nat.le_of_not_lt notSmall) agree
  · intro small offset length
    exact ⟨arraySlice_spec proper small offset length,
      arraySplice_spec proper small offset length⟩

/-- Four elements, of which all but the first and the last are selected. -/
theorem slicesAgree_mixed :
    ∃ ht : HashTable Unit, SlicesAgree (blankMemory ()) ht ∧
      Pairs.keys ht.contents = [.index 0, .string [107, 0], .index 7, .index 8] ∧
      Pairs.keys (selectedPairs ht 1 (some (-1))) = [.string [107, 0], .index 7] := by
  have played : (playFitting ((blankMemory ()).zendHashInit 8) mixedKeys).map (fun ht =>
      (Pairs.keys ht.contents, Pairs.keys (selectedPairs ht 1 (some (-1))))) =
      some ([.index 0, .string [107, 0], .index 7, .index 8], [.string [107, 0], .index 7]) := by
    decide +kernel
  rcases Option.map_eq_some_iff.mp played with ⟨ht, isPlayed, facts⟩
  rcases Prod.mk.inj facts with ⟨isKeys, isSelected⟩
  have four : ht.contents.length = 4 := by simpa [Pairs.keys] using congrArg List.length isKeys
  refine ⟨ht, ?_, isKeys, isSelected⟩
  apply (slicesAgree_iff (proper_of_reachable (reachable_of_play rfl isPlayed)) _).mpr
  rw [four]
  decide

/-- Nothing is selected of an array of 2^31 elements. -/
theorem slices_of_long_array :
    ∃ ht : HashTable Unit, Reachable Safe ht ∧ ht.contents.length = 2 ^ 31 ∧
      arraySlice (blankMemory ()) ht 0 none false = some ((blankMemory ()).zendHashInit 0) ∧
      ¬ SlicesAgree (blankMemory ()) ht := by
  rcases filled_safe (2 ^ 31) (by decide) with ⟨ht, reachable, elements⟩
  have length : ht.contents.length = 2 ^ 31 := (List.length_map _).trans elements
  have proper := proper_of_reachable reachable
  have many : 2 ^ 31 ≤ ht.contents.length := Nat.le_of_eq length.symm
  exact ⟨ht, reachable, length,
    arraySlice_of_many proper many (by decide) false,
    not_slicesAgree proper many⟩

end PhpRuntime.Arrays
