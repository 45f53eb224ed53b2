import PhpRuntime.Arrays.Tables

/-! # `array_pop`

The next free element after elements were taken off the end of an array.
-/

namespace PhpRuntime.Arrays

open Hash Hash.HashTable

/-- `!key_len && nNextFreeElement > 0 && index >= nNextFreeElement - 1`; the comparison is one
of unsigned numbers. -/
def lowersNextFree (keyLen : Nat) (index nNextFreeElement : BitVec 64) : Bool :=
  keyLen == 0 && decide (0 < nNextFreeElement) && decide (nNextFreeElement - 1 ≤ index)

/-- `_phpi_pop`, for an array that is not the symbol table: the array and the value returned.
The result is `none` when a value is read that is not there. -/
def phpiPop (offTheEnd : Bool) (ht : HashTable α) : Option (HashTable α × Option α) :=
  if ht.nNumOfElements = 0 then
    some (ht, none)
  else
    let ht := if offTheEnd then ht.zendHashInternalPointerEnd else ht.zendHashInternalPointerReset
    match ht.pInternalPointer with
    | none => none
    | some p =>
        match deleteLike ht ht p with
        | none => none
        | some rest =>
            if offTheEnd then
              let rest := if lowersNextFree (ht.nKeyLength p) (ht.h p) rest.nNextFreeElement then
                { rest with nNextFreeElement := rest.nNextFreeElement - 1 } else rest
              some (rest.zendHashInternalPointerReset, some (ht.pData p))
            else
              (rest.zendHashReindex true).map fun rest =>
                (rest.zendHashInternalPointerReset, some (ht.pData p))

def arrayPop (ht : HashTable α) : Option (HashTable α × Option α) := phpiPop true ht

def arrayShift (ht : HashTable α) : Option (HashTable α × Option α) := phpiPop false ht

/-! ## Runs -/

/-- What a script does with an array. A numeric string was turned into an index before. -/
inductive ArrayOp (α : Type) where
  | assignIndex (h : BitVec 64) (data : α)
  | assignString (key : CallerKey) (data : α)
  | append (data : α)
  | unsetIndex (h : BitVec 64)
  | unsetString (key : CallerKey)
  | pop

namespace ArrayOp

def run (ht : HashTable α) : ArrayOp α → Option (HashTable α)
  | assignIndex h data => (ht.zendHashIndexUpdateOrNextInsert h data .update).map Prod.fst
  | assignString key data => (ht.zendHashAddOrUpdate key data .update).map Prod.fst
  | append data => (ht.zendHashNextIndexInsert data).map Prod.fst
  | unsetIndex h => (ht.zendHashIndexDel h).map Prod.fst
  | unsetString key => (ht.zendHashDel key).map Prod.fst
  | pop => (arrayPop ht).map Prod.fst

/-- The length of a string key counts the NUL behind it. -/
def Valid : ArrayOp α → Prop
  | assignString key _ => key.bytes ≠ []
  | _ => True

end ArrayOp

/-- The arrays that can be obtained, with `array_pop` called only on arrays that are
`Allowed`. -/
inductive Obtainable (Allowed : HashTable α → Prop) : HashTable α → Prop where
  | init (memory : HashTable α) (nSize : Nat) : Obtainable Allowed (memory.zendHashInit nSize)
  | step {ht ht' : HashTable α} (op : ArrayOp α) (before : Obtainable Allowed ht)
      (valid : op.Valid) (allowed : op = .pop → Allowed ht) (after : op.run ht = some ht') :
      Obtainable Allowed ht'

/-- If `array_pop` lowers the next free element, then neither the key below it nor the largest
one is the key of another element. -/
def PopSafe (ht : HashTable α) : Prop :=
  ∀ p, ht.pListTail = some p → ht.nNumOfElements ≠ 0 →
    lowersNextFree (ht.nKeyLength p) (ht.h p) ht.nNextFreeElement = true →
    ∀ q ∈ ht.elements, q ≠ p → ht.nKeyLength q = 0 →
      ht.h q ≠ ht.nNextFreeElement - 1 ∧ ht.h q ≠ longMax

variable {ht ht' : HashTable α} {order : List Nat} {p q : Nat}

/-! ## One call -/

/-- The array behind an element that was popped. -/
structure Popped (ht : HashTable α) (front : List Nat) (p : Nat) (ht' : HashTable α) : Prop where
  consistent : Consistent ht' front
  h : ht'.h = ht.h
  nKeyLength : ht'.nKeyLength = ht.nKeyLength
  arKey : ht'.arKey = ht.arKey
  next : ht'.nNextFreeElement =
    if lowersNextFree (ht.nKeyLength p) (ht.h p) ht.nNextFreeElement then
      ht.nNextFreeElement - 1 else ht.nNextFreeElement

/-- A call leaves an array alone that is taken for an empty one, and otherwise takes off the
last element. -/
theorem pop_cases (consistent : Consistent ht order) (distinct : Distinct ht order) :
    (ht.nNumOfElements = 0 ∧ ArrayOp.pop.run ht = some ht) ∨
      (ht.nNumOfElements ≠ 0 ∧ ∃ front p ht', order = front ++ [p] ∧
        ArrayOp.pop.run ht = some ht' ∧ Popped ht front p ht') := by
  by_cases counted : ht.nNumOfElements = 0
  · exact Or.inl ⟨counted, by simp [ArrayOp.run, arrayPop, phpiPop, counted]⟩
  · refine Or.inr ⟨counted, ?_⟩
    rcases List.eq_nil_or_concat' order with empty | ⟨front, p, rfl⟩
    · rw [consistent.count, empty] at counted
      exact absurd rfl counted
    · have isTail : ht.pListTail = some p := by rw [consistent.tail, List.getLast?_concat]
      have atEnd : Consistent ht.zendHashInternalPointerEnd (front ++ [p]) :=
        { consistent with
          cursor := fun q isCursor => List.mem_of_getLast? (consistent.tail ▸ isCursor) }
      have deletes : deleteLike ht.zendHashInternalPointerEnd ht.zendHashInternalPointerEnd p =
          some (ht.zendHashInternalPointerEnd.zendHashBucketDelete p) := by
        rcases deleteLike_cases atEnd (atEnd.keyed p (by simp)) with
          ⟨q, member, isKey, deleted⟩ | ⟨absent, _⟩
        · rw [deleted, distinct q member p (by simp) isKey]
        · exact absurd rfl (absent p (by simp))
      have rest := zendHashBucketDelete_consistent atEnd
      rw [List.append_nil] at rest
      have reset : ∀ next, Consistent (HashTable.zendHashInternalPointerReset
          { ht.zendHashInternalPointerEnd.zendHashBucketDelete p with
            nNextFreeElement := next }) front := fun next =>
        { rest with cursor := fun q isCursor => List.mem_of_head? (rest.head ▸ isCursor) }
      refine ⟨front, p, _, rfl, ?_, reset (if lowersNextFree (ht.nKeyLength p) (ht.h p)
        ht.nNextFreeElement then ht.nNextFreeElement - 1 else ht.nNextFreeElement), rfl, rfl,
        rfl, rfl⟩
      have isCursor : ht.zendHashInternalPointerEnd.pInternalPointer = some p := isTail
      rw [ArrayOp.run, arrayPop, phpiPop, if_neg counted]
      simp only [if_true, isCursor, deletes, Option.map_some]
      congr 2
      cases lowers : lowersNextFree (ht.nKeyLength p) (ht.h p) ht.nNextFreeElement with
      | true => exact if_pos lowers
      | false => exact if_neg (ne_true_of_eq_false lowers)

/-! ## The next free element -/

theorem toInt_sub_one {next : BitVec 64} (nonnegative : 0 ≤ next.toInt) (positive : 0 < next) :
    (next - 1).toInt = next.toInt - 1 := by
  have above : 0 < next.toNat := positive
  have one : (1 : BitVec 64).toNat = 1 := rfl
  have below : (next - 1).toNat = next.toNat - 1 := by
    rw [BitVec.toNat_sub, one]
    omega
  have size : next.toNat < 2 ^ 63 := by
    have bound := next.isLt
    rw [BitVec.toInt_eq_toNat_cond] at nonnegative
    split at nonnegative <;> omega
  rw [BitVec.toInt_eq_toNat_of_lt (by omega), BitVec.toInt_eq_toNat_of_lt (by omega), below]
  omega

/-- Taking off the last element keeps the next free element ahead of the others exactly if the
call is safe. -/
theorem Popped.ahead_iff {front : List Nat} (popped : Popped ht front p ht')
    (consistent : Consistent ht (front ++ [p])) (counted : ht.nNumOfElements ≠ 0)
    (ahead : Ahead ht (front ++ [p])) : Ahead ht' front ↔ PopSafe ht := by
  have isTail : ht.pListTail = some p := by rw [consistent.tail, List.getLast?_concat]
  have next := popped.next
  cases lowers : lowersNextFree (ht.nKeyLength p) (ht.h p) ht.nNextFreeElement with
  | false =>
      rw [lowers] at next
      have same : ht'.nNextFreeElement = ht.nNextFreeElement := next
      constructor
      · intro _ p' isTail' _ lowers'
        rw [isTail] at isTail'
        cases isTail'
        rw [lowers] at lowers'
        cases lowers'
      · intro _
        refine ⟨same ▸ ahead.nonnegative, ?_⟩
        rcases ahead.above with above | isMax
        · refine Or.inl fun q member integer => ?_
          rw [popped.nKeyLength] at integer
          rw [popped.h, same]
          exact above q (List.mem_append_left _ member) integer
        · exact Or.inr (same.trans isMax)
  | true =>
      rw [lowers] at next
      have isNext : ht'.nNextFreeElement = ht.nNextFreeElement - 1 := next
      have positive : 0 < ht.nNextFreeElement := by
        simp only [lowersNextFree, Bool.and_eq_true, decide_eq_true_eq] at lowers
        exact lowers.1.2
      have lower := toInt_sub_one ahead.nonnegative positive
      have bound := toInt_le_longMax ht.nNextFreeElement
      constructor
      · intro after p' isTail' _ _ q member different integer
        rw [isTail] at isTail'
        cases isTail'
        rw [consistent.elements_eq, List.mem_append, List.mem_singleton] at member
        have inFront := member.resolve_right different
        rcases after.above with above | isMax
        · have below := above q inFront (popped.nKeyLength ▸ integer)
          rw [popped.h, isNext] at below
          constructor
          · intro equal
            rw [equal] at below
            exact Int.lt_irrefl _ below
          · intro equal
            rw [equal] at below
            omega
        · rw [isNext] at isMax
          rw [isMax] at lower
          omega
      · intro safe
        have smallest : (0 : BitVec 64).toInt = 0 := rfl
        have nonzero : ht.nNextFreeElement.toInt ≠ 0 := by
          intro isZero
          have equal := BitVec.eq_of_toInt_eq (isZero.trans smallest.symm)
          rw [equal] at positive
          exact absurd positive (by decide)
        have nonnegative := ahead.nonnegative
        refine ⟨by rw [isNext, lower]; omega, Or.inl fun q member integer => ?_⟩
        rw [popped.nKeyLength] at integer
        have different : q ≠ p := by
          intro equal
          have nodup := consistent.nodup
          rw [List.nodup_append] at nodup
          exact nodup.2.2 q member p (List.mem_singleton_self p) equal
        have inside : q ∈ front ++ [p] := List.mem_append_left _ member
        rcases safe p isTail counted lowers q (consistent.elements_eq ▸ inside) different integer
          with ⟨notBelow, notMax⟩
        have notEqual : (ht.h q).toInt ≠ (ht.nNextFreeElement - 1).toInt := fun equal =>
          notBelow (BitVec.eq_of_toInt_eq equal)
        have notLargest : (ht.h q).toInt ≠ longMax.toInt := fun equal =>
          notMax (BitVec.eq_of_toInt_eq equal)
        have largest := toInt_le_longMax (ht.h q)
        rw [popped.h, isNext]
        rcases ahead.above with above | isMax
        · have below := above q inside integer
          omega
        · rw [isMax] at lower notEqual ⊢
          omega

/-! ## Whole runs -/

/-- What every array obtained satisfies. -/
def Appendable (ht : HashTable α) (order : List Nat) : Prop :=
  Distinct ht order ∧ Ahead ht order

theorem Appendable.effects {order' : List Nat} (appendable : Appendable ht order)
    (effects : Effects True ht order ht' order') : Appendable ht' order' :=
  effects.preserve Appendable
    (fun _ _ _ _ effect before => ⟨effect.distinct trivial before.1, effect.ahead before.2⟩)
    appendable

theorem Appendable.popped {front : List Nat} (distinct : Distinct ht (front ++ [p]))
    (popped : Popped ht front p ht') (ahead : Ahead ht' front) : Appendable ht' front := by
  refine ⟨fun q qMember r rMember equal => ?_, ahead⟩
  simp only [HashTable.key, popped.h, popped.nKeyLength, popped.arKey] at equal
  exact distinct q (List.mem_append_left _ qMember) r (List.mem_append_left _ rMember) equal

/-- One step of a run. -/
theorem run_appendable {op : ArrayOp α} (consistent : Consistent ht order)
    (appendable : Appendable ht order) (valid : op.Valid) (allowed : op = .pop → PopSafe ht)
    (after : op.run ht = some ht') : ∃ order', Consistent ht' order' ∧ Appendable ht' order' := by
  have stored : ∀ {result : Option (HashTable α × Option Nat)},
      (∃ next entry order', result = some (next, entry) ∧ Consistent next order' ∧
        Effects True ht order next order') → result.map Prod.fst = some ht' →
      ∃ order', Consistent ht' order' ∧ Appendable ht' order' := by
    rintro result ⟨next, entry, order', rfl, result, effects⟩ after
    cases after
    exact ⟨order', result, appendable.effects effects⟩
  have removed : ∀ {result : Option (HashTable α)}, Outcome True ht order order.length result →
      result = some ht' → ∃ order', Consistent ht' order' ∧ Appendable ht' order' := by
    rintro result ⟨next, order', rfl, result, effects, _⟩ after
    cases after
    exact ⟨order', result, appendable.effects effects⟩
  cases op with
  | assignIndex h data =>
      rcases indexUpdateOrNextInsert_outcome True consistent h data .update h rfl with
        ⟨next, entry, order', equal, result, effects, _⟩
      exact stored ⟨next, entry, order', equal, result, effects⟩ after
  | assignString key data =>
      rcases quickAddOrUpdate_outcome True consistent key valid data .update with
        ⟨next, entry, order', equal, result, effects, _⟩
      exact stored ⟨next, entry, order', equal, result, effects⟩ after
  | append data =>
      rcases indexUpdateOrNextInsert_outcome True consistent 0 data .nextInsert
        ht.nNextFreeElement rfl with ⟨next, entry, order', equal, result, effects, _⟩
      exact stored ⟨next, entry, order', equal, result, effects⟩ after
  | unsetIndex h => exact removed (delKeyOrIndex_outcome True consistent ⟨false, []⟩ h) after
  | unsetString key => exact removed (delKeyOrIndex_outcome True consistent key _) after
  | pop =>
      rcases pop_cases consistent appendable.1 with
        ⟨_, unchanged⟩ | ⟨counted, front, p, next, rfl, isNext, popped⟩
      · rw [after] at unchanged
        cases unchanged
        exact ⟨order, consistent, appendable⟩
      · rw [after] at isNext
        cases isNext
        have ahead := (popped.ahead_iff consistent counted appendable.2).mpr (allowed rfl)
        exact ⟨front, popped.consistent, Appendable.popped appendable.1 popped ahead⟩

theorem appendable_of_obtainable (obtainable : Obtainable PopSafe ht) :
    ∃ order, Consistent ht order ∧ Appendable ht order := by
  induction obtainable with
  | init memory nSize =>
      have zero : (0 : Int) ≤ (0 : BitVec 64).toInt := by decide
      refine ⟨[], zendHashInit_consistent memory nSize, ?_, zero, Or.inl (by simp)⟩
      intro p member
      cases member
  | step op before valid allowed after induction =>
      rcases induction with ⟨order, consistent, appendable⟩
      exact run_appendable consistent appendable valid allowed after

/-- In every run whose calls of `array_pop` are all safe, an array can be appended to until
the largest key is taken, and one more call keeps this exactly if it is safe. -/
theorem appendsAhead_of_obtainable (ht : HashTable α) (obtainable : Obtainable PopSafe ht) :
    AppendsAhead ht ∧
      ∃ ht', ArrayOp.pop.run ht = some ht' ∧ (AppendsAhead ht' ↔ PopSafe ht) := by
  rcases appendable_of_obtainable obtainable with ⟨order, consistent, distinct, ahead⟩
  refine ⟨ahead.appendsAhead consistent, ?_⟩
  rcases pop_cases consistent distinct with
    ⟨counted, unchanged⟩ | ⟨counted, front, p, next, rfl, isNext, popped⟩
  · refine ⟨ht, unchanged, fun _ => ?_, fun _ => ahead.appendsAhead consistent⟩
    intro p _ notZero
    exact absurd counted notZero
  · refine ⟨next, isNext, ?_⟩
    rw [← popped.ahead_iff consistent counted ahead]
    constructor
    · intro appends
      refine ⟨appends.nonnegative, ?_⟩
      have above := appends.above
      rwa [popped.consistent.elements_eq] at above
    · intro aheadAfter
      exact aheadAfter.appendsAhead popped.consistent

/-! ## Runs from an empty array -/

def playArray (ht : HashTable α) (ops : List (ArrayOp α)) : Option (HashTable α) :=
  ops.foldlM ArrayOp.run ht

theorem obtainable_play {Allowed : HashTable α → Prop} {ops : List (ArrayOp α)}
    (start : Obtainable Allowed ht) (plain : ∀ op ∈ ops, op.Valid ∧ op ≠ .pop)
    (played : playArray ht ops = some ht') : Obtainable Allowed ht' := by
  induction ops generalizing ht with
  | nil =>
      cases played
      exact start
  | cons op ops induction =>
      rw [playArray, List.foldlM_cons] at played
      rcases Option.bind_eq_some_iff.mp played with ⟨next, after, later⟩
      rcases plain op List.mem_cons_self with ⟨valid, notPop⟩
      exact induction (.step op start valid (fun isPop => absurd isPop notPop) after)
        (fun op member => plain op (List.mem_cons_of_mem _ member)) later

/-- Two elements with integer keys. -/
def twoElements (first second : BitVec 64) : List (ArrayOp Unit) :=
  [.assignIndex first (), .assignIndex second ()]

theorem obtainable_twoElements {first second : BitVec 64} {ht : HashTable Unit}
    (played : playArray ((blankMemory ()).zendHashInit 8) (twoElements first second) = some ht) :
    Obtainable PopSafe ht := by
  apply obtainable_play (.init _ 8) _ played
  intro op member
  simp only [twoElements, List.mem_cons, List.not_mem_nil, or_false] at member
  rcases member with rfl | rfl <;> exact ⟨trivial, by simp⟩

theorem appendsAhead_of_obtainable_two :
    ∃ ht, playArray ((blankMemory ()).zendHashInit 8) (twoElements 0 1) = some ht ∧
      AppendsAhead ht ∧ ∃ ht', ArrayOp.pop.run ht = some ht' ∧ (AppendsAhead ht' ↔ PopSafe ht) := by
  have ends : (playArray ((blankMemory ()).zendHashInit 8) (twoElements 0 1)).isSome = true := by
    decide +kernel
  rcases Option.isSome_iff_exists.mp ends with ⟨ht, played⟩
  exact ⟨ht, played, appendsAhead_of_obtainable ht (obtainable_twoElements played)⟩

/-- The next append behind a call of `array_pop` finds its key taken. -/
def BlocksAppend (first second : BitVec 64) : Prop :=
  ∃ ht ht', Obtainable PopSafe ht ∧
    playArray ((blankMemory ()).zendHashInit 8) (twoElements first second) = some ht ∧
    ArrayOp.pop.run ht = some ht' ∧ ht'.keys = [.index ht'.nNextFreeElement] ∧
    (ht'.zendHashNextIndexInsert ()).map Prod.snd = some none ∧ ¬ AppendsAhead ht'

theorem blocksAppend_of_run {first second next : BitVec 64} (notMax : next ≠ longMax)
    (facts : ((playArray ((blankMemory ()).zendHashInit 8) (twoElements first second)).bind
      fun ht => (ArrayOp.pop.run ht).map fun ht' => (ht'.nNextFreeElement, ht'.keys,
        (ht'.zendHashNextIndexInsert ()).map Prod.snd)) =
      some (next, [.index next], some none)) : BlocksAppend first second := by
  rcases Option.bind_eq_some_iff.mp facts with ⟨ht, played, rest⟩
  rcases Option.map_eq_some_iff.mp rest with ⟨ht', popped, results⟩
  simp only [Prod.mk.injEq] at results
  rcases results with ⟨isNext, keys, failed⟩
  refine ⟨ht, ht', obtainable_twoElements played, played, popped, isNext ▸ keys, failed, ?_⟩
  intro appends
  rcases appends.insert () with ⟨ht'', entry, inserted, onlyMax, _⟩
  rw [inserted] at failed
  have isMax := (onlyMax.mp (Option.some.inj failed)).1
  exact notMax (isNext ▸ isMax)

/-- `[0 => , -3 => ]` and `[LONG_MAX - 1 => , LONG_MAX => ]` -/
theorem array_pop_blocks_append :
    BlocksAppend 0 (-3) ∧ BlocksAppend (longMax - 1) longMax := by
  constructor
  · apply @blocksAppend_of_run _ _ 0 (by decide)
    decide +kernel
  · apply @blocksAppend_of_run _ _ (longMax - 1) (by decide)
    decide +kernel

/-! ## `array_shift` -/

end PhpRuntime.Arrays
