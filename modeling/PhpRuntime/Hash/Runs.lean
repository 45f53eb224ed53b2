import PhpRuntime.Hash.Transfers

/-! Runs of a table: any sequence of operations from `_zend_hash_init` on. -/

namespace PhpRuntime.Hash

open Function (update)
open PhpRuntime.Linked

namespace HashTable

/-- The buckets from `pListHead` on. -/
def elements (ht : HashTable α) : List Nat :=
  (follow ht.pListNext ht.brk ht.pListHead).getD []

theorem Listed.elements_eq {ht : HashTable α} {order : List Nat} (listed : Listed ht order) :
    ht.elements = order := by
  rw [elements, listed.follow_eq, Option.getD_some]

def keys (ht : HashTable α) : List Key := ht.elements.map ht.key

end HashTable

open HashTable

/-- The operations on a table. The quick variants of the string operations take the hash
value of their key from the caller and are otherwise the same. -/
inductive Op (α : Type) where
  | addOrUpdate (key : CallerKey) (data : α) (flag : InsertFlag)
  | indexUpdateOrNextInsert (h : BitVec 64) (data : α) (flag : InsertFlag)
  | del (key : CallerKey)
  | indexDel (h : BitVec 64)
  | clean
  | apply (results : List ApplyResult)
  | reverseApply (results : List ApplyResult)
  | resize
  | rehash
  | reindex (onlyIntegerKeys : Bool)
  | internalPointerReset
  | internalPointerEnd
  | moveForward
  | moveBackwards
  | updateCurrentKey (key : Option RenameKey) (mode : UpdateKeyMode)
      (pos : Option (Option Nat))
  | splice (copyConstructor : α → α) (offset length : Nat) (list : Option (List α))
      (removed : Option (HashTable α))
  | sort (sortFunc : List Nat → List Nat) (renumber : Bool)
  | copy (source : HashTable α) (copyConstructor : α → α)
  | merge (source : HashTable α) (copyConstructor : α → α) (overwrite : Bool)

namespace Op

/-- The table after the operation; `none` if the operation does not end. -/
def run (ht : HashTable α) : Op α → Option (HashTable α)
  | addOrUpdate key data flag => (ht.zendHashAddOrUpdate key data flag).map Prod.fst
  | indexUpdateOrNextInsert h data flag =>
      (ht.zendHashIndexUpdateOrNextInsert h data flag).map Prod.fst
  | del key => (ht.zendHashDel key).map Prod.fst
  | indexDel h => (ht.zendHashIndexDel h).map Prod.fst
  | clean => some ht.zendHashClean
  | apply results => ht.zendHashApply results
  | reverseApply results => ht.zendHashReverseApply results
  | resize => ht.ifFullDoResize
  | rehash => ht.zendHashRehash
  | reindex onlyIntegerKeys => ht.zendHashReindex onlyIntegerKeys
  | internalPointerReset => some ht.zendHashInternalPointerReset
  | internalPointerEnd => some ht.zendHashInternalPointerEnd
  | moveForward => some ht.zendHashMoveForward
  | moveBackwards => some ht.zendHashMoveBackwards
  | updateCurrentKey key mode pos =>
      (ht.zendHashUpdateCurrentKeyEx key mode pos).map Prod.fst
  | splice copyConstructor offset length list removed =>
      (ht.zendHashSplice copyConstructor offset length list removed).map Prod.fst
  | sort sortFunc renumber => ht.zendHashSort (some ∘ sortFunc) renumber
  | copy source copyConstructor => ht.zendHashCopy source copyConstructor
  | merge source copyConstructor overwrite =>
      ht.zendHashMerge source copyConstructor overwrite

/-- What a caller has to provide: string keys have at least one byte, a position is
`NULL` or a bucket of the table, and a sort function permutes its input. -/
def Valid (ht : HashTable α) : Op α → Prop
  | addOrUpdate key _ _ => key.bytes ≠ []
  | updateCurrentKey key _ pos =>
      (∀ renamed, key = some renamed → renamed.Nonempty) ∧
        ∀ p, pos = some (some p) → p ∈ ht.elements
  | sort sortFunc _ => (sortFunc ht.elements).Perm ht.elements
  | _ => True

/-- The other tables that an operation reads or fills. -/
def tables : Op α → List (HashTable α)
  | splice _ _ _ _ removed => removed.toList
  | copy source _ => [source]
  | merge source _ _ => [source]
  | _ => []

/-- How many elements the table holds after the operation, at most. -/
def limit (ht : HashTable α) : Op α → Nat
  | addOrUpdate key _ _ =>
      if Key.string key.bytes ∈ ht.keys then ht.elements.length else ht.elements.length + 1
  | indexUpdateOrNextInsert h _ flag =>
      if Key.index (if flag = .nextInsert then ht.nNextFreeElement else h) ∈ ht.keys then
        ht.elements.length
      else
        ht.elements.length + 1
  | splice _ offset length list _ =>
      (spliceKept ht.elements offset length).length + (list.getD []).length
  | copy source _ =>
      ht.elements.length + (newKeys ht ht.elements source source.elements).length
  | merge source _ _ =>
      ht.elements.length + (newKeys ht ht.elements source source.elements).length
  | _ => ht.elements.length

/-- How far the operation counts with an `int`. -/
def counters (ht : HashTable α) : Op α → Nat
  | splice _ offset length list _ =>
      max (spliceEnd ht.elements offset length) (list.getD []).length
  | sort _ _ => ht.elements.length
  | _ => 0

/-- The operation does not fill the table beyond what `nNumOfElements` can count, and no `int`
that it counts with overflows. -/
def Fits (ht : HashTable α) (op : Op α) : Prop := op.limit ht < 2 ^ 32 ∧ op.counters ht < 2 ^ 31

instance (ht : HashTable α) (op : Op α) : Decidable (op.Fits ht) :=
  inferInstanceAs (Decidable (_ ∧ _))

/-- The operation does not rename a bucket to a string that both a string-keyed bucket
and the stale pointer of an integer-keyed bucket in its chain stand for. -/
def AvoidsStale (ht : HashTable α) : Op α → Prop
  | updateCurrentKey key _ _ =>
      ∀ renamed, key = some renamed → ¬ StaleDuplicate ht ht.elements renamed
  | _ => True

end Op

/-- The tables that operations meeting the condition `Allowed` can produce. The other
tables that an operation uses are produced in the same way. -/
inductive Reachable (Allowed : HashTable α → Op α → Prop) : HashTable α → Prop where
  | init (memory : HashTable α) (nSize : Nat) : Reachable Allowed (memory.zendHashInit nSize)
  | step {ht ht' : HashTable α} (op : Op α) (before : Reachable Allowed ht)
      (others : ∀ table ∈ op.tables, Reachable Allowed table) (valid : op.Valid ht)
      (allowed : Allowed ht op) (after : op.run ht = some ht') : Reachable Allowed ht'

theorem Reachable.mono {Allowed Permitted : HashTable α → Op α → Prop} {ht : HashTable α}
    (reachable : Reachable Allowed ht) (permitted : ∀ ht op, Allowed ht op → Permitted ht op) :
    Reachable Permitted ht := by
  induction reachable with
  | init memory nSize => exact .init memory nSize
  | step op _ _ valid allowed after before others =>
      exact .step op before others valid (permitted _ _ allowed) after

namespace HashTable

variable {ht : HashTable α} {order : List Nat}

/-- The condition under which a renamed bucket gets a key of its own. -/
def Unique (ht : HashTable α) (order : List Nat) (op : Op α) : Prop :=
  Distinct ht order ∧ op.AvoidsStale ht

theorem Grown.length_le_limit {key : Key} {ht' : HashTable α} {order' : List Nat}
    (grown : Grown ht order key ht' order') (listed : Listed ht order) :
    order'.length ≤
      if key ∈ ht.keys then ht.elements.length else ht.elements.length + 1 := by
  rw [keys, listed.elements_eq]
  rcases grown.grown with rfl | ⟨rfl, _, fresh⟩
  · split <;> omega
  · have absent : key ∉ order.map ht.key := by
      intro member
      rcases List.mem_map.mp member with ⟨q, inside, equal⟩
      exact fresh q inside equal
    rw [if_neg absent]
    simp

/-- One step of a run: every operation ends and keeps the table consistent. -/
theorem op_outcome (op : Op α) (consistent : Consistent ht order)
    (others : ∀ table ∈ op.tables, ∃ tableOrder, Consistent table tableOrder)
    (valid : op.Valid ht) (few : order.length < 2 ^ 32) (fits : op.Fits ht) :
    Outcome (Unique ht order op) ht order (op.limit ht) (op.run ht) := by
  have isOrder := consistent.elements_eq
  cases op with
  | addOrUpdate key data flag =>
      rcases quickAddOrUpdate_outcome (Unique ht order (.addOrUpdate key data flag)) consistent
        key valid data flag with ⟨ht', entry, order', equal, result, effects, grown⟩
      exact ⟨ht', order', by simp [Op.run, zendHashAddOrUpdate, equal], result, effects,
        grown.length_le_limit consistent.toListed⟩
  | indexUpdateOrNextInsert h data flag =>
      rcases indexUpdateOrNextInsert_outcome
        (Unique ht order (.indexUpdateOrNextInsert h data flag)) consistent h data flag _ rfl
        with ⟨ht', entry, order', equal, result, effects, grown⟩
      exact ⟨ht', order', by simp [Op.run, equal], result, effects,
        grown.length_le_limit consistent.toListed⟩
  | del key =>
      simp only [Op.limit, isOrder]
      exact delKeyOrIndex_outcome _ consistent key _
  | indexDel h =>
      simp only [Op.limit, isOrder]
      exact delKeyOrIndex_outcome _ consistent _ h
  | clean =>
      simp only [Op.limit, isOrder]
      exact clean_outcome _ consistent
  | apply results =>
      simp only [Op.limit, isOrder]
      exact apply_outcome _ consistent results
  | reverseApply results =>
      simp only [Op.limit, isOrder]
      exact reverseApply_outcome _ consistent results
  | resize =>
      simp only [Op.limit, isOrder]
      exact ifFullDoResize_outcome _ consistent
  | rehash =>
      simp only [Op.limit, isOrder]
      exact rehash_outcome _ consistent
  | reindex onlyIntegerKeys =>
      simp only [Op.limit, isOrder]
      exact reindex_outcome _ consistent onlyIntegerKeys few
  | internalPointerReset =>
      simp only [Op.limit, isOrder]
      exact pointerReset_outcome _ consistent
  | internalPointerEnd =>
      simp only [Op.limit, isOrder]
      exact pointerEnd_outcome _ consistent
  | moveForward =>
      simp only [Op.limit, isOrder]
      exact moveForward_outcome _ consistent
  | moveBackwards =>
      simp only [Op.limit, isOrder]
      exact moveBackwards_outcome _ consistent
  | updateCurrentKey key mode pos =>
      have outcome := updateCurrentKey_outcome consistent key valid.1 mode pos
        (isOrder ▸ valid.2)
      simp only [Unique, Op.AvoidsStale, Op.limit, isOrder]
      exact outcome
  | splice copyConstructor offset length list removed =>
      simp only [Op.Fits, Op.limit, Op.counters, isOrder, Nat.max_lt] at fits ⊢
      apply splice_outcome _ consistent copyConstructor offset length list _ fits.2.1 fits.2.2
        fits.1
      rintro table rfl
      exact others table (by simp [Op.tables])
  | sort sortFunc renumber =>
      simp only [Op.Valid, Op.Fits, Op.counters, Op.limit, isOrder] at valid fits ⊢
      exact sort_outcome _ consistent renumber rfl valid fits.2
  | copy source copyConstructor =>
      rcases others source (by simp [Op.tables]) with ⟨sourceOrder, sourceConsistent⟩
      simp only [Op.limit, isOrder, sourceConsistent.elements_eq]
      exact copy_outcome _ consistent sourceConsistent copyConstructor
  | merge source copyConstructor overwrite =>
      rcases others source (by simp [Op.tables]) with ⟨sourceOrder, sourceConsistent⟩
      simp only [Op.limit, isOrder, sourceConsistent.elements_eq]
      exact merge_outcome _ consistent sourceConsistent copyConstructor overwrite

/-- The rule for invariants of runs: what holds of a new table and is kept by every
operation holds of every table reached. -/
theorem Reachable.induct {Allowed : HashTable α → Op α → Prop}
    (fits : ∀ ht op, Allowed ht op → op.Fits ht) (invariant : HashTable α → List Nat → Prop)
    (start : ∀ (memory : HashTable α) nSize, invariant (memory.zendHashInit nSize) [])
    (keep : ∀ ht order (op : Op α) ht' order', Allowed ht op → Consistent ht order →
      Effects (Unique ht order op) ht order ht' order' → invariant ht order →
      invariant ht' order')
    (reachable : Reachable Allowed ht) :
    ∃ order, Consistent ht order ∧ order.length < 2 ^ 32 ∧ invariant ht order := by
  induction reachable with
  | init memory nSize =>
      exact ⟨[], zendHashInit_consistent memory nSize, by simp, start memory nSize⟩
  | step op before others valid allowed after induction othersInduction =>
      rcases induction with ⟨order, consistent, few, holds⟩
      have otherTables : ∀ table ∈ op.tables, ∃ tableOrder, Consistent table tableOrder := by
        intro table member
        rcases othersInduction table member with ⟨tableOrder, tableConsistent, _⟩
        exact ⟨tableOrder, tableConsistent⟩
      rcases op_outcome op consistent otherTables valid few (fits _ _ allowed) with
        ⟨ht', order', equal, result, effects, bound⟩
      rw [after] at equal
      cases equal
      exact ⟨order', result, Nat.lt_of_le_of_lt bound (fits _ _ allowed).1,
        keep _ _ op _ _ allowed consistent effects holds⟩

end HashTable

end PhpRuntime.Hash
