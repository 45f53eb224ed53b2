import PhpRuntime.Hash.Splices
import PhpRuntime.Hash.Copies

/-! # Arrays of PHP

What the functions of `ext/standard/array.c` have in common: the copy of an array, the
deletion of an element by the key of a bucket, and `php_splice`.
-/

namespace PhpRuntime.Arrays

open Hash Hash.HashTable

variable {ht source : HashTable α} {order : List Nat} {p q : Nat}

theorem count_eq (proper : Proper ht) :
    ht.nNumOfElements = ht.contents.length ∧ ht.contents.length < 2 ^ 32 := by
  have length : ht.contents.length = ht.elements.length := List.length_map _
  rw [length]
  exact ⟨proper.counted, proper.few⟩

/-- An array without elements. -/
def emptyArray : HashTable Unit := (blankMemory ()).zendHashInit 8

/-! ## Copying an array -/

/-- `zend_hash_init` with the number of elements, and `zend_hash_copy`; the values are
shared. -/
def copyTable (memory ht : HashTable α) : Option (HashTable α) :=
  (memory.zendHashInit ht.nNumOfElements).zendHashCopy ht id

/-- `_zval_copy_ctor_func` for an array. -/
def zvalCopyCtor (memory ht : HashTable α) : Option (HashTable α) :=
  (copyTable memory ht).map fun tmp => { tmp with nNextFreeElement := ht.nNextFreeElement }

theorem copyTable_spec (proper : Proper ht) (memory : HashTable α) :
    ∃ tmp, copyTable memory ht = some tmp ∧ Proper tmp ∧ tmp.contents = ht.contents := by
  rcases zendHashCopy_agrees proper memory ht.nNumOfElements id with ⟨tmp, copied, same, _⟩
  rcases copy_outcome True (zendHashInit_consistent memory ht.nNumOfElements)
    proper.toConsistent id with ⟨tmp', order, copied', consistent, _⟩
  rw [copied] at copied'
  cases copied'
  have contents : tmp.contents = ht.contents := by
    rw [same, copiedContents]
    exact List.map_id _
  have pairs : order.map tmp.pair = ht.contents := by rw [← contents, consistent.contents_eq]
  refine ⟨tmp, copied, consistent.proper ?_ ?_, contents⟩
  · apply distinct_of_nodup
    rw [pairs]
    exact proper.distinct.nodup_keys proper.nodup
  · have length := congrArg List.length pairs
    rw [List.length_map, HashTable.contents, List.length_map] at length
    exact length ▸ proper.few

theorem zvalCopyCtor_spec (proper : Proper ht) (memory : HashTable α) :
    ∃ tmp, zvalCopyCtor memory ht = some tmp ∧ Proper tmp ∧ tmp.contents = ht.contents := by
  rcases copyTable_spec proper memory with ⟨tmp, copied, tmpProper, same⟩
  refine ⟨{ tmp with nNextFreeElement := ht.nNextFreeElement }, ?_, ?_, same⟩
  · rw [zvalCopyCtor, copied]
    rfl
  · exact { tmpProper with }

/-! ## Deleting an element -/

/-- `zend_hash_index_del` or `zend_hash_quick_del` with the key of the bucket `p` of a table
`source`. -/
def deleteLike (ht source : HashTable α) (p : Nat) : Option (HashTable α) :=
  (ht.zendHashDelKeyOrIndex (source.callerKey p) (source.h p)).map Prod.fst

/-- The comparison of the deletion is the one of the keys. -/
theorem deletes_iff (keyed : ht.Keyed q) (sourceKeyed : source.Keyed p) :
    (ht.h q == source.h p && ht.nKeyLength q == (source.callerKey p).nKeyLength &&
        (ht.nKeyLength q == 0 || (source.callerKey p).sameBytes (ht.arKey q))) = true ↔
      ht.key q = source.key p := by
  simp only [HashTable.key, Bool.and_eq_true, Bool.or_eq_true, beq_iff_eq,
    CallerKey.sameBytes, CallerKey.nKeyLength, callerKey]
  by_cases pInteger : source.nKeyLength p = 0
  · by_cases qInteger : ht.nKeyLength q = 0 <;> simp [pInteger, qInteger]
  · rcases sourceKeyed pInteger with ⟨pLength, pHash⟩
    by_cases qInteger : ht.nKeyLength q = 0
    · simp [pInteger, qInteger, pLength, Ne.symm pInteger]
    · rcases keyed qInteger with ⟨qLength, qHash⟩
      rw [if_neg pInteger, if_neg qInteger, Key.string.injEq, ← pLength, List.take_length]
      simp only [qInteger, false_or]
      constructor
      · rintro ⟨⟨_, sameLength⟩, sameBytes⟩
        rwa [← sameLength, ← qLength, List.take_length] at sameBytes
      · intro same
        rw [qHash, pHash, ← qLength, same]
        exact ⟨⟨rfl, rfl⟩, List.take_length⟩

/-- A deletion removes the bucket with the key, if there is one. -/
theorem deleteLike_cases (consistent : Consistent ht order)
    (sourceKeyed : source.Keyed p) :
    (∃ q ∈ order, ht.key q = source.key p ∧
        deleteLike ht source p = some (ht.zendHashBucketDelete q)) ∨
      ((∀ q ∈ order, ht.key q ≠ source.key p) ∧ deleteLike ht source p = some ht) := by
  rw [deleteLike, zendHashDelKeyOrIndex]
  rcases consistent.search_cases (fun q => ht.h q == source.h p &&
      ht.nKeyLength q == (source.callerKey p).nKeyLength &&
      (ht.nKeyLength q == 0 || (source.callerKey p).sameBytes (ht.arKey q))) (source.h p) with
    ⟨q, found, member, _, accepted⟩ | ⟨found, rejected⟩
  · left
    refine ⟨q, member, (deletes_iff (consistent.keyed q member) sourceKeyed).mp accepted, ?_⟩
    simp only [found, Option.bind_eq_bind, Option.bind_some, Option.map_some]
  · right
    constructor
    · intro q member isKey
      have accepted := (deletes_iff (consistent.keyed q member) sourceKeyed).mpr isKey
      have inSlot : ht.slot q = ht.index (source.h p) := by
        simp only [Bool.and_eq_true, beq_iff_eq] at accepted
        rw [slot, accepted.1.1]
      rw [rejected q member inSlot] at accepted
      cases accepted
    · simp only [found, Option.bind_eq_bind, Option.bind_some, Option.map_some]

/-- The pairs that a deletion leaves. -/
theorem deleteLike_spec (proper : Proper ht) (sourceKeyed : source.Keyed p) :
    ∃ ht', deleteLike ht source p = some ht' ∧ Proper ht' ∧
      ht'.contents = ht.contents.filter fun pair => decide (pair.1 ≠ source.key p) := by
  rcases deleteLike_cases proper.toConsistent sourceKeyed with
    ⟨q, member, isKey, deleted⟩ | ⟨absent, unchanged⟩
  · have consistent := proper.toConsistent.delete member
    refine ⟨_, deleted, consistent.proper ?_ ?_, ?_⟩
    · intro r rMember t tMember equal
      exact proper.distinct r (List.mem_of_mem_erase rMember) t (List.mem_of_mem_erase tMember)
        equal
    · exact Nat.lt_of_le_of_lt List.length_erase_le proper.few
    · rw [consistent.contents_eq, bucketDelete_pair, HashTable.contents, List.filter_map,
        proper.nodup.erase_eq_filter]
      congr 1
      apply List.filter_congr
      intro r rMember
      have sameKey : ht.key r = source.key p ↔ r = q :=
        ⟨fun equal => proper.distinct r rMember q member (equal.trans isKey.symm),
          fun equal => equal ▸ isKey⟩
      simp only [Function.comp_apply, HashTable.pair, ne_eq, sameKey]
      rw [Bool.eq_iff_iff, bne_iff_ne, decide_eq_true_iff]
  · refine ⟨ht, unchanged, proper, ?_⟩
    symm
    apply List.filter_eq_self.mpr
    intro pair member
    rcases List.mem_map.mp member with ⟨q, inside, rfl⟩
    exact decide_eq_true (absent q inside)

/-- The deletions of a loop, one after the other. -/
theorem foldlM_deleteLike (proper : Proper ht) {nodes : List Nat}
    (sourceKeyed : ∀ p ∈ nodes, source.Keyed p) :
    ∃ ht', nodes.foldlM (fun ht p => deleteLike ht source p) ht = some ht' ∧ Proper ht' ∧
      ht'.contents = ht.contents.filter fun pair => decide (pair.1 ∉ nodes.map source.key) := by
  induction nodes generalizing ht with
  | nil => exact ⟨ht, rfl, proper, by simp⟩
  | cons p nodes induction =>
      rcases deleteLike_spec proper (sourceKeyed p List.mem_cons_self) with
        ⟨next, deleted, nextProper, contents⟩
      rcases induction nextProper fun q member => sourceKeyed q (List.mem_cons_of_mem p member)
        with ⟨final, loop, finalProper, rest⟩
      refine ⟨final, ?_, finalProper, ?_⟩
      · rw [List.foldlM_cons, deleted, Option.bind_eq_bind, Option.bind_some]
        exact loop
      · rw [rest, contents, List.filter_filter]
        apply List.filter_congr
        intro pair _
        simp only [List.map_cons, List.mem_cons, not_or, Bool.decide_and, Bool.and_comm, ne_eq]

/-! ## Splicing -/

/-- `php_splice`; the offset and the length are passed as `zend_uint`. -/
def phpSplice (ht : HashTable α) (offset length : Int) (list : Option (List α))
    (removed : Option (HashTable α)) : Option (HashTable α × Option (HashTable α)) := do
  let (ht, removed) ←
    ht.zendHashSplice id (offset % 2 ^ 32).toNat (length % 2 ^ 32).toNat list removed
  some (ht.zendHashInternalPointerReset, removed)

/-- The table after a splice of a range that was not cut, and the elements it collected. -/
theorem phpSplice_spec (proper : Proper ht) {start count : Nat} {offset length : Int}
    (isStart : offset % 2 ^ 32 = start) (isCount : length % 2 ^ 32 = count)
    (noWrap : start + count < 2 ^ 32) {list : Option (List α)}
    (counts : ht.SpliceCounts start count list)
    {removed : Option (HashTable α)} (receives : Receives removed) :
    ∃ ht' removed', phpSplice ht offset length list removed = some (ht', removed') ∧
      (slice ht.elements start count).foldlM (fun removed p =>
        collectRemoved removed ht p id) removed = some removed' ∧
      ht'.nNumOfElements = ht.splicedLength start count list % 2 ^ 32 ∧
      (ht.splicedLength start count list < 2 ^ 32 →
        ht'.contents = splicedPairs ht.contents start count (list.getD [])) := by
  rcases splice_table proper id noWrap counts receives with
    ⟨ht', removed', spliced, collected, counted, pairs⟩
  refine ⟨ht'.zendHashInternalPointerReset, removed', ?_, collected, counted, fun few => ?_⟩
  · rw [phpSplice, isStart, isCount, Int.toNat_natCast, Int.toNat_natCast, spliced]
    rfl
  · have contents := (pairs few).1
    rw [List.map_id] at contents
    exact contents

end PhpRuntime.Arrays
