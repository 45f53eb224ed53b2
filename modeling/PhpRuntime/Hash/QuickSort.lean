import PhpRuntime.Hash.Splices
import PhpRuntime.Lists.Llist

/-! `zend_hash_sort` with `zend_qsort`, and what the two of them and `zend_llist_sort` do. -/

namespace PhpRuntime.Hash

open Function (update)
open PhpRuntime.Exchange
open PhpRuntime.Sort
open PhpRuntime.Lists (Llist)

namespace HashTable

/-- `zend_hash_sort` with `zend_qsort` as its `sort_func`. -/
def zendHashSortQsort (ht : HashTable α) (compar : Nat → Nat → Int) (renumber : Bool) :
    Option (HashTable α) :=
  ht.zendHashSort (fun arTmp => zendQsort (listArray Nat 8) compar arTmp arTmp.length) renumber

/-- The table after a sort: the same buckets, with their values and, unless they are numbered
anew, with their keys, in the order of the comparison. -/
structure SortAgrees (ht : HashTable α) (compar : Nat → Nat → Int) (renumber : Bool)
    (ht' : HashTable α) : Prop where
  consistent : Consistent ht' ht'.elements
  sorted : SortedFrom compar ht.elements ht'.elements
  pData : ht'.pData = ht.pData
  keys : renumber = false → ht'.key = ht.key

variable {ht ht' : HashTable α} {order : List Nat}

/-- The rest of the function, behind the call of `sort_func`. -/
theorem relinked_consistent (consistent : Consistent ht order) {sorted : List Nat}
    (permutes : sorted.Perm order) (renumber : Bool)
    (needed : ¬ (¬ 1 < ht.nNumOfElements ∧ ¬ (renumber = true ∧ 0 < ht.nNumOfElements))) :
    ∃ ht', (if renumber then (ht.relinked sorted).zendHashReindex false
        else some (ht.relinked sorted)) = some ht' ∧ Consistent ht' sorted ∧
      ht'.pData = ht.pData ∧ (renumber = false → ht'.key = ht.key) := by
  have linked := relinkList_consistent consistent permutes
  rcases relinkList_linked sorted none ht (permutes.nodup_iff.mpr consistent.nodup)
    with ⟨_, _, equal, _⟩
  have sameData : (ht.relinked sorted).pData = ht.pData := by rw [relinked, equal]
  cases renumber with
  | false =>
      refine ⟨_, rfl, linked, sameData, fun _ => ?_⟩
      rw [relinked, equal]
      rfl
  | true =>
      have isCount : (ht.relinked sorted).nNumOfElements ≠ 0 := by
        rw [linked.count, permutes.length_eq, ← consistent.count]
        omega
      rcases linked.reindex false isCount with ⟨ht', isNew, result, _, _, _⟩
      exact ⟨ht', isNew, result, (reindex_pData isNew).trans sameData, Bool.noConfusion⟩

theorem zendHashSortQsort_agrees (proper : Proper ht) {compar : Nat → Nat → Int}
    (preorder : TotalPreorder compar) (renumber : Bool) (countable : ht.elements.length < 2 ^ 31) :
    ∃ ht', ht.zendHashSortQsort compar renumber = some ht' ∧
      SortAgrees ht compar renumber ht' := by
  have isCount := proper.counted
  by_cases needless : ¬ 1 < ht.nNumOfElements ∧ ¬ (renumber = true ∧ 0 < ht.nNumOfElements)
  · refine ⟨ht, if_pos needless, proper.toConsistent, ⟨.refl _, ?_⟩, rfl, fun _ => rfl⟩
    apply List.pairwise_iff_getElem.mpr
    intro i j iBound jBound less
    omega
  · rcases zendQsort_list preorder (by decide : 0 < 8)
      (Nat.lt_trans countable (by decide)) with ⟨sorted, isSorted, sortedFrom⟩
    rcases relinked_consistent proper.toConsistent sortedFrom.1 renumber needless
      with ⟨ht', equal, consistent, sameData, sameKeys⟩
    have isOrder := consistent.elements_eq
    refine ⟨ht', ?_, ?_, ?_, sameData, sameKeys⟩
    · rw [zendHashSortQsort, zendHashSort, if_neg needless, proper.fillArTmp_eq,
        if_pos countable, Option.bind_eq_bind, Option.bind_some, isSorted]
      exact equal
    · rw [isOrder]
      exact consistent
    · rw [isOrder]
      exact sortedFrom

/-- With more elements the counter overflows. -/
theorem zendHashSortQsort_overflows (proper : Proper ht) (compar : Nat → Nat → Int)
    (renumber : Bool) (many : 2 ^ 31 ≤ ht.elements.length) :
    ht.zendHashSortQsort compar renumber = none := by
  have isCount := proper.counted
  rw [zendHashSortQsort, zendHashSort, if_neg (by omega), proper.fillArTmp_eq,
    if_neg (by omega)]
  rfl

/-- `zend_qsort` sorts an array of elements of any size, and `zend_llist_sort` a list.
`zend_hash_sort` sorts a table exactly if an `int` can count its elements. -/
theorem zendQsort_sorts_lists_and_tables (α : Type) :
    (∀ (nmemb siz : Nat) (compare : List UInt8 → List UInt8 → Int) (memory : Memory nmemb siz),
      nmemb < 2 ^ 64 → TotalPreorder compare →
      ∃ memory', zendQsort (byteArray nmemb siz) compare memory nmemb = some memory' ∧
        SortedFrom compare memory.elements memory'.elements) ∧
    (∀ (l : Llist α) (order : List Nat) (compFunc : Nat → Nat → Int),
      l.Linear order → order.length < 2 ^ 64 → TotalPreorder compFunc →
      ∃ l' sorted, l.zendLlistSort compFunc = some l' ∧ l'.Linear sorted ∧
        SortedFrom compFunc order sorted ∧ l'.data = l.data) ∧
    (∀ (ht : HashTable α) (compar : Nat → Nat → Int) (renumber : Bool),
      Proper ht → TotalPreorder compar →
      ((∃ ht', ht.zendHashSortQsort compar renumber = some ht' ∧
          SortAgrees ht compar renumber ht') ↔ ht.elements.length < 2 ^ 31)) := by
  refine ⟨fun nmemb siz compare memory isSize preorder =>
      zendQsort_bytes preorder isSize siz memory,
    fun l order compFunc linear few preorder =>
      Llist.zendLlistSort_sorts linear few preorder, ?_⟩
  intro ht compar renumber proper preorder
  constructor
  · rintro ⟨ht', equal, _⟩
    by_contra many
    rw [zendHashSortQsort_overflows proper compar renumber (Nat.le_of_not_lt many)] at equal
    cases equal
  · exact zendHashSortQsort_agrees proper preorder renumber

/-- The comparison of two elements by their first bytes. -/
def byFirstByte (x y : List UInt8) : Int := (x.headD 0).toNat - (y.headD 0).toNat

theorem byFirstByte_preorder : TotalPreorder byFirstByte where
  antisymmetric x y := by
    simp only [byFirstByte]
    omega
  transitive x y z := by
    simp only [byFirstByte]
    omega

/-- The comparison of two addresses, the larger one first. -/
def descending (p q : Nat) : Int := (q : Int) - p

theorem descending_preorder : TotalPreorder descending where
  antisymmetric p q := by
    simp only [descending]
    omega
  transitive p q r := by
    simp only [descending]
    omega

/-- Three elements of two bytes, a list of two elements and a table of four. -/
theorem zendQsort_sorts_lists_and_tables_mixed :
    let memory : Llist Unit := ⟨none, none, 9, fun _ => none, fun _ => none, fun _ => (), 4⟩
    let l := (memory.zendLlistInit.zendLlistAddElement ()).zendLlistAddElement ()
    (∃ memory' : Memory 3 2, zendQsort (byteArray 3 2) byFirstByte ⟨[7, 0, 2, 1, 5, 2], rfl⟩ 3 =
        some memory' ∧ SortedFrom byFirstByte [[7, 0], [2, 1], [5, 2]] memory'.elements) ∧
      (∃ l' sorted, l.zendLlistSort descending = some l' ∧ l'.Linear sorted ∧
        SortedFrom descending [4, 5] sorted ∧ l'.data = l.data) ∧
      ∃ ht ht' : HashTable Unit, ht.elements.length = 4 ∧
        ht.zendHashSortQsort descending false = some ht' ∧ SortAgrees ht descending false ht' := by
  intro memory l
  have linear : l.Linear [4, 5] := Llist.zendLlistAddElement_linear
    (Llist.zendLlistAddElement_linear (Llist.zendLlistInit_linear memory) ()) ()
  rcases mixedKeys_played with ⟨ht, played, isKeys⟩
  have four : ht.elements.length = 4 := by simpa [keys] using congrArg List.length isKeys
  rcases zendQsort_sorts_lists_and_tables Unit with ⟨arrays, lists, tables⟩
  rcases (tables ht descending false (proper_of_reachable (reachable_of_play rfl played))
    descending_preorder).mpr (by rw [four]; decide) with ⟨ht', sorted, agrees⟩
  exact ⟨arrays 3 2 byFirstByte ⟨[7, 0, 2, 1, 5, 2], rfl⟩ (by decide) byFirstByte_preorder,
    lists l [4, 5] descending linear (by decide) descending_preorder, ht, ht', four, sorted,
    agrees⟩

/-- A table with 2^31 elements cannot be sorted. -/
theorem zendHashSort_overflows :
    ∃ ht : HashTable Unit, Reachable Safe ht ∧ ht.elements.length = 2 ^ 31 ∧
      TotalPreorder (fun _ _ : Nat => 0) ∧
      ht.zendHashSortQsort (fun _ _ => 0) false = none := by
  rcases filled_safe (2 ^ 31) (by decide) with ⟨ht, reachable, length⟩
  refine ⟨ht, reachable, length, ⟨by simp, by simp⟩, ?_⟩
  exact zendHashSortQsort_overflows (proper_of_reachable reachable) _ false length.ge

end HashTable

end PhpRuntime.Hash
