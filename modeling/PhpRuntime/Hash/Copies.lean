import PhpRuntime.Hash.Storing

/-! Copying tables, as an operation on their pairs. A fresh table has no stale buckets, so a
copy is exact. -/

namespace PhpRuntime.Hash

open Function (update)
open PhpRuntime.Pairs (upsert)

namespace HashTable

variable {ht ht' source : HashTable α} {order order' sourceOrder : List Nat} {p : Nat}

/-- The pair that the bucket `p` contributes. -/
def copiedPair (source : HashTable α) (copyConstructor : α → α) (p : Nat) : Key × α :=
  (source.key p, copyConstructor (source.pData p))

def copiedContents (source : HashTable α) (copyConstructor : α → α) : List (Key × α) :=
  source.contents.map fun pair => (pair.1, copyConstructor pair.2)

theorem copiedContents_eq (source : HashTable α) (copyConstructor : α → α) :
    source.copiedContents copyConstructor =
      source.elements.map (source.copiedPair copyConstructor) := by
  rw [copiedContents, contents, List.map_map]
  rfl

theorem keys_copied (source : HashTable α) (copyConstructor : α → α) (nodes : List Nat) :
    Pairs.keys (nodes.map (source.copiedPair copyConstructor)) = nodes.map source.key := by
  rw [Pairs.keys, List.map_map]
  rfl

/-! ### Copying into a new table -/

/-- The target after the elements `done` were copied: its internal pointer is on the first
element until the one is copied on which the source's is. -/
structure Copied (source : HashTable α) (copyConstructor : α → α) (done : List Nat)
    (ht : HashTable α) (order : List Nat) : Prop where
  consistent : Consistent ht order
  clean : Clean ht order
  pairs : order.map ht.pair = done.map (source.copiedPair copyConstructor)
  before : (∀ c, source.pInternalPointer = some c → c ∉ done) →
    ht.pInternalPointer = order.head?
  behind : ∀ (i c : Nat), source.pInternalPointer = some c → done[i]? = some c →
    ht.pInternalPointer = order[i]?

theorem Copied.length {copyConstructor : α → α} {done : List Nat}
    (copied : Copied source copyConstructor done ht order) : order.length = done.length := by
  simpa using congrArg List.length copied.pairs

/-- One step of the copy loop. -/
theorem Copied.step {copyConstructor : α → α} {done rest : List Nat}
    (copied : Copied source copyConstructor done ht order)
    (sourceListed : Listed source (done ++ p :: rest))
    (different : ((done ++ p :: rest).map source.key).Nodup) :
    ∃ ht' order', copyStep source copyConstructor true ht p = some ht' ∧
      Copied source copyConstructor (done ++ [p]) ht' order' := by
  have nodup := sourceListed.nodup
  have notDone : p ∉ done := fun inDone =>
    (List.nodup_cons.mp (List.nodup_middle.mp nodup)).1 (List.mem_append_left _ inDone)
  have newKey : source.key p ∉ Pairs.keys (order.map ht.pair) := by
    rw [copied.pairs, keys_copied]
    rw [List.map_append, List.map_cons] at different
    intro inDone
    exact (List.nodup_cons.mp (List.nodup_middle.mp different)).1
      (List.mem_append_left _ inDone)
  have distinct : Distinct ht order := by
    apply distinct_of_nodup
    rw [copied.pairs, keys_copied]
    exact (List.nodup_append.mp (List.map_append ▸ different)).1
  -- the table in which the element is stored: its cursor is free if this is the element
  have prepared : ∃ start : HashTable α,
      copyStep source copyConstructor true ht p =
        start.copyFrom source p .update copyConstructor ∧
      Consistent start order ∧ Distinct start order ∧ Clean start order ∧
      order.map start.pair = order.map ht.pair ∧
      (source.pInternalPointer = some p → start.pInternalPointer = none) ∧
      (source.pInternalPointer ≠ some p → start.pInternalPointer = ht.pInternalPointer) := by
    by_cases isCursor : source.pInternalPointer = some p
    · refine ⟨{ ht with pInternalPointer := none }, by simp [copyStep, isCursor],
        { copied.consistent with cursor := by simp }, distinct, copied.clean, rfl,
        fun _ => rfl, fun notCursor => absurd isCursor notCursor⟩
    · exact ⟨ht, by simp [copyStep, isCursor], copied.consistent, distinct, copied.clean, rfl,
        fun cursor => absurd cursor isCursor, fun _ => rfl⟩
  rcases prepared with
    ⟨start, isStep, consistent, startDistinct, clean, samePairs, freed, kept⟩
  rcases copyFrom_stored consistent startDistinct sourceListed
    (by simp : p ∈ done ++ p :: rest) copyConstructor with
    ⟨ht', order', equal, key, stored, isKey⟩
  have own : key = source.key p := by
    rcases isKey with ⟨_, own⟩ | ⟨s, _, hides, _⟩
    · exact own
    · exact absurd ⟨s, hides⟩ (clean.not_hides consistent)
  subst own
  have pairs : order'.map ht'.pair =
      (done ++ [p]).map (source.copiedPair copyConstructor) := by
    rw [stored.pairs, samePairs, upsert, if_neg newKey, copied.pairs, List.map_append]
    rfl
  have length := copied.length
  rcases stored.grown with ⟨same, _⟩ | ⟨grown, _, cursor, _⟩
  · have longer := congrArg List.length pairs
    rw [same] at longer
    simp at longer
    omega
  · refine ⟨ht', order', isStep.trans equal, stored.consistent, stored.clean clean, pairs,
      ?_, ?_⟩
    · intro notYet
      have notCursor : source.pInternalPointer ≠ some p := fun isCursor =>
        notYet p isCursor (by simp)
      rw [cursor, kept notCursor, copied.before fun c isCursor inDone =>
        notYet c isCursor (by simp [inDone]), grown]
      cases order <;> rfl
    · intro i c isCursor here
      by_cases own : c = p
      · subst own
        have isLast : i = done.length := by
          rcases List.getElem?_eq_some_iff.mp here with ⟨bound, isHere⟩
          by_contra other
          have inFront : i < done.length := by
            rw [List.length_append, List.length_singleton] at bound
            omega
          rw [List.getElem_append_left inFront] at isHere
          exact notDone (isHere ▸ List.getElem_mem inFront)
        rw [cursor, freed isCursor, grown, isLast, ← length]
        simp
      · have notCursor : source.pInternalPointer ≠ some p := by
          rw [isCursor]
          simpa using own
        have inFront : done[i]? = some c := by
          rcases List.getElem?_eq_some_iff.mp here with ⟨bound, isHere⟩
          rw [List.length_append, List.length_singleton] at bound
          by_cases last : i = done.length
          · subst last
            simp at isHere
            exact absurd isHere.symm own
          · rw [List.getElem?_append_left (by omega)] at here
            exact here
        have bound := (List.getElem?_eq_some_iff.mp inFront).1
        have before := copied.behind i c isCursor inFront
        rw [cursor, kept notCursor, before, grown, List.getElem?_append_left (by omega),
          List.getElem?_eq_getElem (by omega)]
        rfl

theorem Copied.loop {copyConstructor : α → α} (rest : List Nat) {done : List Nat}
    (copied : Copied source copyConstructor done ht order)
    (sourceListed : Listed source (done ++ rest))
    (different : ((done ++ rest).map source.key).Nodup) :
    ∃ final order', rest.foldlM (copyStep source copyConstructor true) ht = some final ∧
      Copied source copyConstructor (done ++ rest) final order' := by
  induction rest generalizing done ht order with
  | nil => exact ⟨ht, order, rfl, by simpa using copied⟩
  | cons p rest induction =>
      rcases copied.step sourceListed different with ⟨next, order', isStep, copied'⟩
      rw [List.append_cons] at sourceListed different ⊢
      rcases induction copied' sourceListed different with ⟨final, order'', loop, result⟩
      exact ⟨final, order'', by simp [isStep, loop], result⟩

/-- A copy has the pairs of the source, in order, and its internal pointer is on the element
on which the source's is, or on the first one. -/
def CopyAgrees (ht source : HashTable α) (copyConstructor : α → α) : Prop :=
  ∃ final, ht.zendHashCopy source copyConstructor = some final ∧
    final.contents = source.copiedContents copyConstructor ∧
    (∀ i, source.Denotes source.pInternalPointer i → final.Denotes final.pInternalPointer i) ∧
    (source.pInternalPointer = none → final.pInternalPointer = final.elements.head?)

theorem zendHashCopy_agrees (proper : Proper source) (memory : HashTable α) (nSize : Nat)
    (copyConstructor : α → α) :
    CopyAgrees (memory.zendHashInit nSize) source copyConstructor := by
  have start : Copied source copyConstructor [] (memory.zendHashInit nSize) [] :=
    ⟨zendHashInit_consistent memory nSize, by simp [Clean], rfl, fun _ => rfl, by simp⟩
  rcases start.loop source.elements proper.toListed proper.keys_nodup with
    ⟨final, order, loop, copied⟩
  rw [List.nil_append] at copied
  have isCopy : (memory.zendHashInit nSize).zendHashCopy source copyConstructor =
      some { final with pInternalPointer := final.pInternalPointer.or final.pListHead } := by
    have loop' : source.elements.foldlM (copyStep source copyConstructor
        (memory.zendHashInit nSize).pInternalPointer.isNone) (memory.zendHashInit nSize) =
          some final := loop
    simp only [zendHashCopy, proper.follow_eq, Option.bind_eq_bind, Option.bind_some, loop']
  have consistent : Consistent { final with
      pInternalPointer := final.pInternalPointer.or final.pListHead } order :=
    { copied.consistent with
      cursor := by
        intro q isCursor
        rcases Option.or_eq_some_iff.mp isCursor with old | ⟨_, isHead⟩
        · exact copied.consistent.cursor q old
        · exact List.mem_of_head? (copied.consistent.head ▸ isHead) }
  refine ⟨_, isCopy, ?_, ?_, ?_⟩
  · rw [consistent.contents_eq, copiedContents_eq]
    exact copied.pairs
  · rintro i ⟨c, isCursor, here⟩
    have place := copied.behind i c isCursor here
    have bound : i < order.length := by
      rw [copied.length]
      exact (List.getElem?_eq_some_iff.mp here).1
    rw [List.getElem?_eq_getElem bound] at place
    exact consistent.denotes (List.getElem?_eq_getElem bound) (by simp [place])
  · intro noCursor
    have place := copied.before (by simp [noCursor])
    rw [consistent.elements_eq]
    simp only [place, copied.consistent.head, Option.or_self]

end HashTable

end PhpRuntime.Hash
