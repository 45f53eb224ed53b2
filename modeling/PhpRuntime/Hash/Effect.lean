import PhpRuntime.Hash.Invariant

/-! What an operation does to the keys of a table.

Every operation is a sequence of a few kinds of effect on the list of buckets and their
keys. The invariants of the table are kept by each effect, so an operation's proof only
names its effects. -/

namespace PhpRuntime.Hash

open Function (update)
open PhpRuntime.Linked
open PhpRuntime.Chains

namespace HashTable

/-- The key fields of the bucket `p` are the same in both tables. -/
structure SameKey (ht ht' : HashTable α) (p : Nat) : Prop where
  h : ht'.h p = ht.h p
  nKeyLength : ht'.nKeyLength p = ht.nKeyLength p
  arKey : ht'.arKey p = ht.arKey p

theorem SameKey.refl (ht : HashTable α) (p : Nat) : SameKey ht ht p := ⟨rfl, rfl, rfl⟩

theorem SameKey.key {ht ht' : HashTable α} {p : Nat} (same : SameKey ht ht' p) :
    ht'.key p = ht.key p := by
  simp only [HashTable.key, same.h, same.nKeyLength, same.arKey]

def integerKeyed (ht : HashTable α) (order : List Nat) : List Nat :=
  order.filter fun p => ht.nKeyLength p == 0

/-- One change of the list `order` of `ht` to the list `order'` of `ht'`. A renamed bucket
has a key of its own under the condition `unique`. -/
inductive Effect (unique : Prop) (ht : HashTable α) (order : List Nat)
    (ht' : HashTable α) (order' : List Nat) : Prop where
  | keep (kept : ∀ p ∈ order', p ∈ order) (same : ∀ p ∈ order', SameKey ht ht' p)
      (next : ht'.nNextFreeElement = ht.nNextFreeElement)
  | clear (empty : order' = []) (next : ht'.nNextFreeElement = 0)
  | append (p : Nat) (appended : order' = order ++ [p])
      (same : ∀ q ∈ order, SameKey ht ht' q) (fresh : ∀ q ∈ order, ht.key q ≠ ht'.key p)
      (next : ht'.nNextFreeElement =
        if ht'.nKeyLength p = 0 then nextFreeAfter ht.nNextFreeElement (ht'.h p)
        else ht.nNextFreeElement)
  | renumber (few : order'.length < 2 ^ 32)
      (strings : ∀ p ∈ order', ht'.nKeyLength p ≠ 0 → p ∈ order ∧ SameKey ht ht' p)
      (numbered : (ht'.integerKeyed order').map ht'.h =
        (List.range (ht'.integerKeyed order').length).map (BitVec.ofNat 64))
      (next : ht'.nNextFreeElement = BitVec.ofNat 64 (ht'.integerKeyed order').length)
  | rekey (p p' : Nat) (front back : List Nat) (before : order = front ++ p :: back)
      (after : order' = front ++ p' :: back)
      (same : ∀ q ∈ front ++ back, SameKey ht ht' q)
      (fresh : unique → ∀ q ∈ front ++ back, ht.key q ≠ ht'.key p')
      (next : ht'.nNextFreeElement =
        if ht'.nKeyLength p' = 0 then nextFreeAfter ht.nNextFreeElement (ht'.h p')
        else ht.nNextFreeElement)

def Effects (unique : Prop) (ht : HashTable α) (order : List Nat) (ht' : HashTable α)
    (order' : List Nat) : Prop :=
  Relation.ReflTransGen (fun before after => Effect unique before.1 before.2 after.1 after.2)
    (ht, order) (ht', order')

theorem Effect.toEffects {unique : Prop} {ht ht' : HashTable α} {order order' : List Nat}
    (effect : Effect unique ht order ht' order') : Effects unique ht order ht' order' :=
  Relation.ReflTransGen.single effect

variable {ht : HashTable α} {order front back : List Nat} {p : Nat} {unique : Prop}

/-- The rule by which an invariant of the keys is proved. -/
theorem Effects.preserve {ht' : HashTable α} {order' : List Nat}
    (invariant : HashTable α → List Nat → Prop)
    (step : ∀ ht order ht' order', Effect unique ht order ht' order' →
      invariant ht order → invariant ht' order')
    (effects : Effects unique ht order ht' order') (start : invariant ht order) :
    invariant ht' order' := by
  unfold Effects at effects
  generalize isEnd : (ht', order') = final at effects
  induction effects generalizing ht' order' with
  | refl =>
      cases isEnd
      exact start
  | tail _ effect induction =>
      cases isEnd
      exact step _ _ _ _ effect (induction rfl)

/-- An operation that leaves the keys alone, up to the order of the list. -/
theorem effects_of_same (unique : Prop) (ht ht' : HashTable α) {order order' : List Nat}
    (kept : ∀ p ∈ order', p ∈ order) (h : ht'.h = ht.h)
    (nKeyLength : ht'.nKeyLength = ht.nKeyLength) (arKey : ht'.arKey = ht.arKey)
    (next : ht'.nNextFreeElement = ht.nNextFreeElement) :
    Effects unique ht order ht' order' := by
  apply Effect.toEffects
  apply Effect.keep kept _ next
  intro p _
  exact ⟨congrFun h p, congrFun nKeyLength p, congrFun arKey p⟩

theorem bucketDelete_effects (unique : Prop) (ht : HashTable α) (front back : List Nat)
    (p : Nat) :
    Effects unique ht (front ++ p :: back) (ht.zendHashBucketDelete p) (front ++ back) := by
  apply effects_of_same unique ht (ht.zendHashBucketDelete p) _ rfl rfl rfl rfl
  intro other member
  exact (List.perm_middle.mem_iff).mpr (List.mem_cons_of_mem _ member)

/-! ### Insertion -/

/-- The table after a new bucket was put behind the list. -/
structure Appended (ht : HashTable α) (order : List Nat) (h : BitVec 64) (nKeyLength : Nat)
    (arKey : ArKey) (data : α) (next : BitVec 64) (ht' : HashTable α) : Prop where
  consistent : Consistent ht' (order ++ [ht.brk])
  h : ht'.h = update ht.h ht.brk h
  nKeyLength : ht'.nKeyLength = update ht.nKeyLength ht.brk nKeyLength
  arKey : ht'.arKey = update ht.arKey ht.brk arKey
  pData : ht'.pData = update ht.pData ht.brk data
  next : ht'.nNextFreeElement = next

theorem newBucket_chained (listed : Listed ht order)
    (chained : Chained ht.pNext ht.pLast ht.arBuckets ht.slot (· ∈ order))
    (h : BitVec 64) (nKeyLength : Nat) (arKey : ArKey) (data : α) :
    Chained ht.pNext ht.pLast ht.arBuckets (ht.newBucket h nKeyLength arKey data).slot
      (· ∈ order) := by
  apply chained.congr (fun _ _ => rfl) (fun _ _ => rfl) _ (fun _ => Iff.rfl)
  intro p member
  have different : p ≠ ht.brk := fun equal => listed.brk_notMem (equal ▸ member)
  simp [slot, newBucket, index, Function.update_of_ne different]

theorem newBucket_keyed (listed : Listed ht order) (h : BitVec 64) (nKeyLength : Nat)
    (arKey : ArKey) (data : α) (member : p ∈ order) :
    (ht.newBucket h nKeyLength arKey data).Keyed p := by
  have different : p ≠ ht.brk := fun equal => listed.brk_notMem (equal ▸ member)
  simpa [Keyed, newBucket, Function.update_of_ne different] using listed.keyed p member

/-- Linking a new bucket, once the bucket array has been allocated. -/
theorem linkBucket_consistent (consistent : Consistent ht order)
    (ready : ht.nTableMask = ht.nTableSize - 1) (h : BitVec 64) (nKeyLength : Nat)
    (arKey : ArKey) (data : α)
    (keyed : nKeyLength ≠ 0 →
      arKey.bytes.length = nKeyLength ∧ h = zendInlineHashFunc arKey.bytes) :
    Consistent ((ht.newBucket h nKeyLength arKey data).linkBucket ht.brk)
      (order ++ [ht.brk]) := by
  have absent := consistent.brk_notMem
  have nodup : (order ++ [ht.brk]).Nodup :=
    List.nodup_append.mpr ⟨consistent.nodup, by simp, by
      intro p member q isNew equal
      exact absent ((List.mem_singleton.mp isNew) ▸ equal ▸ member)⟩
  have pushed := (newBucket_chained consistent.toListed consistent.chained h nKeyLength arKey
    data).push absent (rfl : _ = (ht.newBucket h nKeyLength arKey data).slot ht.brk)
    (fun _ _ => rfl)
  have linked := Segment.insert ht.brk consistent.linked
    (segment_nil ht.pListNext ht.pListLast none none) nodup
  exact {
    nodup := nodup
    allocated := by
      intro p member
      rcases List.mem_append.mp member with old | isNew
      · exact Nat.lt_succ_of_lt (consistent.allocated p old)
      · rw [List.mem_singleton.mp isNew]
        exact Nat.lt_succ_self _
    linked := by
      rw [← consistent.tail] at linked
      exact linked
    head := connectToGlobalDllistEx_head _ ht.brk none order [] consistent.tail
      fun _ => consistent.head
    tail := by
      simp [linkBucket, connectToGlobalDllist, connectToGlobalDllistEx, countUp]
    cursor := by
      intro p isCursor
      change ht.pInternalPointer.or (some ht.brk) = some p at isCursor
      rcases Option.or_eq_some_iff.mp isCursor with old | ⟨_, isNew⟩
      · exact List.mem_append_left _ (consistent.cursor p old)
      · exact List.mem_append_right _ (by simpa using isNew.symm)
    keyed := by
      intro p member
      rcases List.mem_append.mp member with old | isNew
      · exact newBucket_keyed consistent.toListed h nKeyLength arKey data old
      · rw [List.mem_singleton.mp isNew]
        simpa [Keyed, linkBucket, connectToGlobalDllist, connectToGlobalDllistEx,
          connectToBucketDllist, newBucket, countUp] using keyed
    size := consistent.size
    mask := Or.inr ready
    count := by
      have counted := consistent.count
      rw [List.length_append, List.length_singleton, ← uintSucc_mod, ← counted]
      rfl
    chained := by
      apply pushed.congr (fun _ _ => rfl) (fun _ _ => rfl) (fun _ _ => rfl)
      intro p
      simp }

theorem checkInit_ready (consistent : Consistent ht order) :
    ht.checkInit.nTableMask = ht.checkInit.nTableSize - 1 := by
  unfold checkInit
  split
  · rfl
  · rename_i initialised
    rcases consistent.mask with ⟨uninitialised, _⟩ | ready
    · exact absurd uninitialised initialised
    · exact ready

theorem checkInit_of_mem (consistent : Consistent ht order) (member : p ∈ order) :
    ht.checkInit = ht := by
  unfold checkInit
  rw [if_neg]
  rw [consistent.mask_eq member]
  rcases consistent.size with ⟨log, lower, _, size⟩
  have large : 2 ^ 3 ≤ 2 ^ log := Nat.pow_le_pow_right (by omega) lower
  omega

section CheckInit

@[simp] theorem checkInit_brk (ht : HashTable α) : ht.checkInit.brk = ht.brk := by
  unfold checkInit; split <;> rfl

@[simp] theorem checkInit_h (ht : HashTable α) : ht.checkInit.h = ht.h := by
  unfold checkInit; split <;> rfl

@[simp] theorem checkInit_nKeyLength (ht : HashTable α) :
    ht.checkInit.nKeyLength = ht.nKeyLength := by
  unfold checkInit; split <;> rfl

@[simp] theorem checkInit_arKey (ht : HashTable α) : ht.checkInit.arKey = ht.arKey := by
  unfold checkInit; split <;> rfl

@[simp] theorem checkInit_pData (ht : HashTable α) : ht.checkInit.pData = ht.pData := by
  unfold checkInit; split <;> rfl

@[simp] theorem checkInit_nNextFreeElement (ht : HashTable α) :
    ht.checkInit.nNextFreeElement = ht.nNextFreeElement := by
  unfold checkInit; split <;> rfl

theorem Appended.of_checkInit {h : BitVec 64} {nKeyLength : Nat} {arKey : ArKey} {data : α}
    {next : BitVec 64} {ht' : HashTable α}
    (appended : Appended ht.checkInit order h nKeyLength arKey data next ht') :
    Appended ht order h nKeyLength arKey data next ht' where
  consistent := by simpa using appended.consistent
  h := by simpa using appended.h
  nKeyLength := by simpa using appended.nKeyLength
  arKey := by simpa using appended.arKey
  pData := by simpa using appended.pData
  next := appended.next

end CheckInit

/-- Allocating, linking and resizing: the common end of the insertions. -/
theorem insertNew (consistent : Consistent ht order)
    (ready : ht.nTableMask = ht.nTableSize - 1) (h : BitVec 64) (nKeyLength : Nat)
    (arKey : ArKey) (data : α) (next : BitVec 64)
    (keyed : nKeyLength ≠ 0 →
      arKey.bytes.length = nKeyLength ∧ h = zendInlineHashFunc arKey.bytes) :
    ∃ ht', ifFullDoResize { (ht.newBucket h nKeyLength arKey data).linkBucket ht.brk with
        nNextFreeElement := next } = some ht' ∧
      Appended ht order h nKeyLength arKey data next ht' := by
  have linked := linkBucket_consistent consistent ready h nKeyLength arKey data keyed
  have numbered : Consistent { (ht.newBucket h nKeyLength arKey data).linkBucket ht.brk with
      nNextFreeElement := next } (order ++ [ht.brk]) := { linked with }
  rcases ifFullDoResize_consistent numbered with ⟨_, _, _, _, _, equal, result⟩
  exact ⟨_, equal, result, rfl, rfl, rfl, rfl, rfl⟩

/-- A string insertion finds a bucket that matches, or appends a new one. -/
theorem quickAddOrUpdate_spec (consistent : Consistent ht order) (key : CallerKey)
    (data : α) (flag : InsertFlag) :
    (∃ p ∈ order, ht.keyMatches key (zendInlineHashFunc key.bytes) p = true ∧
      ht.searchChain (ht.keyMatches key (zendInlineHashFunc key.bytes))
        (zendInlineHashFunc key.bytes) = some (some p) ∧
      ht.zendHashQuickAddOrUpdate key (zendInlineHashFunc key.bytes) data flag =
        some (if flag = .add then (ht, none)
          else ({ ht with pData := update ht.pData p data }, some p))) ∨
    ((∀ p ∈ order, ht.slot p = ht.index (zendInlineHashFunc key.bytes) →
        ht.keyMatches key (zendInlineHashFunc key.bytes) p = false) ∧
      ∃ ht', ht.zendHashQuickAddOrUpdate key (zendInlineHashFunc key.bytes) data flag =
          some (ht', some ht.brk) ∧
        Appended ht order (zendInlineHashFunc key.bytes) key.nKeyLength key.stored data
          ht.nNextFreeElement ht') := by
  have initial := checkInit_consistent consistent
  rcases initial.search_cases
    (ht.checkInit.keyMatches key (zendInlineHashFunc key.bytes)) (zendInlineHashFunc key.bytes)
    with ⟨p, found, member, _, accepted⟩ | ⟨found, rejected⟩
  · have unchanged := checkInit_of_mem consistent member
    rw [unchanged] at found accepted
    refine Or.inl ⟨p, member, accepted, found, ?_⟩
    simp only [zendHashQuickAddOrUpdate, unchanged, found, Option.bind_eq_bind,
      Option.bind_some]
    split <;> rfl
  · refine Or.inr ⟨?_, ?_⟩
    · intro p member inSlot
      rw [checkInit_of_mem consistent member] at rejected
      exact rejected p member inSlot
    · have keyed : key.nKeyLength ≠ 0 → key.stored.bytes.length = key.nKeyLength ∧
          zendInlineHashFunc key.bytes = zendInlineHashFunc key.stored.bytes := by
        intro _
        unfold CallerKey.stored
        split <;> exact ⟨rfl, rfl⟩
      rcases insertNew initial (checkInit_ready consistent) (zendInlineHashFunc key.bytes)
        key.nKeyLength key.stored data ht.nNextFreeElement keyed with ⟨ht', equal, appended⟩
      refine ⟨ht', ?_, appended.of_checkInit⟩
      have resized : ((ht.checkInit.newBucket (zendInlineHashFunc key.bytes) key.nKeyLength
          key.stored data).linkBucket ht.checkInit.brk).ifFullDoResize = some ht' := by
        rw [← equal, ← checkInit_nNextFreeElement ht]
        rfl
      rw [checkInit_brk] at resized
      simp only [zendHashQuickAddOrUpdate, found, Option.bind_eq_bind, Option.bind_some,
        resized, checkInit_brk]

/-- An integer insertion finds the bucket with the key, or appends a new one. -/
theorem indexUpdateOrNextInsert_spec (consistent : Consistent ht order) (h : BitVec 64)
    (data : α) (flag : InsertFlag) (target : BitVec 64)
    (isTarget : target = if flag = .nextInsert then ht.nNextFreeElement else h) :
    (∃ p ∈ order, ht.key p = .index target ∧
      ht.zendHashIndexUpdateOrNextInsert h data flag =
        some (if flag = .nextInsert ∨ flag = .add then (ht, none)
          else ({ ht with pData := update ht.pData p data }, some p))) ∨
    ((∀ p ∈ order, ht.key p ≠ .index target) ∧
      ∃ ht', ht.zendHashIndexUpdateOrNextInsert h data flag = some (ht', some ht.brk) ∧
        Appended ht order target 0 .null data
          (nextFreeAfter ht.nNextFreeElement target) ht') := by
  have initial := checkInit_consistent consistent
  have sameTarget :
      (if flag = .nextInsert then ht.checkInit.nNextFreeElement else h) = target := by
    rw [checkInit_nNextFreeElement, isTarget]
  rcases initial.search_cases (ht.checkInit.indexMatches target) target
    with ⟨p, found, member, _, accepted⟩ | ⟨found, rejected⟩
  · have unchanged := checkInit_of_mem consistent member
    rw [unchanged] at found accepted sameTarget
    have isKey : ht.key p = .index target := by
      simp only [indexMatches, Bool.and_eq_true, beq_iff_eq] at accepted
      simp [key, accepted.1, accepted.2]
    refine Or.inl ⟨p, member, isKey, ?_⟩
    simp only [zendHashIndexUpdateOrNextInsert, unchanged, sameTarget, found,
      Option.bind_eq_bind, Option.bind_some]
    split <;> rfl
  · refine Or.inr ⟨?_, ?_⟩
    · intro p member isKey
      rw [checkInit_of_mem consistent member] at rejected
      have integer : ht.nKeyLength p = 0 ∧ ht.h p = target := by
        simp only [key] at isKey
        split at isKey
        · exact ⟨‹_›, by simpa using isKey⟩
        · cases isKey
      have refused := rejected p member (by rw [slot, integer.2])
      simp [indexMatches, integer.1, integer.2] at refused
    · rcases insertNew initial (checkInit_ready consistent) target 0 .null data
        (nextFreeAfter ht.nNextFreeElement target) (fun nonzero => absurd rfl nonzero) with
        ⟨ht', equal, appended⟩
      refine ⟨ht', ?_, appended.of_checkInit⟩
      have resized : (((ht.checkInit.newBucket target 0 .null data).linkBucket
          ht.checkInit.brk).raiseNextFree target).ifFullDoResize = some ht' := by
        rw [← equal, ← checkInit_nNextFreeElement ht]
        rfl
      rw [checkInit_brk] at resized
      simp only [zendHashIndexUpdateOrNextInsert, sameTarget, found, Option.bind_eq_bind,
        Option.bind_some, resized, checkInit_brk]

end HashTable

end PhpRuntime.Hash
