import PhpRuntime.Hash.Operations

/-! `zend_hash_update_current_key_ex` gives a bucket a new key in place. The search for
another bucket with that key trusts `arKey` pointers, and an integer-keyed bucket can
still carry the pointer of a string key it had before; `StaleDuplicate` names the one
situation in which the table ends up with two buckets of one key. -/

namespace PhpRuntime.Hash

open Function (update)
open PhpRuntime.Linked
open PhpRuntime.Chains

def RenameKey.key : RenameKey → Key
  | .long numIndex => .index numIndex
  | .string strIndex => .string strIndex.bytes

/-- String keys have at least one byte. -/
def RenameKey.Nonempty : RenameKey → Prop
  | .long _ => True
  | .string strIndex => strIndex.bytes ≠ []

namespace HashTable

/-- No two listed buckets have the same key. -/
def Distinct (ht : HashTable α) (order : List Nat) : Prop :=
  ∀ p ∈ order, ∀ q ∈ order, ht.key p = ht.key q → p = q

/-- An integer-keyed bucket still carries the pointer of the interned string `bytes`, in
the chain where that string is looked up. -/
def StaleIn (ht : HashTable α) (order : List Nat) (bytes : List UInt8) : Prop :=
  ∃ s ∈ order, ht.nKeyLength s = 0 ∧ ht.arKey s = .interned bytes ∧
    ht.slot s = ht.index (zendInlineHashFunc bytes)

/-- The new key is an interned string that both a stale bucket and a real one stand for. -/
def StaleDuplicate (ht : HashTable α) (order : List Nat) (key : RenameKey) : Prop :=
  ∃ bytes, key = .string ⟨true, bytes⟩ ∧ StaleIn ht order bytes ∧
    ∃ r ∈ order, ht.key r = .string bytes

/-- A table in which the bucket `p` is listed but in no chain, and has no valid key. -/
structure Detached (ht : HashTable α) (front : List Nat) (p : Nat) (back : List Nat) :
    Prop where
  nodup : (front ++ p :: back).Nodup
  allocated : ∀ q ∈ front ++ p :: back, q < ht.brk
  linked : Segment ht.pListNext ht.pListLast none (front ++ p :: back) none
  head : ht.pListHead = (front ++ p :: back).head?
  tail : ht.pListTail = (front ++ p :: back).getLast?
  cursor : ∀ q, ht.pInternalPointer = some q → q ∈ front ++ p :: back
  keyed : ∀ q ∈ front ++ back, ht.Keyed q
  size : ∃ log, 3 ≤ log ∧ log ≤ 31 ∧ ht.nTableSize = 2 ^ log
  mask : ht.nTableMask = ht.nTableSize - 1
  count : ht.nNumOfElements = (front ++ p :: back).length % 2 ^ 32
  chained : Chained ht.pNext ht.pLast ht.arBuckets ht.slot (· ∈ front ++ back)

variable {ht : HashTable α} {order front back : List Nat} {p : Nat}

theorem Detached.notMem (detached : Detached ht front p back) : p ∉ front ++ back :=
  (List.nodup_cons.mp (List.nodup_middle.mp detached.nodup)).1

theorem mem_middle {q : Nat} : q ∈ front ++ p :: back ↔ q = p ∨ q ∈ front ++ back := by
  rw [List.perm_middle.mem_iff, List.mem_cons]

theorem unchain_detached (consistent : Consistent ht (front ++ p :: back)) :
    Detached (ht.unchain p) front p back where
  nodup := consistent.nodup
  allocated := consistent.allocated
  linked := consistent.linked
  head := consistent.head
  tail := consistent.tail
  cursor := consistent.cursor
  keyed q member := consistent.keyed q (mem_middle.mpr (Or.inr member))
  size := consistent.size
  mask := consistent.mask_eq (List.mem_append_right _ List.mem_cons_self)
  count := consistent.count
  chained := unchain_chained consistent

/-! ### A new bucket in the place of the old one -/

theorem moveBucket_detached (detached : Detached ht front p back) (strLength : Nat) :
    Detached (ht.moveBucket p strLength) front ht.brk back := by
  have absent : ht.brk ∉ front ++ p :: back := fun member =>
    Nat.lt_irrefl _ (detached.allocated _ member)
  have absent' : ht.brk ∉ front ++ back := fun member =>
    absent (mem_middle.mpr (Or.inr member))
  have nodup : (front ++ ht.brk :: back).Nodup := by
    apply List.nodup_middle.mpr
    have old := List.nodup_middle.mp detached.nodup
    exact List.nodup_cons.mpr ⟨absent', (List.nodup_cons.mp old).2⟩
  have isLast := detached.linked.prev_eq
  have isNext := detached.linked.next_eq
  have parts := segment_append.mp detached.linked
  have linked := Segment.insert ht.brk parts.1 parts.2.2.2 nodup
  exact {
    nodup := nodup
    allocated := by
      intro q member
      rcases mem_middle.mp member with rfl | old
      · exact Nat.lt_succ_self _
      · exact Nat.lt_succ_of_lt (detached.allocated q (mem_middle.mpr (Or.inr old)))
    linked := by
      rw [← isLast, ← isNext] at linked
      exact linked
    head := by
      apply connectToGlobalDllistEx_head _ ht.brk (ht.pListNext p) front back isLast
      intro nonempty
      have isHead := detached.head
      rw [List.head?_append_of_ne_nil _ nonempty] at isHead
      exact isHead
    tail := by
      apply connectToGlobalDllistEx_tail _ ht.brk (ht.pListLast p) front back isNext
      intro nonempty
      have isTail := detached.tail
      rw [List.getLast?_append_cons, List.getLast?_cons_of_ne_nil nonempty] at isTail
      exact isTail
    cursor := by
      intro q isCursor
      simp only [moveBucket, connectToGlobalDllistEx] at isCursor
      split at isCursor
      · exact mem_middle.mpr (Or.inl (by simpa using isCursor.symm))
      · rename_i elsewhere
        rcases mem_middle.mp (detached.cursor q isCursor) with rfl | old
        · exact absurd isCursor elsewhere
        · exact mem_middle.mpr (Or.inr old)
    keyed := by
      intro q member
      have different : q ≠ ht.brk := fun equal => absent' (equal ▸ member)
      simpa [Keyed, moveBucket, connectToGlobalDllistEx, Function.update_of_ne different]
        using detached.keyed q member
    size := detached.size
    mask := detached.mask
    count := by
      have counted := detached.count
      simp only [List.length_append, List.length_cons] at counted ⊢
      exact counted
    chained := detached.chained }

/-! ### Setting the key -/

theorem rekey_consistent (detached : Detached ht front p back) (key : RenameKey)
    (integer : ∀ numIndex, key = .long numIndex → ht.nKeyLength p = 0) :
    Consistent (ht.rekey p key) (front ++ p :: back) := by
  have absent := detached.notMem
  have different : ∀ q ∈ front ++ back, q ≠ p := fun q member equal =>
    absent (equal ▸ member)
  have pushed := detached.chained.push absent
    (rfl : (ht.setKey p key).slot p = (ht.setKey p key).slot p) (by
      intro q member
      cases key <;>
        simp [setKey, raiseNextFree, slot, index, Function.update_of_ne (different q member)])
  have regroup : ∀ q, q ∈ front ++ p :: back ↔ q ∈ front ++ back ∨ q = p := fun q =>
    mem_middle.trans or_comm
  cases key with
  | long numIndex =>
      exact { detached with
        keyed := by
          intro q member stringKeyed
          rcases mem_middle.mp member with rfl | old
          · exact absurd (integer numIndex rfl) stringKeyed
          · have valid := detached.keyed q old stringKeyed
            simpa [rekey, rehashStep, connectToBucketDllist, setKey, raiseNextFree,
              Function.update_of_ne (different q old)] using valid
        mask := Or.inr detached.mask
        chained := pushed.congr (fun _ _ => rfl) (fun _ _ => rfl) (fun _ _ => rfl) regroup }
  | string strIndex =>
      exact { detached with
        keyed := by
          intro q member stringKeyed
          rcases mem_middle.mp member with rfl | old
          · simp [rekey, rehashStep, connectToBucketDllist, setKey, stored_bytes,
              CallerKey.nKeyLength]
          · have valid := detached.keyed q old
            simp only [Keyed, rekey, rehashStep, connectToBucketDllist, setKey,
              Function.update_of_ne (different q old)] at valid stringKeyed ⊢
            exact valid stringKeyed
        mask := Or.inr detached.mask
        chained := pushed.congr (fun _ _ => rfl) (fun _ _ => rfl) (fun _ _ => rfl) regroup }

theorem rekey_sameKey (ht : HashTable α) (p : Nat) (key : RenameKey) {q : Nat} (different : q ≠ p) :
    SameKey ht (ht.rekey p key) q := by
  cases key <;>
    exact ⟨by simp [rekey, rehashStep, connectToBucketDllist, setKey, raiseNextFree,
        Function.update_of_ne different],
      by simp [rekey, rehashStep, connectToBucketDllist, setKey, raiseNextFree,
        Function.update_of_ne different],
      by simp [rekey, rehashStep, connectToBucketDllist, setKey, raiseNextFree,
        Function.update_of_ne different]⟩

theorem rekey_key (ht : HashTable α) (p : Nat) (key : RenameKey) (nonempty : key.Nonempty)
    (integer : ∀ numIndex, key = .long numIndex → ht.nKeyLength p = 0) :
    (ht.rekey p key).key p = key.key ∧
      (ht.rekey p key).nNextFreeElement =
        if (ht.rekey p key).nKeyLength p = 0 then
          nextFreeAfter ht.nNextFreeElement ((ht.rekey p key).h p)
        else ht.nNextFreeElement := by
  cases key with
  | long numIndex =>
      have zero := integer numIndex rfl
      simp [rekey, rehashStep, connectToBucketDllist, setKey, raiseNextFree, HashTable.key,
        RenameKey.key, zero]
  | string strIndex =>
      have long : strIndex.nKeyLength ≠ 0 := by
        simpa [CallerKey.nKeyLength, RenameKey.Nonempty] using nonempty
      simp [rekey, rehashStep, connectToBucketDllist, setKey, HashTable.key, RenameKey.key,
        long, stored_bytes]

/-- The table after the bucket `p`, or a new bucket `p'` in its place, got the key `key`. -/
structure Rekeyed (ht : HashTable α) (front : List Nat) (p : Nat) (back : List Nat) (key : Key)
    (ht' : HashTable α) (p' : Nat) : Prop where
  consistent : Consistent ht' (front ++ p' :: back)
  same : ∀ q ∈ front ++ back, SameKey ht ht' q
  isKey : ht'.key p' = key
  next : ht'.nNextFreeElement =
    if ht'.nKeyLength p' = 0 then nextFreeAfter ht.nNextFreeElement (ht'.h p')
    else ht.nNextFreeElement
  pData : ht'.pData p' = ht.pData p
  sameData : ∀ q ∈ front ++ back, ht'.pData q = ht.pData q
  cursor : ht'.pInternalPointer =
    if ht.pInternalPointer = some p then some p' else ht.pInternalPointer

@[simp] theorem rekey_pData (ht : HashTable α) (p : Nat) (key : RenameKey) :
    (ht.rekey p key).pData = ht.pData := by
  cases key <;> rfl

@[simp] theorem rekey_pInternalPointer (ht : HashTable α) (p : Nat) (key : RenameKey) :
    (ht.rekey p key).pInternalPointer = ht.pInternalPointer := by
  cases key <;> rfl

/-- The end of a rename: the bucket, or a new one in its place, has the new key. -/
theorem finishRename_rekeyed (consistent : Consistent ht (front ++ p :: back))
    (key : RenameKey) (nonempty : key.Nonempty) (pos : Option (Option Nat)) :
    ∃ p', Rekeyed ht front p back key.key (ht.finishRename p key pos).1 p' ∧
      (ht.finishRename p key pos).2 =
        (if p' = p then pos else pos.map fun _ => some p', true) := by
  have detached := unchain_detached consistent
  have notOld : ∀ q ∈ front ++ back, q ≠ p := fun q member equal =>
    detached.notMem (equal ▸ member)
  unfold finishRename
  cases moves : (ht.unchain p).needsMove p key with
  | true =>
      simp only [moves, if_true]
      have moved := moveBucket_detached detached key.strLength
      have integer : ∀ numIndex, key = .long numIndex →
          ((ht.unchain p).moveBucket p key.strLength).nKeyLength (ht.unchain p).brk = 0 := by
        rintro numIndex rfl
        simp [moveBucket, connectToGlobalDllistEx, RenameKey.strLength]
      have isKey := rekey_key ((ht.unchain p).moveBucket p key.strLength) (ht.unchain p).brk
        key nonempty integer
      have notNew : ∀ q ∈ front ++ back, q ≠ (ht.unchain p).brk := fun q member equal =>
        moved.notMem (equal ▸ member)
      have isNew : (ht.unchain p).brk ≠ p := by
        intro equal
        have below := consistent.allocated p (mem_middle.mpr (Or.inl rfl))
        exact Nat.lt_irrefl _ (Nat.lt_of_lt_of_eq below equal)
      refine ⟨(ht.unchain p).brk, ?_, by rw [if_neg isNew]⟩
      exact {
        consistent := rekey_consistent moved key integer
        same := by
          intro q member
          have same := rekey_sameKey ((ht.unchain p).moveBucket p key.strLength) _ key
            (notNew q member)
          refine ⟨same.h, same.nKeyLength.trans ?_, same.arKey⟩
          exact Function.update_of_ne (notNew q member) _ _
        isKey := isKey.1
        next := isKey.2
        pData := by
          rw [rekey_pData]
          exact Function.update_self _ _ _
        sameData := by
          intro q member
          rw [rekey_pData]
          exact Function.update_of_ne (notNew q member) _ _
        cursor := by
          rw [rekey_pInternalPointer]
          rfl }
  | false =>
      simp only [moves, Bool.false_eq_true, if_false]
      have integer : ∀ numIndex, key = .long numIndex → (ht.unchain p).nKeyLength p = 0 := by
        rintro numIndex rfl
        simp only [needsMove, RenameKey.isInterned, RenameKey.strLength, Bool.or_eq_false_iff,
          Bool.and_eq_false_iff] at moves
        rcases moves with ⟨notInterned, interned | zero⟩
        · simp_all
        · simpa using zero
      have isKey := rekey_key (ht.unchain p) p key nonempty integer
      refine ⟨p, ?_, by rw [if_pos rfl]⟩
      exact {
        consistent := rekey_consistent detached key integer
        same := by
          intro q member
          have same := rekey_sameKey (ht.unchain p) p key (notOld q member)
          exact ⟨same.h, same.nKeyLength, same.arKey⟩
        isKey := isKey.1
        next := isKey.2
        pData := by
          rw [rekey_pData]
          rfl
        sameData := by
          intro q _
          rw [rekey_pData]
          rfl
        cursor := by
          rw [rekey_pInternalPointer]
          split
          · assumption
          · rfl }

theorem finishRename_outcome (unique : Prop) (consistent : Consistent ht (front ++ p :: back))
    (key : RenameKey) (nonempty : key.Nonempty) (pos : Option (Option Nat))
    (fresh : unique → ∀ q ∈ front ++ back, ht.key q ≠ key.key) :
    Outcome unique ht (front ++ p :: back) (front ++ p :: back).length
      (some (ht.finishRename p key pos).1) := by
  rcases finishRename_rekeyed consistent key nonempty pos with ⟨p', rekeyed, _⟩
  refine ⟨_, _, rfl, rekeyed.consistent, ?_, by simp⟩
  apply Effect.toEffects
  apply Effect.rekey p p' front back rfl rfl rekeyed.same _ rekeyed.next
  intro holds q member
  rw [rekeyed.isKey]
  exact fresh holds q member

/-! ### The search for the new key -/

theorem renameMatches_of_key {key : RenameKey} (listed : Listed ht order)
    (member : p ∈ order) (isKey : ht.key p = key.key) :
    ht.slot p = ht.index key.hash ∧ ht.renameMatches key p = true := by
  cases key with
  | string strIndex => exact keyMatches_of_key listed member isKey
  | long numIndex =>
      simp only [HashTable.key, RenameKey.key] at isKey
      split at isKey
      · rename_i zero
        have equal : ht.h p = numIndex := by simpa using isKey
        exact ⟨by rw [slot, equal]; rfl, by simp [renameMatches, indexMatches, zero, equal]⟩
      · cases isKey

/-- A bucket that the search accepts has the new key, or is stale. -/
theorem key_of_renameMatches (key : RenameKey) (listed : Listed ht order)
    (nonempty : key.Nonempty) (member : p ∈ order) (accepted : ht.renameMatches key p = true) :
    ht.key p = key.key ∨
      ∃ bytes, key = .string ⟨true, bytes⟩ ∧ ht.nKeyLength p = 0 ∧
        ht.arKey p = .interned bytes := by
  cases key with
  | long numIndex =>
      simp only [renameMatches, indexMatches, Bool.and_eq_true, beq_iff_eq] at accepted
      exact Or.inl (by simp [HashTable.key, RenameKey.key, accepted.1, accepted.2])
  | string strIndex =>
      simp only [renameMatches, keyMatches, Bool.or_eq_true, Bool.and_eq_true,
        beq_iff_eq] at accepted
      rcases accepted with samePointer | ⟨⟨_, length⟩, sameBytes⟩
      · simp only [CallerKey.samePointer, Bool.and_eq_true, beq_iff_eq] at samePointer
        rcases strIndex with ⟨interned, bytes⟩
        rcases samePointer with ⟨rfl, pointer⟩
        by_cases zero : ht.nKeyLength p = 0
        · exact Or.inr ⟨bytes, rfl, zero, pointer⟩
        · exact Or.inl (by simp [HashTable.key, RenameKey.key, zero, pointer, ArKey.bytes])
      · have long : ht.nKeyLength p ≠ 0 := by
          rw [length]
          simpa [CallerKey.nKeyLength, RenameKey.Nonempty] using nonempty
        have whole := (listed.keyed p member long).1
        simp only [CallerKey.sameBytes, beq_iff_eq] at sameBytes
        rw [← length, ← whole, List.take_length] at sameBytes
        exact Or.inl (by simp [HashTable.key, RenameKey.key, long, sameBytes])

/-- Once the bucket the search found is gone, the new key is free. -/
theorem fresh_of_found {key : RenameKey} {q : Nat} (listed : Listed ht order)
    (nonempty : key.Nonempty) (found : q ∈ order) (accepted : ht.renameMatches key q = true)
    (inSlot : ht.slot q = ht.index key.hash)
    (unique : Distinct ht order ∧ ¬ StaleDuplicate ht order key) :
    ∀ r ∈ order, r ≠ q → ht.key r ≠ key.key := by
  intro r member different isKey
  rcases key_of_renameMatches key listed nonempty found accepted with same | stale
  · exact different (unique.1 r member q found (isKey.trans same.symm))
  · rcases stale with ⟨bytes, rfl, zero, pointer⟩
    exact unique.2 ⟨bytes, rfl, ⟨q, found, zero, pointer, inSlot⟩, r, member, isKey⟩

/-! ### The whole operation -/

theorem Outcome.after {unique : Prop} {middle : HashTable α} {order' : List Nat}
    {result : Option (HashTable α)} {limit : Nat}
    (effects : Effects unique ht order middle order')
    (outcome : Outcome unique middle order' limit result) :
    Outcome unique ht order limit result := by
  rcases outcome with ⟨ht', final, equal, consistent, later, bound⟩
  exact ⟨ht', final, equal, consistent, effects.trans later, bound⟩

theorem Outcome.mono {unique : Prop} {result : Option (HashTable α)} {limit limit' : Nat}
    (outcome : Outcome unique ht order limit result) (le : limit ≤ limit') :
    Outcome unique ht order limit' result := by
  rcases outcome with ⟨ht', final, equal, consistent, effects, bound⟩
  exact ⟨ht', final, equal, consistent, effects, Nat.le_trans bound le⟩

/-- The walk back from a bucket ends. -/
theorem Listed.searchBack (listed : Listed ht (front ++ p :: back)) (accept : Nat → Bool) :
    search ht.pListLast accept ht.brk (ht.pListLast p) =
      some (front.reverse.find? accept) := by
  have backwards := (segment_append.mp listed.linked).1.reverse
  rw [listed.linked.prev_eq, ← List.head?_reverse]
  apply search_eq_find? backwards
  have whole := listed.length_le
  simp only [List.length_append, List.length_cons] at whole
  simp only [List.length_reverse]
  omega

/-- Deleting the bucket with the new key and renaming `p`. -/
theorem replaceKey_outcome (unique : Prop) {q : Nat} (consistent : Consistent ht order)
    (inList : p ∈ order) (found : q ∈ order) (different : p ≠ q) (key : RenameKey)
    (nonempty : key.Nonempty) (pos : Option (Option Nat))
    (fresh : unique → ∀ r ∈ order, r ≠ q → ht.key r ≠ key.key) :
    Outcome unique ht order order.length
      (some ((ht.zendHashBucketDelete q).finishRename p key pos).1) := by
  rcases List.append_of_mem found with ⟨front, back, rfl⟩
  have deleted := zendHashBucketDelete_consistent consistent
  have effects := bucketDelete_effects unique ht front back q
  have notFound : q ∉ front ++ back :=
    (List.nodup_cons.mp (List.nodup_middle.mp consistent.nodup)).1
  have stillListed : p ∈ front ++ back := by
    rcases mem_middle.mp inList with equal | kept
    · exact absurd equal different
    · exact kept
  have split := List.append_of_mem stillListed
  rcases split with ⟨before, after, isSplit⟩
  rw [isSplit] at deleted effects
  have fresh' : unique → ∀ r ∈ before ++ after,
      (ht.zendHashBucketDelete q).key r ≠ key.key := by
    intro holds r member
    have kept : r ∈ front ++ back := isSplit ▸ mem_middle.mpr (Or.inr member)
    exact fresh holds r (mem_middle.mpr (Or.inr kept)) fun equal => notFound (equal ▸ kept)
  have renamed := finishRename_outcome unique deleted key nonempty pos fresh'
  apply (Outcome.after effects renamed).mono
  rw [← isSplit]
  simp

theorem renameOver_outcome (unique : Prop) {q : Nat} (consistent : Consistent ht order)
    (inList : p ∈ order) (found : q ∈ order) (different : p ≠ q) (key : RenameKey)
    (nonempty : key.Nonempty) (mode : UpdateKeyMode) (pos : Option (Option Nat))
    (fresh : unique → ∀ r ∈ order, r ≠ q → ht.key r ≠ key.key) :
    Outcome unique ht order order.length ((ht.renameOver p q key mode pos).map Prod.fst) := by
  have replaced := replaceKey_outcome unique consistent inList found different key nonempty
    pos fresh
  rcases List.append_of_mem inList with ⟨front, back, rfl⟩
  unfold renameOver
  split
  · exact replaced
  · simp only [consistent.searchBack, Option.bind_eq_bind, Option.bind_some]
    -- which of the two comes first only decides which of them is deleted
    generalize (if (front.reverse.find? (· == q)).isSome = true then UpdateKeyMode.ifAfter
      else UpdateKeyMode.ifBefore) = verdict
    split
    · exact bucketDelete_outcome unique consistent inList
    · exact replaced

/-- Renaming keeps the table consistent, and gives the bucket a key of its own unless a
stale bucket hides the real one. -/
theorem updateCurrentKey_outcome (consistent : Consistent ht order)
    (key : Option RenameKey) (nonempty : ∀ renamed, key = some renamed → renamed.Nonempty)
    (mode : UpdateKeyMode) (pos : Option (Option Nat))
    (valid : ∀ p, pos = some (some p) → p ∈ order) :
    Outcome (Distinct ht order ∧ ∀ renamed, key = some renamed →
        ¬ StaleDuplicate ht order renamed) ht order order.length
      ((ht.zendHashUpdateCurrentKeyEx key mode pos).map Prod.fst) := by
  have current : ∀ p, pos.getD ht.pInternalPointer = some p → p ∈ order := by
    intro p isCurrent
    cases pos with
    | none => exact consistent.cursor p isCurrent
    | some external => exact valid p (congrArg some isCurrent)
  unfold zendHashUpdateCurrentKeyEx
  split
  · rename_i p renamed isCurrent
    have inList := current p isCurrent
    have nonempty' := nonempty renamed rfl
    split
    · exact Outcome.refl _ consistent
    · rename_i notOwn
      rcases consistent.search_cases (ht.renameMatches renamed) renamed.hash with
        ⟨q, isFound, found, inSlot, accepted⟩ | ⟨isFound, rejected⟩
      · simp only [isFound, Option.bind_eq_bind, Option.bind_some]
        have different : p ≠ q := by
          rintro rfl
          exact notOwn accepted
        apply renameOver_outcome _ consistent inList found different renamed nonempty' mode pos
        intro unique
        exact fresh_of_found consistent.toListed nonempty' found accepted inSlot
          ⟨unique.1, unique.2 renamed rfl⟩
      · simp only [isFound, Option.bind_eq_bind, Option.bind_some]
        rcases List.append_of_mem inList with ⟨front, back, rfl⟩
        apply finishRename_outcome _ consistent renamed nonempty' pos
        intro _ q member isKey
        have listed : q ∈ front ++ p :: back := mem_middle.mpr (Or.inr member)
        have accepted := renameMatches_of_key consistent.toListed listed isKey
        have refused := rejected q listed accepted.1
        rw [accepted.2] at refused
        cases refused
  · exact Outcome.refl _ consistent

end HashTable

end PhpRuntime.Hash
