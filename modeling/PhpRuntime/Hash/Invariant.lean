import PhpRuntime.Hash.Rearrange

/-! What holds of a table between two operations, and how the building blocks of the
operations (unlinking, linking, rebuilding the chains) keep it. -/

namespace PhpRuntime.Hash

open Function (update)
open PhpRuntime.Linked
open PhpRuntime.Chains

/-- A key as a user of the table sees it. -/
inductive Key where
  | index (h : BitVec 64)
  | string (bytes : List UInt8)
  deriving DecidableEq

namespace HashTable

def key (ht : HashTable α) (p : Nat) : Key :=
  if ht.nKeyLength p = 0 then .index (ht.h p) else .string (ht.arKey p).bytes

/-- The stored length, hash and bytes of a string key belong together. -/
def Keyed (ht : HashTable α) (p : Nat) : Prop :=
  ht.nKeyLength p ≠ 0 →
    (ht.arKey p).bytes.length = ht.nKeyLength p ∧
      ht.h p = zendInlineHashFunc (ht.arKey p).bytes

/-- The global list, the cursor and the counters; `order` are the buckets from
`pListHead` to `pListTail`. -/
structure Listed (ht : HashTable α) (order : List Nat) : Prop where
  nodup : order.Nodup
  allocated : ∀ p ∈ order, p < ht.brk
  linked : Segment ht.pListNext ht.pListLast none order none
  head : ht.pListHead = order.head?
  tail : ht.pListTail = order.getLast?
  cursor : ∀ p, ht.pInternalPointer = some p → p ∈ order
  keyed : ∀ p ∈ order, ht.Keyed p
  size : ∃ log, 3 ≤ log ∧ log ≤ 31 ∧ ht.nTableSize = 2 ^ log
  mask : ht.nTableMask = 0 ∧ order = [] ∨ ht.nTableMask = ht.nTableSize - 1
  count : ht.nNumOfElements = order.length % 2 ^ 32

/-- A table whose collision chains hold exactly the listed buckets. -/
structure Consistent (ht : HashTable α) (order : List Nat) : Prop
    extends Listed ht order where
  chained : Chained ht.pNext ht.pLast ht.arBuckets ht.slot (· ∈ order)

variable {ht : HashTable α} {order front back : List Nat} {p : Nat}

theorem Listed.length_le (listed : Listed ht order) : order.length ≤ ht.brk :=
  length_le_of_lt listed.nodup listed.allocated

theorem Listed.follow_eq (listed : Listed ht order) :
    follow ht.pListNext ht.brk ht.pListHead = some order := by
  rw [listed.head]
  exact Linked.follow_eq listed.linked listed.length_le

theorem Listed.mask_eq (listed : Listed ht order) (member : p ∈ order) :
    ht.nTableMask = ht.nTableSize - 1 := by
  rcases listed.mask with ⟨_, empty⟩ | full
  · simp [empty] at member
  · exact full

theorem Listed.brk_notMem (listed : Listed ht order) : ht.brk ∉ order := fun member =>
  Nat.lt_irrefl _ (listed.allocated _ member)

/-- The chain of a hash value, and that the loops over it end. -/
theorem Consistent.search_eq (consistent : Consistent ht order) (accept : Nat → Bool)
    (h : BitVec 64) :
    ∃ chain : List Nat, follow ht.pNext ht.brk (ht.arBuckets (ht.index h)) = some chain ∧
      ht.searchChain accept h = some (chain.find? accept) ∧
      ∀ p, p ∈ chain ↔ p ∈ order ∧ ht.slot p = ht.index h := by
  rcases consistent.chained (ht.index h) with ⟨chain, isChain⟩
  have below : ∀ p ∈ chain, p < ht.brk := fun p member =>
    consistent.allocated p ((isChain.mem_iff p).mp member).1
  have enough := length_le_of_lt isChain.nodup below
  refine ⟨chain, ?_, ?_, isChain.mem_iff⟩
  · rw [isChain.head_eq]
    exact follow_eq isChain.linked enough
  · rw [searchChain, isChain.head_eq]
    exact search_eq_find? isChain.linked accept enough

/-- A search either stops at an accepted bucket of the list, or no bucket in the chain
of its hash value is accepted. -/
theorem Consistent.search_cases (consistent : Consistent ht order) (accept : Nat → Bool)
    (h : BitVec 64) :
    (∃ p, ht.searchChain accept h = some (some p) ∧ p ∈ order ∧
        ht.slot p = ht.index h ∧ accept p = true) ∨
      (ht.searchChain accept h = some none ∧
        ∀ p ∈ order, ht.slot p = ht.index h → accept p = false) := by
  rcases consistent.search_eq accept h with ⟨chain, _, isFound, members⟩
  rw [isFound]
  cases found : chain.find? accept with
  | some p =>
      have inChain := List.mem_of_find?_eq_some found
      rcases (members p).mp inChain with ⟨member, inSlot⟩
      exact Or.inl ⟨p, rfl, member, inSlot, List.find?_some found⟩
  | none =>
      refine Or.inr ⟨rfl, ?_⟩
      intro p member inSlot
      have rejected := List.find?_eq_none.mp found p ((members p).mpr ⟨member, inSlot⟩)
      simpa using rejected

/-! ### Initialising -/

theorem initLog_bounds (nSize fuel i : Nat) (lower : 3 ≤ i) :
    3 ≤ initLog nSize fuel i ∧ initLog nSize fuel i ≤ i + fuel := by
  induction fuel generalizing i with
  | zero => exact ⟨lower, Nat.le_refl _⟩
  | succ fuel induction =>
      rw [initLog]
      split
      · have inner := induction (i + 1) (by omega)
        omega
      · omega

theorem zendHashInit_consistent (ht : HashTable α) (nSize : Nat) :
    Consistent (ht.zendHashInit nSize) [] where
  nodup := List.nodup_nil
  allocated := by simp
  linked := trivial
  head := rfl
  tail := rfl
  cursor := by simp [zendHashInit]
  keyed := by simp
  size := by
    have bounds := initLog_bounds nSize 28 3 (Nat.le_refl _)
    by_cases large : 0x80000000 ≤ nSize
    · exact ⟨31, by omega, by omega, if_pos large⟩
    · exact ⟨_, bounds.1, bounds.2, (if_neg large).trans (Nat.one_shiftLeft _)⟩
  mask := Or.inl ⟨rfl, rfl⟩
  count := rfl
  chained := chained_empty (fun _ => rfl) (by simp)

theorem checkInit_consistent (consistent : Consistent ht order) :
    Consistent ht.checkInit order := by
  unfold checkInit
  split
  · rename_i uninitialised
    have empty : order = [] := by
      rcases consistent.mask with ⟨_, empty⟩ | full
      · exact empty
      · rcases consistent.size with ⟨log, lower, _, size⟩
        have large : 2 ^ 3 ≤ 2 ^ log := Nat.pow_le_pow_right (by omega) lower
        omega
    subst empty
    exact { consistent with
      mask := Or.inr rfl
      chained := chained_empty (fun _ => rfl) (by simp) }
  · exact consistent

/-! ### Deleting a bucket -/

theorem unchain_chained (consistent : Consistent ht (front ++ p :: back)) :
    Chained (ht.unchain p).pNext (ht.unchain p).pLast (ht.unchain p).arBuckets ht.slot
      (· ∈ front ++ back) := by
  have inside : p ∈ front ++ p :: back := by simp
  have absent : p ∉ front ++ back :=
    (List.nodup_cons.mp (List.nodup_middle.mp consistent.nodup)).1
  have removed := consistent.chained.remove inside
  apply removed.congr (fun _ _ => rfl) (fun _ _ => rfl) (fun _ _ => rfl)
  intro other
  constructor
  · intro member
    have different : other ≠ p := fun equal => absent (equal ▸ member)
    exact ⟨(List.perm_middle.mem_iff).mpr (List.mem_cons_of_mem _ member), different⟩
  · rintro ⟨member, different⟩
    rcases List.mem_cons.mp ((List.perm_middle.mem_iff).mp member) with equal | kept
    · exact absurd equal different
    · exact kept

theorem unlist_listed (listed : Listed ht (front ++ p :: back)) :
    Listed (ht.unlist p).countDown (front ++ back) where
  nodup := listed.nodup.sublist (List.Sublist.append_left (List.sublist_cons_self _ _) _)
  allocated other member :=
    listed.allocated other ((List.perm_middle.mem_iff).mpr (List.mem_cons_of_mem _ member))
  linked := listed.linked.unlink listed.nodup
  head := by
    have isHead := listed.head
    simp only [countDown, unlist, listed.linked.prev_eq, listed.linked.next_eq]
    cases front with
    | nil => simp
    | cons first rest => simpa [List.getLast?_cons] using isHead
  tail := by
    have isTail := listed.tail
    simp only [countDown, unlist, listed.linked.prev_eq, listed.linked.next_eq]
    cases back with
    | nil => simp
    | cons first rest => simpa [List.getLast?_append, List.getLast?_cons] using isTail
  cursor other equal := by
    simp only [countDown, unlist, listed.linked.next_eq] at equal
    split at equal
    · exact List.mem_append_right _ (List.mem_of_head? equal)
    · rename_i elsewhere
      have member := listed.cursor other equal
      rcases List.mem_cons.mp ((List.perm_middle.mem_iff).mp member) with isDeleted | kept
      · exact absurd (isDeleted ▸ equal) elsewhere
      · exact kept
  keyed other member :=
    listed.keyed other ((List.perm_middle.mem_iff).mpr (List.mem_cons_of_mem _ member))
  size := listed.size
  mask := Or.inr (listed.mask_eq (List.mem_append_right _ List.mem_cons_self))
  count := by
    have counted := listed.count
    rw [List.length_append, List.length_cons, ← Nat.add_assoc] at counted
    rw [countDown, List.length_append, ← uintPred_mod, ← counted]
    rfl

theorem zendHashBucketDelete_consistent (consistent : Consistent ht (front ++ p :: back)) :
    Consistent (ht.zendHashBucketDelete p) (front ++ back) where
  toListed := by
    have unchained : Listed (ht.unchain p) (front ++ p :: back) :=
      { consistent.toListed with }
    exact unlist_listed unchained
  chained := unchain_chained consistent

/-! ### Linking a bucket -/

theorem connectToGlobalDllistEx_head (ht : HashTable α) (p : Nat) {last : Option Nat}
    (next : Option Nat) (front back : List Nat) (isLast : last = front.getLast?)
    (isHead : front ≠ [] → ht.pListHead = front.head?) :
    (ht.connectToGlobalDllistEx p last next).pListHead = (front ++ p :: back).head? := by
  cases front with
  | nil => simp [connectToGlobalDllistEx, isLast]
  | cons first rest =>
      simpa [connectToGlobalDllistEx, isLast, List.getLast?_cons] using
        isHead (List.cons_ne_nil _ _)

theorem connectToGlobalDllistEx_tail (ht : HashTable α) (p : Nat) (last : Option Nat)
    {next : Option Nat} (front back : List Nat) (isNext : next = back.head?)
    (isTail : back ≠ [] → ht.pListTail = back.getLast?) :
    (ht.connectToGlobalDllistEx p last next).pListTail = (front ++ p :: back).getLast? := by
  cases back with
  | nil => simp [connectToGlobalDllistEx, isNext]
  | cons first rest =>
      have inner := isTail (List.cons_ne_nil _ _)
      simpa [connectToGlobalDllistEx, isNext, List.getLast?_append, List.getLast?_cons]
        using inner

/-! ### Rebuilding the chains -/

/-- Chaining the buckets of a list one after the other. -/
theorem foldl_rehashStep (nodes : List Nat) (member : Nat → Prop) (ht : HashTable α)
    (chained : Chained ht.pNext ht.pLast ht.arBuckets ht.slot member)
    (nodup : nodes.Nodup) (absent : ∀ p ∈ nodes, ¬ member p) :
    ∃ pNext pLast arBuckets,
      nodes.foldl rehashStep ht = { ht with pNext, pLast, arBuckets } ∧
        Chained pNext pLast arBuckets ht.slot (fun p => member p ∨ p ∈ nodes) := by
  induction nodes generalizing member ht with
  | nil => exact ⟨_, _, _, rfl, by simpa using chained⟩
  | cons p nodes induction =>
      rcases List.nodup_cons.mp nodup with ⟨notLater, nodup⟩
      have pushed := chained.push (absent p List.mem_cons_self) (rfl : ht.slot p = ht.slot p)
        (fun _ _ => rfl)
      have stillAbsent : ∀ q ∈ nodes, ¬ (member q ∨ q = p) := by
        rintro q later (isMember | rfl)
        · exact absent q (List.mem_cons_of_mem _ later) isMember
        · exact notLater later
      rcases induction _ (ht.rehashStep p) pushed nodup stillAbsent with
        ⟨pNext, pLast, arBuckets, equal, result⟩
      refine ⟨pNext, pLast, arBuckets, equal, ?_⟩
      apply result.congr (fun _ _ => rfl) (fun _ _ => rfl) (fun _ _ => rfl)
      intro q
      simp [or_assoc]

/-- What rehashing a table with a valid list gives, provided the counter shows that
there is something to do. -/
theorem Listed.rehash (listed : Listed ht order) (counted : ht.nNumOfElements ≠ 0) :
    ∃ pNext pLast arBuckets,
      ht.zendHashRehash = some { ht with pNext, pLast, arBuckets } ∧
        Consistent { ht with pNext, pLast, arBuckets } order := by
  have start : Chained ht.pNext ht.pLast (fun _ => none) ht.slot (fun _ => False) :=
    chained_empty (fun _ => rfl) (fun _ => id)
  rcases foldl_rehashStep order (fun _ => False) { ht with arBuckets := fun _ => none }
    start listed.nodup (fun _ _ => id) with ⟨pNext, pLast, arBuckets, equal, chained⟩
  refine ⟨pNext, pLast, arBuckets, ?_, { listed with chained := ?_ }⟩
  · have looped := forEach_eq_foldl pListNext rehashStep
      { ht with arBuckets := fun _ => none } (fun _ _ => rfl) listed.linked listed.length_le
    rw [zendHashRehash, if_neg counted, ← equal, ← looped, ← listed.head]
  · apply chained.congr (fun _ _ => rfl) (fun _ _ => rfl) (fun _ _ => rfl)
    simp

theorem zendHashRehash_consistent (consistent : Consistent ht order) :
    ∃ pNext pLast arBuckets,
      ht.zendHashRehash = some { ht with pNext, pLast, arBuckets } ∧
        Consistent { ht with pNext, pLast, arBuckets } order := by
  by_cases counted : ht.nNumOfElements = 0
  · exact ⟨_, _, _, if_pos counted, consistent⟩
  · exact consistent.rehash counted

/-- Resizing changes the size, the mask and the chains only. -/
theorem Listed.resize (listed : Listed ht order) (full : ht.nTableSize < ht.nNumOfElements) :
    ∃ nTableSize nTableMask pNext pLast arBuckets,
      ht.zendHashDoResize =
          some { ht with nTableSize, nTableMask, pNext, pLast, arBuckets } ∧
        Listed { ht with nTableSize, nTableMask, pNext, pLast, arBuckets } order ∧
        (Consistent ht order →
          Consistent { ht with nTableSize, nTableMask, pNext, pLast, arBuckets } order) := by
  rcases listed.size with ⟨log, lower, upper, size⟩
  have shifted : uint (ht.nTableSize <<< 1) = 2 ^ (log + 1) % 2 ^ 32 := by
    rw [uint, size, Nat.shiftLeft_eq, Nat.pow_succ 2 log]
  unfold zendHashDoResize
  rw [shifted]
  by_cases largest : log = 31
  · subst largest
    exact ⟨_, _, _, _, _, rfl, listed, id⟩
  · have small : 2 ^ (log + 1) < 2 ^ 32 := Nat.pow_lt_pow_right (by omega) (by omega)
    have positive : 0 < 2 ^ (log + 1) := Nat.two_pow_pos _
    rw [Nat.mod_eq_of_lt small, if_pos positive]
    have resized : Listed { ht with
        nTableSize := 2 ^ (log + 1), nTableMask := 2 ^ (log + 1) - 1 } order :=
      { listed with
        size := ⟨log + 1, by omega, by omega, rfl⟩
        mask := Or.inr rfl }
    have counted : ht.nNumOfElements ≠ 0 := by omega
    rcases resized.rehash counted with ⟨pNext, pLast, arBuckets, equal, result⟩
    exact ⟨_, _, _, _, _, equal, result.toListed, fun _ => result⟩

theorem ifFullDoResize_consistent (consistent : Consistent ht order) :
    ∃ nTableSize nTableMask pNext pLast arBuckets,
      ht.ifFullDoResize =
          some { ht with nTableSize, nTableMask, pNext, pLast, arBuckets } ∧
        Consistent { ht with nTableSize, nTableMask, pNext, pLast, arBuckets } order := by
  unfold ifFullDoResize
  split
  · rename_i full
    rcases consistent.resize full with ⟨_, _, _, _, _, equal, _, result⟩
    exact ⟨_, _, _, _, _, equal, result consistent⟩
  · exact ⟨_, _, _, _, _, rfl, consistent⟩

end HashTable

end PhpRuntime.Hash
