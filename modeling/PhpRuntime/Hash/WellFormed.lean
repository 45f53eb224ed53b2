import PhpRuntime.Hash.Runs

/-! The representation invariant of a table over whole runs. -/

namespace PhpRuntime.Hash

open Function (update)
open PhpRuntime.Linked
open PhpRuntime.Chains

namespace HashTable

variable {ht ht' : HashTable α} {order order' : List Nat} {p : Nat} {unique : Prop}

/-- The table `ht` is a well-formed representation of the list of buckets `order`. -/
structure Represents (ht : HashTable α) (order : List Nat) : Prop where
  size : ∃ log, 3 ≤ log ∧ log ≤ 31 ∧ ht.nTableSize = 2 ^ log
  mask : ht.nTableMask = 0 ∧ order = [] ∨ ht.nTableMask = ht.nTableSize - 1
  nodup : order.Nodup
  linked : Segment ht.pListNext ht.pListLast none order none
  head : ht.pListHead = order.head?
  tail : ht.pListTail = order.getLast?
  count : ht.nNumOfElements = order.length
  chained : Chained ht.pNext ht.pLast ht.arBuckets ht.slot (· ∈ order)
  distinct : Distinct ht order
  cursor : ∀ p, ht.pInternalPointer = some p → p ∈ order

def WellFormed (ht : HashTable α) : Prop := ∃ order, Represents ht order

/-! ### Integer keys after renumbering -/

section Numbered

variable (few : order.length < 2 ^ 32)
  (numbered : (ht.integerKeyed order).map ht.h =
    (List.range (ht.integerKeyed order).length).map (BitVec.ofNat 64))

include few in
theorem integerKeyed_length_lt (ht : HashTable α) : (ht.integerKeyed order).length < 2 ^ 32 :=
  Nat.lt_of_le_of_lt (List.length_filter_le _ _) few

include numbered in
theorem numbered_toNat_lt (member : p ∈ order) (integer : ht.nKeyLength p = 0) :
    (ht.h p).toNat < (ht.integerKeyed order).length := by
  have inside : p ∈ ht.integerKeyed order := List.mem_filter.mpr ⟨member, by simp [integer]⟩
  have isNumber : ht.h p ∈ (List.range (ht.integerKeyed order).length).map (BitVec.ofNat 64) :=
    numbered ▸ List.mem_map_of_mem inside
  rcases List.mem_map.mp isNumber with ⟨i, inRange, equal⟩
  have below := List.mem_range.mp inRange
  rw [← equal, BitVec.toNat_ofNat]
  exact Nat.lt_of_le_of_lt (Nat.mod_le _ _) below

include few numbered in
theorem numbered_injective {q : Nat} (pMember : p ∈ order) (qMember : q ∈ order)
    (pInteger : ht.nKeyLength p = 0) (qInteger : ht.nKeyLength q = 0)
    (equal : ht.h p = ht.h q) : p = q := by
  have short := integerKeyed_length_lt few ht
  have nodup : ((ht.integerKeyed order).map ht.h).Nodup := by
    rw [numbered]
    apply List.Nodup.map_on _ List.nodup_range
    intro i iMember j jMember equalNumbers
    have iBelow := List.mem_range.mp iMember
    have jBelow := List.mem_range.mp jMember
    have equalNats := congrArg BitVec.toNat equalNumbers
    rw [BitVec.toNat_ofNat, BitVec.toNat_ofNat, Nat.mod_eq_of_lt (by omega),
      Nat.mod_eq_of_lt (by omega)] at equalNats
    exact equalNats
  exact List.inj_on_of_nodup_map nodup
    (List.mem_filter.mpr ⟨pMember, by simp [pInteger]⟩)
    (List.mem_filter.mpr ⟨qMember, by simp [qInteger]⟩) equal

end Numbered

/-! ### Keys stay different -/

theorem Effect.distinct (effect : Effect unique ht order ht' order') (holds : unique)
    (distinct : Distinct ht order) : Distinct ht' order' := by
  cases effect with
  | keep kept same _ =>
      intro p pMember q qMember equal
      rw [(same p pMember).key, (same q qMember).key] at equal
      exact distinct p (kept p pMember) q (kept q qMember) equal
  | clear empty _ =>
      subst empty
      intro p member
      cases member
  | append new appended same fresh _ =>
      subst appended
      intro p pMember q qMember equal
      rcases List.mem_append.mp pMember with pOld | pNew <;>
        rcases List.mem_append.mp qMember with qOld | qNew
      · rw [(same p pOld).key, (same q qOld).key] at equal
        exact distinct p pOld q qOld equal
      · rw [List.mem_singleton.mp qNew, (same p pOld).key] at equal
        exact absurd equal (fresh p pOld)
      · rw [List.mem_singleton.mp pNew, (same q qOld).key] at equal
        exact absurd equal.symm (fresh q qOld)
      · rw [List.mem_singleton.mp pNew, List.mem_singleton.mp qNew]
  | renumber few strings numbered _ =>
      intro p pMember q qMember equal
      have byKind := equal
      simp only [key] at byKind
      split at byKind <;> split at byKind
      · rename_i pInteger qInteger
        exact numbered_injective few numbered pMember qMember pInteger qInteger
          (by simpa using byKind)
      · cases byKind
      · cases byKind
      · rename_i pString qString
        rcases strings p pMember pString with ⟨pOld, pSame⟩
        rcases strings q qMember qString with ⟨qOld, qSame⟩
        rw [pSame.key, qSame.key] at equal
        exact distinct p pOld q qOld equal
  | rekey old new front back before after same fresh _ =>
      subst before after
      have kept : ∀ q, q ∈ front ++ back → q ∈ front ++ old :: back := fun q member =>
        mem_middle.mpr (Or.inr member)
      intro p pMember q qMember equal
      rcases mem_middle.mp pMember with pNew | pOld <;>
        rcases mem_middle.mp qMember with qNew | qOld
      · rw [pNew, qNew]
      · rw [pNew, (same q qOld).key] at equal
        exact absurd equal.symm (fresh holds q qOld)
      · rw [qNew, (same p pOld).key] at equal
        exact absurd equal (fresh holds p pOld)
      · rw [(same p pOld).key, (same q qOld).key] at equal
        exact distinct p (kept p pOld) q (kept q qOld) equal

/-- A step of a run may use the table's other buckets and the conditions on renaming. -/
def Safe (ht : HashTable α) (op : Op α) : Prop := op.Fits ht ∧ op.AvoidsStale ht

theorem represents_of_reachable (reachable : Reachable Safe ht) :
    ∃ order, Consistent ht order ∧ order.length < 2 ^ 32 ∧ Distinct ht order := by
  apply Reachable.induct (fun _ _ safe => safe.1) Distinct _ _ reachable
  · intro memory nSize p member
    cases member
  · intro ht order op ht' order' safe _ effects distinct
    exact effects.preserve Distinct
      (fun _ _ _ _ effect => effect.distinct ⟨distinct, safe.2⟩) distinct

/-- The keys of a well-formed table, in list order. -/
theorem Represents.keys_nodup (represents : Represents ht order)
    {seen : List Nat} (walked : follow ht.pListNext ht.brk ht.pListHead = some seen) :
    (seen.map ht.key).Nodup := by
  rw [represents.head] at walked
  rw [eq_of_follow represents.linked walked]
  exact List.Nodup.map_on (fun p pMember q qMember => represents.distinct p pMember q qMember)
    represents.nodup

/-- In every run whose operations fit the element counter and rename no bucket to a key
hidden by a stale pointer, every table reached is well formed, and every further such
operation ends. -/
theorem wellFormed_of_reachable (ht : HashTable α) (reachable : Reachable Safe ht) :
    WellFormed ht ∧
      ∀ op : Op α, (∀ table ∈ op.tables, Reachable Safe table) → op.Valid ht → Safe ht op →
        ∃ ht', op.run ht = some ht' ∧ WellFormed ht' := by
  have wellFormed : ∀ table : HashTable α, Reachable Safe table → WellFormed table := by
    intro table reachable
    rcases represents_of_reachable reachable with ⟨order, consistent, few, distinct⟩
    exact ⟨order, { consistent with
      count := by rw [consistent.count, Nat.mod_eq_of_lt few]
      distinct := distinct }⟩
  refine ⟨wellFormed ht reachable, ?_⟩
  intro op others valid safe
  rcases represents_of_reachable reachable with ⟨order, consistent, few, _⟩
  have otherTables : ∀ table ∈ op.tables, ∃ tableOrder, Consistent table tableOrder := by
    intro table member
    rcases represents_of_reachable (others table member) with ⟨tableOrder, result, _⟩
    exact ⟨tableOrder, result⟩
  rcases op_outcome op consistent otherTables valid few safe.1 with ⟨ht', _, equal, _⟩
  exact ⟨ht', equal, wellFormed ht' (.step op reachable others valid safe equal)⟩

/-! ### Runs on fixed inputs -/

/-- A sequence of operations that each fit the counters, each on the table the one before has
left. -/
def playFitting (ht : HashTable α) : List (Op α) → Option (HashTable α)
  | [] => some ht
  | op :: ops => if op.Fits ht then do playFitting (← op.run ht) ops else none

theorem reachable_playFitting {Allowed : HashTable α → Op α → Prop} {ops : List (Op α)}
    (start : Reachable Allowed ht)
    (admissible : ∀ op ∈ ops, op.tables = [] ∧
      ∀ table, op.Valid table ∧ (op.Fits table → Allowed table op))
    (played : playFitting ht ops = some ht') : Reachable Allowed ht' := by
  induction ops generalizing ht with
  | nil =>
      cases played
      exact start
  | cons op ops induction =>
      rcases admissible op List.mem_cons_self with ⟨alone, ok⟩
      rw [playFitting] at played
      split at played
      · rename_i fits
        rcases Option.bind_eq_some_iff.mp played with ⟨next, isNext, rest⟩
        apply induction (.step op start _ (ok ht).1 ((ok ht).2 fits) isNext) _ rest
        · intro table member
          rw [alone] at member
          cases member
        · intro other member
          exact admissible other (List.mem_cons_of_mem _ member)
      · cases played

/-- Memory before the first table is built in it. -/
def blankMemory (data : α) : HashTable α where
  nTableSize := 0
  nTableMask := 0
  nNumOfElements := 0
  nNextFreeElement := 0
  pInternalPointer := none
  pListHead := none
  pListTail := none
  arBuckets _ := none
  h _ := 0
  nKeyLength _ := 0
  pData _ := data
  pListNext _ := none
  pListLast _ := none
  pNext _ := none
  pLast _ := none
  arKey _ := .null
  brk := 0

/-- The interned string `k`, whose hash value is a multiple of eight. -/
def internedK : CallerKey := ⟨true, [107, 0]⟩

/-- Operations that read no other table and that a caller may always use. -/
def selfContained : Op α → Bool
  | .addOrUpdate key _ _ => !key.bytes.isEmpty
  | .updateCurrentKey _ _ _ | .splice _ _ _ _ _ | .sort _ _ | .copy _ _ | .merge _ _ _ => false
  | _ => true

theorem selfContained_spec {op : Op α} (alone : selfContained op = true) :
    op.tables = [] ∧ ∀ table : HashTable α, op.Valid table ∧ op.AvoidsStale table := by
  cases op with
  | addOrUpdate key data flag =>
      exact ⟨rfl, fun _ => ⟨by simpa [selfContained, Op.Valid] using alone, trivial⟩⟩
  | updateCurrentKey | splice | sort | copy | merge => cases alone
  | _ => exact ⟨rfl, fun _ => ⟨trivial, trivial⟩⟩

/-- A run of such operations from a new table. -/
theorem reachable_of_play {ops : List (Op α)} {memory : HashTable α} {nSize : Nat}
    (alone : ops.all selfContained = true)
    (played : playFitting (memory.zendHashInit nSize) ops = some ht') : Reachable Safe ht' := by
  apply reachable_playFitting (.init memory nSize) _ played
  intro op member
  rcases selfContained_spec (List.all_eq_true.mp alone op member) with ⟨noTables, ok⟩
  exact ⟨noTables, fun table => ⟨(ok table).1, fun fits => ⟨fits, (ok table).2⟩⟩⟩

/-- Four elements with the keys 0, `k`, 7 and 8. -/
def mixedKeys : List (Op Unit) :=
  [.indexUpdateOrNextInsert 0 () .nextInsert, .addOrUpdate internedK () .add,
    .indexUpdateOrNextInsert 7 () .update, .indexUpdateOrNextInsert 0 () .nextInsert]

theorem mixedKeys_played :
    ∃ ht, playFitting ((blankMemory ()).zendHashInit 8) mixedKeys = some ht ∧
      ht.keys = [.index 0, .string [107, 0], .index 7, .index 8] := by
  have played : (playFitting ((blankMemory ()).zendHashInit 8) mixedKeys).map keys =
      some [.index 0, .string [107, 0], .index 7, .index 8] := by decide +kernel
  exact Option.map_eq_some_iff.mp played

theorem wellFormed_of_reachable_sorted :
    ∃ ht ht', playFitting ((blankMemory ()).zendHashInit 8) mixedKeys = some ht ∧
      (Op.sort List.reverse true).run ht = some ht' ∧ WellFormed ht ∧ WellFormed ht' := by
  rcases mixedKeys_played with ⟨ht, played, isKeys⟩
  have four : ht.elements.length = 4 := by simpa [keys] using congrArg List.length isKeys
  rcases wellFormed_of_reachable ht (reachable_of_play rfl played) with ⟨formed, further⟩
  rcases further (.sort List.reverse true) (by simp [Op.tables]) (List.reverse_perm _)
    ⟨by simp [Op.Fits, Op.limit, Op.counters, four], trivial⟩ with ⟨ht', sorted, formed'⟩
  exact ⟨ht, ht', played, sorted, formed, formed'⟩

/-- Renumbering leaves the pointer of `k` in an integer-keyed bucket, `k` is added again,
sorting and renumbering put the stale bucket in front of the real one in chain 0, and a
third bucket is renamed to `k`. -/
def staleRenameRun : List (Op Unit) :=
  [.indexUpdateOrNextInsert 0 () .nextInsert, .addOrUpdate internedK () .add,
    .reindex false, .addOrUpdate internedK () .add, .indexDel 0, .sort List.reverse false,
    .reindex true, .indexUpdateOrNextInsert 0 () .nextInsert, .internalPointerEnd,
    .updateCurrentKey (some (.string internedK)) .anyway none]

theorem staleRenameRun_keys :
    (playFitting ((blankMemory ()).zendHashInit 8) staleRenameRun).map
        (fun ht => (follow ht.pListNext ht.brk ht.pListHead).map fun seen => seen.map ht.key) =
      some (some [.string [107, 0], .string [107, 0]]) := by
  decide +kernel

theorem wellFormed_fails_after_stale_rename :
    ∃ ht : HashTable Unit, Reachable (fun _ _ => True) ht ∧ ¬ WellFormed ht := by
  rcases Option.map_eq_some_iff.mp staleRenameRun_keys with ⟨ht, played, keys⟩
  refine ⟨ht, reachable_playFitting (.init (blankMemory ()) 8) ?_ played, ?_⟩
  · intro op member
    simp only [staleRenameRun, List.mem_cons, List.not_mem_nil, or_false] at member
    rcases member with rfl | rfl | rfl | rfl | rfl | rfl | rfl | rfl | rfl | rfl <;>
      refine ⟨rfl, fun table => ⟨?_, fun _ => trivial⟩⟩ <;>
      simp [Op.Valid, internedK, List.reverse_perm, RenameKey.Nonempty]
  · rintro ⟨order, represents⟩
    rcases Option.map_eq_some_iff.mp keys with ⟨seen, walked, equal⟩
    have nodup := represents.keys_nodup walked
    rw [equal] at nodup
    simp at nodup

end HashTable

end PhpRuntime.Hash
