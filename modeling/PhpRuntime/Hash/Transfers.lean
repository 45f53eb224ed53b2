import PhpRuntime.Hash.Renaming
import Mathlib.Data.List.Dedup

/-! Copying, merging and splicing: the operations that insert many elements at once. -/

namespace PhpRuntime.Hash

open Function (update)
open PhpRuntime.Linked
open PhpRuntime.Integers

namespace HashTable

variable {ht source : HashTable α} {order sourceOrder front back : List Nat} {p : Nat}

/-! ### Storing a bucket of another table -/

theorem construct_consistent (consistent : Consistent ht order) (copyConstructor : α → α)
    (entry : Option Nat) : Consistent (ht.construct copyConstructor entry) order := by
  cases entry with
  | none => exact consistent
  | some p => exact { consistent with }

theorem construct_sameKey (ht : HashTable α) (copyConstructor : α → α) (entry : Option Nat)
    (p : Nat) : SameKey ht (ht.construct copyConstructor entry) p := by
  cases entry with
  | none => exact SameKey.refl ht p
  | some q => exact ⟨rfl, rfl, rfl⟩

theorem construct_effects (unique : Prop) (ht : HashTable α) (order : List Nat)
    (copyConstructor : α → α) (entry : Option Nat) :
    Effects unique ht order (ht.construct copyConstructor entry) order := by
  cases entry with
  | none => exact Relation.ReflTransGen.refl
  | some q => exact effects_of_same unique ht _ (fun _ => id) rfl rfl rfl rfl

/-- The key that a caller reads from a string-keyed bucket. -/
theorem callerKey_bytes (listed : Listed source sourceOrder) (member : p ∈ sourceOrder)
    (stringKeyed : source.nKeyLength p ≠ 0) :
    (source.callerKey p).bytes = (source.arKey p).bytes ∧ (source.callerKey p).bytes ≠ [] ∧
      source.h p = zendInlineHashFunc (source.callerKey p).bytes := by
  rcases listed.keyed p member stringKeyed with ⟨length, hash⟩
  have bytes : (source.callerKey p).bytes = (source.arKey p).bytes := by
    simp [callerKey, ← length]
  refine ⟨bytes, ?_, by rw [bytes]; exact hash⟩
  rw [bytes]
  intro empty
  rw [empty] at length
  exact stringKeyed length.symm

theorem insertFrom_outcome (unique : Prop) (consistent : Consistent ht order)
    (sourceListed : Listed source sourceOrder) (member : p ∈ sourceOrder)
    (flag : InsertFlag) :
    ∃ ht' entry order', ht.insertFrom source p flag = some (ht', entry) ∧
      Consistent ht' order' ∧ Effects unique ht order ht' order' ∧
      Grown ht order (source.key p) ht' order' := by
  unfold insertFrom
  split
  · rename_i stringKeyed
    rcases callerKey_bytes sourceListed member stringKeyed with ⟨bytes, nonempty, hash⟩
    have isKey : source.key p = .string (source.callerKey p).bytes := by
      simp [HashTable.key, stringKeyed, bytes]
    rw [isKey, hash]
    exact quickAddOrUpdate_outcome unique consistent _ nonempty _ flag
  · rename_i integerKeyed
    have isKey : source.key p = .index (source.h p) := by
      simp only [ne_eq, Decidable.not_not] at integerKeyed
      simp [HashTable.key, integerKeyed]
    rw [isKey]
    exact indexUpdateOrNextInsert_outcome unique consistent _ _ _ _ (by simp)

theorem copyFrom_outcome (unique : Prop) (consistent : Consistent ht order)
    (sourceListed : Listed source sourceOrder) (member : p ∈ sourceOrder)
    (flag : InsertFlag) (copyConstructor : α → α) :
    ∃ ht' order', ht.copyFrom source p flag copyConstructor = some ht' ∧
      Consistent ht' order' ∧ Effects unique ht order ht' order' ∧
      Grown ht order (source.key p) ht' order' := by
  rcases insertFrom_outcome unique consistent sourceListed member flag with
    ⟨ht', entry, order', equal, result, effects, grown⟩
  refine ⟨ht'.construct copyConstructor entry, order', ?_,
    construct_consistent result copyConstructor entry,
    effects.trans (construct_effects unique ht' order' copyConstructor entry), ?_, ?_⟩
  · simp only [copyFrom, equal, Option.bind_eq_bind, Option.bind_some]
  · intro q inside
    exact (construct_sameKey ht' copyConstructor entry q).key.trans (grown.same q inside)
  · rcases grown.grown with stays | ⟨appended, isKey, fresh⟩
    · exact Or.inl stays
    · exact Or.inr ⟨appended,
        (construct_sameKey ht' copyConstructor entry ht.brk).key.trans isKey, fresh⟩

/-! ### The copying loops -/

/-- The keys of `source` that `target` does not have. -/
def newKeys (target : HashTable α) (order : List Nat) (source : HashTable α)
    (sourceOrder : List Nat) : List Key :=
  ((sourceOrder.map source.key).filter fun key => key ∉ order.map target.key).dedup

/-- A table that has grown from `ht` by buckets with keys of `source`, all different and
none of them a key of `ht`. -/
structure Extended (unique : Prop) (ht : HashTable α) (order : List Nat)
    (source : HashTable α) (sourceOrder : List Nat) (ht' : HashTable α) (added : List Nat) :
    Prop where
  consistent : Consistent ht' (order ++ added)
  effects : Effects unique ht order ht' (order ++ added)
  same : ∀ q ∈ order, ht'.key q = ht.key q
  different : (added.map ht'.key).Nodup
  new : ∀ key ∈ added.map ht'.key,
    key ∈ sourceOrder.map source.key ∧ key ∉ order.map ht.key

variable {unique : Prop} {ht' : HashTable α} {added : List Nat}

theorem Extended.length_le (extended : Extended unique ht order source sourceOrder ht' added) :
    (order ++ added).length ≤ order.length + (newKeys ht order source sourceOrder).length := by
  have inside : added.map ht'.key ⊆ newKeys ht order source sourceOrder := by
    intro key member
    rcases extended.new key member with ⟨fromSource, notOld⟩
    apply List.mem_dedup.mpr
    exact List.mem_filter.mpr ⟨fromSource, by simpa using notOld⟩
  have bound := (extended.different.subperm inside).length_le
  rw [List.length_map] at bound
  rw [List.length_append]
  omega

theorem Extended.step (extended : Extended unique ht order source sourceOrder ht' added)
    (sourceListed : Listed source sourceOrder) (member : p ∈ sourceOrder)
    (flag : InsertFlag) (copyConstructor : α → α) :
    ∃ next added', ht'.copyFrom source p flag copyConstructor = some next ∧
      Extended unique ht order source sourceOrder next added' := by
  rcases copyFrom_outcome unique extended.consistent sourceListed member flag copyConstructor
    with ⟨next, order', equal, result, effects, grown⟩
  have sameAdded : added.map next.key = added.map ht'.key := by
    apply List.map_congr_left
    intro q inside
    exact grown.same q (List.mem_append_right _ inside)
  have sameOld : ∀ q ∈ order, next.key q = ht.key q := fun q inside =>
    (grown.same q (List.mem_append_left _ inside)).trans (extended.same q inside)
  rcases grown.grown with stays | ⟨appended, isKey, fresh⟩
  · subst stays
    exact ⟨next, added, equal, result, extended.effects.trans effects, sameOld,
      sameAdded ▸ extended.different, sameAdded ▸ extended.new⟩
  · rw [List.append_assoc] at appended
    subst appended
    refine ⟨next, added ++ [ht'.brk], equal, result, extended.effects.trans effects,
      sameOld, ?_, ?_⟩
    · rw [List.map_append, sameAdded]
      apply List.nodup_append.mpr
      refine ⟨extended.different, by simp, ?_⟩
      intro key old key' isNew equalKeys
      rcases List.mem_map.mp old with ⟨q, inside, rfl⟩
      have isKey' : key' = source.key p := by simpa [isKey] using isNew
      exact fresh q (List.mem_append_right _ inside) (equalKeys.trans isKey')
    · intro key inside
      rw [List.map_append, sameAdded] at inside
      rcases List.mem_append.mp inside with old | isNew
      · exact extended.new key old
      · have isKey' : key = source.key p := by simpa [isKey] using isNew
        subst isKey'
        refine ⟨List.mem_map_of_mem member, ?_⟩
        intro old
        rcases List.mem_map.mp old with ⟨q, inside, equalKeys⟩
        exact fresh q (List.mem_append_left _ inside)
          ((extended.same q inside).trans equalKeys)

/-- A loop over the buckets of `source` whose steps each copy at most one of them. -/
theorem Extended.loop (unique : Prop) (step : HashTable α → Nat → Option (HashTable α))
    (nodes : List Nat) (inside : ∀ p ∈ nodes, p ∈ sourceOrder)
    (extends' : ∀ p ∈ sourceOrder, ∀ ht' added,
      Extended unique ht order source sourceOrder ht' added →
      ∃ next added', step ht' p = some next ∧
        Extended unique ht order source sourceOrder next added')
    (extended : Extended unique ht order source sourceOrder ht' added) :
    ∃ final added', nodes.foldlM step ht' = some final ∧
      Extended unique ht order source sourceOrder final added' := by
  induction nodes generalizing ht' added with
  | nil => exact ⟨ht', added, rfl, extended⟩
  | cons p nodes induction =>
      rcases extends' p (inside p List.mem_cons_self) ht' added extended with
        ⟨next, added', equal, extended'⟩
      rcases induction (fun q later => inside q (List.mem_cons_of_mem _ later)) extended' with
        ⟨final, added'', loop, result⟩
      exact ⟨final, added'', by simp [equal, loop], result⟩

theorem Extended.refl (consistent : Consistent ht order) :
    Extended unique ht order source sourceOrder ht [] where
  consistent := by simpa using consistent
  effects := by
    rw [List.append_nil]
    exact Relation.ReflTransGen.refl
  same _ _ := rfl
  different := List.nodup_nil
  new := by simp

theorem Extended.setCursor (extended : Extended unique ht order source sourceOrder ht' added)
    (cursor : Option Nat) (inside : ∀ p, cursor = some p → p ∈ order ++ added) :
    Extended unique ht order source sourceOrder { ht' with pInternalPointer := cursor }
      added where
  consistent := { extended.consistent with cursor := inside }
  effects := extended.effects.trans
    (effects_of_same unique ht' _ (fun _ => id) rfl rfl rfl rfl)
  same := extended.same
  different := extended.different
  new := extended.new

theorem Extended.outcome (extended : Extended unique ht order source sourceOrder ht' added) :
    Outcome unique ht order
      (order.length + (newKeys ht order source sourceOrder).length) (some ht') :=
  ⟨ht', order ++ added, rfl, extended.consistent, extended.effects, extended.length_le⟩

theorem copy_outcome (unique : Prop) (consistent : Consistent ht order)
    (sourceConsistent : Consistent source sourceOrder) (copyConstructor : α → α) :
    Outcome unique ht order (order.length + (newKeys ht order source sourceOrder).length)
      (ht.zendHashCopy source copyConstructor) := by
  have sourceListed := sourceConsistent.toListed
  rcases Extended.loop unique
    (copyStep source copyConstructor ht.pInternalPointer.isNone) sourceOrder (fun _ => id) (by
      intro p member ht' added extended
      unfold copyStep
      split
      · exact (extended.setCursor none (by simp)).step sourceListed member _ _
      · exact extended.step sourceListed member _ _) (Extended.refl consistent) with
    ⟨final, added, loop, extended⟩
  have isFinal : ht.zendHashCopy source copyConstructor =
      some { final with pInternalPointer := final.pInternalPointer.or final.pListHead } := by
    simp only [zendHashCopy, sourceListed.follow_eq, Option.bind_eq_bind, Option.bind_some,
      loop]
  rw [isFinal]
  apply (extended.setCursor (final.pInternalPointer.or final.pListHead) _).outcome
  intro p isCursor
  rcases Option.or_eq_some_iff.mp isCursor with old | ⟨_, isHead⟩
  · exact extended.consistent.cursor p old
  · exact List.mem_of_head? (extended.consistent.head ▸ isHead)

theorem Extended.mergeStep
    (extended : Extended unique ht order source sourceOrder ht' added)
    (sourceListed : Listed source sourceOrder) (member : p ∈ sourceOrder)
    (copyConstructor : α → α) (mode : InsertFlag) :
    ∃ next added', HashTable.mergeStep source copyConstructor mode ht' p = some next ∧
      Extended unique ht order source sourceOrder next added' := by
  unfold HashTable.mergeStep
  split
  · exact extended.step sourceListed member mode copyConstructor
  · rcases extended.consistent.search_cases (ht'.indexMatches (source.h p)) (source.h p)
      with ⟨q, found, _⟩ | ⟨found, _⟩
    · exact ⟨ht', added, by simp [zendHashIndexExists, found], extended⟩
    · simpa [zendHashIndexExists, found] using
        extended.step sourceListed member mode copyConstructor

theorem merge_outcome (unique : Prop) (consistent : Consistent ht order)
    (sourceConsistent : Consistent source sourceOrder) (copyConstructor : α → α)
    (overwrite : Bool) :
    Outcome unique ht order (order.length + (newKeys ht order source sourceOrder).length)
      (ht.zendHashMerge source copyConstructor overwrite) := by
  have sourceListed := sourceConsistent.toListed
  rcases Extended.loop unique
    (mergeStep source copyConstructor (if overwrite then .update else .add)) sourceOrder
    (fun _ => id) (fun p member ht' added extended =>
      extended.mergeStep sourceListed member copyConstructor _) (Extended.refl consistent) with
    ⟨final, added, loop, extended⟩
  have isFinal : ht.zendHashMerge source copyConstructor overwrite =
      some { final with pInternalPointer := final.pListHead } := by
    simp only [zendHashMerge, sourceListed.follow_eq, Option.bind_eq_bind, Option.bind_some,
      loop]
  rw [isFinal]
  apply (extended.setCursor final.pListHead _).outcome
  intro p isHead
  exact List.mem_of_head? (extended.consistent.head ▸ isHead)

/-! ### Splicing -/

theorem skipTo_eq {before : Option Nat} {nodes : List Nat} (count pos : Nat)
    (segment : Segment ht.pListNext ht.pListLast before nodes none) :
    ht.skipTo count pos nodes.head? =
      (pos + min count nodes.length, (nodes.drop count).head?) := by
  induction count generalizing before nodes pos with
  | zero => simp [skipTo]
  | succ count induction =>
      cases nodes with
      | nil => simp [skipTo]
      | cons p nodes =>
          rcases segment with ⟨_, isNext, rest⟩
          have isHead : ht.pListNext p = nodes.head? := by simpa using isNext
          rw [List.head?_cons, skipTo, isHead, induction (pos + 1) rest, List.length_cons,
            List.drop_succ_cons]
          congr 1
          omega

/-- Some table of removed elements, or none, that insertions can go to. -/
def Receives (removed : Option (HashTable α)) : Prop :=
  ∀ table, removed = some table → ∃ order, Consistent table order

theorem collectRemoved_receives {removed : Option (HashTable α)} (receives : Receives removed)
    (listed : Listed ht order) (member : p ∈ order) (copyConstructor : α → α) :
    ∃ removed', collectRemoved removed ht p copyConstructor = some removed' ∧
      Receives removed' := by
  cases removed with
  | none => exact ⟨none, rfl, receives⟩
  | some table =>
      rcases receives table rfl with ⟨tableOrder, consistent⟩
      have stored : ∃ table' entry tableOrder',
          table.insertRemoved ht p = some (table', entry) ∧ Consistent table' tableOrder' := by
        unfold insertRemoved
        split
        · rcases indexUpdateOrNextInsert_outcome True consistent 0 (ht.pData p) .nextInsert _
            rfl with ⟨table', entry, tableOrder', equal, result, _⟩
          exact ⟨table', entry, tableOrder', equal, result⟩
        · rename_i stringKeyed
          rcases callerKey_bytes listed member stringKeyed with ⟨_, nonempty, hash⟩
          rw [hash]
          rcases quickAddOrUpdate_outcome True consistent (ht.callerKey p) nonempty
            (ht.pData p) .update with ⟨table', entry, tableOrder', equal, result, _⟩
          exact ⟨table', entry, tableOrder', equal, result⟩
      rcases stored with ⟨table', entry, tableOrder', equal, result⟩
      refine ⟨some (table'.construct copyConstructor entry), ?_, ?_⟩
      · simp only [collectRemoved, equal, Option.bind_eq_bind, Option.bind_some]
      · rintro _ ⟨⟩
        exact ⟨tableOrder', construct_consistent result copyConstructor entry⟩

theorem spliceRemove_spec (unique : Prop) (copyConstructor : α → α) (count : Nat)
    (rest : List Nat) {removed : Option (HashTable α)} (pos : Nat)
    (consistent : Consistent ht (front ++ rest)) (receives : Receives removed) :
    ∃ ht' removed',
      spliceRemove copyConstructor count ht removed pos rest.head? =
        some (ht', removed', pos + min count rest.length, (rest.drop count).head?) ∧
      Consistent ht' (front ++ rest.drop count) ∧
      Effects unique ht (front ++ rest) ht' (front ++ rest.drop count) ∧
      ht'.nTableMask = ht.nTableMask ∧ ht'.nTableSize = ht.nTableSize := by
  induction count generalizing ht removed rest pos with
  | zero =>
      exact ⟨ht, removed, by simp [spliceRemove], by simpa using consistent,
        Relation.ReflTransGen.refl, rfl, rfl⟩
  | succ count induction =>
      cases rest with
      | nil =>
          exact ⟨ht, removed, by simp [spliceRemove], by simpa using consistent,
            Relation.ReflTransGen.refl, rfl, rfl⟩
      | cons p rest =>
          rcases collectRemoved_receives receives consistent.toListed
            (List.mem_append_right _ List.mem_cons_self) copyConstructor with
            ⟨removed', collected, receives'⟩
          have deleted := zendHashBucketDelete_consistent consistent
          rcases induction rest (pos + 1) deleted receives' with
            ⟨ht', final, equal, result, effects, sameMask, sameSize⟩
          refine ⟨ht', final, ?_, result,
            (bucketDelete_effects unique ht front rest p).trans effects, sameMask, sameSize⟩
          have isPos : pos + min (count + 1) (rest.length + 1) = pos + 1 + min count rest.length := by
            omega
          simp only [List.head?_cons, spliceRemove, collected, Option.bind_eq_bind,
            Option.bind_some, consistent.linked.next_eq, List.drop_succ_cons, List.length_cons,
            isPos]
          exact equal

/-- One new element, in the list but in no chain. -/
theorem spliceInsert_listed (copyConstructor : α → α) (data : α)
    (listed : Listed ht (front ++ back)) (ready : ht.nTableMask = ht.nTableSize - 1) :
    Listed (spliceInsert copyConstructor back.head? ht data) (front ++ ht.brk :: back) := by
  have absent := listed.brk_notMem
  have nodup : (front ++ ht.brk :: back).Nodup :=
    List.nodup_middle.mpr (List.nodup_cons.mpr ⟨absent, listed.nodup⟩)
  have parts := segment_append.mp listed.linked
  have linked := Segment.insert ht.brk parts.1 parts.2 nodup
  have isLast : ht.lastBefore back.head? = front.getLast? := by
    cases back with
    | nil => simpa [lastBefore] using listed.tail
    | cons p rest => exact listed.linked.prev_eq
  exact {
    nodup := nodup
    allocated := by
      intro q member
      rcases mem_middle.mp member with rfl | old
      · exact Nat.lt_succ_self _
      · exact Nat.lt_succ_of_lt (listed.allocated q old)
    linked := by
      rw [← isLast] at linked
      exact linked
    head := by
      apply connectToGlobalDllistEx_head _ ht.brk back.head? front back isLast
      intro nonempty
      have isHead := listed.head
      rw [List.head?_append_of_ne_nil _ nonempty] at isHead
      exact isHead
    tail := by
      apply connectToGlobalDllistEx_tail _ ht.brk (ht.lastBefore back.head?) front back rfl
      intro nonempty
      have isTail := listed.tail
      rw [List.getLast?_append_of_ne_nil _ nonempty] at isTail
      exact isTail
    cursor := by
      intro q isCursor
      exact mem_middle.mpr (Or.inr (listed.cursor q isCursor))
    keyed := by
      intro q member
      rcases mem_middle.mp member with rfl | old
      · intro stringKeyed
        simp [spliceInsert, countUp, connectToGlobalDllistEx, newBucket] at stringKeyed
      · exact newBucket_keyed listed 0 0 .null (copyConstructor data) old
    size := listed.size
    mask := Or.inr ready
    count := by
      have counted := listed.count
      rw [(List.perm_middle.length_eq : (front ++ ht.brk :: back).length = _),
        List.length_cons, ← uintSucc_mod, ← counted]
      rfl }

/-- The list after the insertion loop; nothing else changed for the old buckets. -/
structure Inserted (ht : HashTable α) (front inserted back : List Nat) (ht' : HashTable α) :
    Prop where
  listed : Listed ht' (front ++ inserted ++ back)
  same : ∀ q ∈ front ++ back, SameKey ht ht' q
  integer : ∀ q ∈ inserted, ht'.nKeyLength q = 0
  pNext : ht'.pNext = ht.pNext
  pLast : ht'.pLast = ht.pLast
  arBuckets : ht'.arBuckets = ht.arBuckets
  nTableMask : ht'.nTableMask = ht.nTableMask
  nTableSize : ht'.nTableSize = ht.nTableSize

theorem foldl_spliceInsert (copyConstructor : α → α) (list : List α) (ht : HashTable α)
    (front back : List Nat) (listed : Listed ht (front ++ back))
    (ready : ht.nTableMask = ht.nTableSize - 1) :
    ∃ inserted, inserted.length = list.length ∧
      Inserted ht front inserted back
        (list.foldl (spliceInsert copyConstructor back.head?) ht) ∧
      inserted.map (list.foldl (spliceInsert copyConstructor back.head?) ht).pData =
        list.map copyConstructor ∧
      ∀ q ∈ front ++ back,
        (list.foldl (spliceInsert copyConstructor back.head?) ht).pData q = ht.pData q := by
  induction list generalizing ht front with
  | nil =>
      exact ⟨[], rfl, ⟨by simpa using listed, fun q _ => SameKey.refl ht q, by simp, rfl, rfl,
        rfl, rfl, rfl⟩, rfl, fun _ _ => rfl⟩
  | cons data list induction =>
      have first := spliceInsert_listed copyConstructor data listed ready
      have absent := listed.brk_notMem
      rw [List.append_cons] at first
      rcases induction (spliceInsert copyConstructor back.head? ht data) (front ++ [ht.brk])
        first ready with ⟨inserted, length, result, values, sameData⟩
      have old : ∀ q ∈ front ++ back, q ∈ front ++ [ht.brk] ++ back := by
        intro q member
        rw [← List.append_cons]
        exact mem_middle.mpr (Or.inr member)
      refine ⟨ht.brk :: inserted, by simp [length], ?_, ?_, ?_⟩
      · exact {
          listed := by simpa using result.listed
          same := by
            intro q member
            have different : q ≠ ht.brk := fun equal => absent (equal ▸ member)
            have later := result.same q (old q member)
            exact ⟨later.h.trans (Function.update_of_ne different _ _),
              later.nKeyLength.trans (Function.update_of_ne different _ _),
              later.arKey.trans (Function.update_of_ne different _ _)⟩
          integer := by
            intro q member
            rcases List.mem_cons.mp member with rfl | later
            · have kept := (result.same ht.brk (by simp)).nKeyLength
              simpa [spliceInsert, countUp, connectToGlobalDllistEx, newBucket] using kept
            · exact result.integer q later
          pNext := result.pNext
          pLast := result.pLast
          arBuckets := result.arBuckets
          nTableMask := result.nTableMask
          nTableSize := result.nTableSize }
      · rw [List.map_cons, List.foldl_cons, List.map_cons, values, sameData ht.brk (by simp)]
        simp [spliceInsert, countUp, connectToGlobalDllistEx, newBucket]
      · intro q member
        have different : q ≠ ht.brk := fun equal => absent (equal ▸ member)
        rw [List.foldl_cons, sameData q (old q member)]
        exact Function.update_of_ne different _ _

/-- A list that was just built and the renumbering of its integer keys. -/
theorem Inserted.reindex (unique : Prop) {inserted : List Nat}
    (inserts : Inserted ht front inserted back ht')
    (consistent : Consistent ht (front ++ back))
    (few : (front ++ inserted ++ back).length < 2 ^ 32) :
    Outcome unique ht (front ++ back) (front ++ inserted ++ back).length
      (do (← ht'.ifFullDoResize).zendHashReindex true) := by
  have strings : ∀ p ∈ front ++ inserted ++ back, ht'.nKeyLength p ≠ 0 →
      p ∈ front ++ back ∧ SameKey ht ht' p := by
    intro p member stringKeyed
    have old : p ∈ front ++ back := by
      simp only [List.mem_append] at member ⊢
      rcases member with (inFront | isNew) | inBack
      · exact Or.inl inFront
      · exact absurd (inserts.integer p isNew) stringKeyed
      · exact Or.inr inBack
    exact ⟨old, inserts.same p old⟩
  by_cases counted : ht'.nNumOfElements = 0
  · -- nothing is left and nothing was inserted
    have empty := inserts.listed.eq_nil few counted
    have allEmpty : front = [] ∧ inserted = [] ∧ back = [] := by simpa using empty
    rcases allEmpty with ⟨rfl, rfl, rfl⟩
    have result : Consistent { ht' with nNextFreeElement := 0 } [] := { inserts.listed with
      chained := by
        intro index
        rcases consistent.chained index with ⟨nodes, chain⟩
        refine ⟨nodes, chain.congr ?_ ?_ ?_ (by simp)⟩
        · intro node _
          exact congrFun inserts.pNext node
        · intro node _
          exact congrFun inserts.pLast node
        · exact congrFun inserts.arBuckets index }
    refine ⟨_, [], ?_, result, (Effect.clear rfl rfl).toEffects, Nat.zero_le _⟩
    simp [ifFullDoResize, zendHashReindex, counted]
  · have renumber : ∀ ready : HashTable α, Listed ready (front ++ inserted ++ back) →
        ready.nNumOfElements = ht'.nNumOfElements → ready.h = ht'.h →
        ready.nKeyLength = ht'.nKeyLength → ready.arKey = ht'.arKey →
        Outcome unique ht (front ++ back) (front ++ inserted ++ back).length
          (ready.zendHashReindex true) := by
      intro ready listed sameCount sameH sameLength samePointers
      rcases listed.reindex true (sameCount ▸ counted) with
        ⟨final, equal, result, numbering, pointers, next⟩
      refine ⟨final, _, equal, result, Effect.toEffects ?_, Nat.le_refl _⟩
      apply numbering.effect unique few pointers next
      intro p member stringKeyed
      rw [sameLength] at stringKeyed
      rcases strings p member stringKeyed with ⟨old, same⟩
      exact ⟨old, (congrFun sameH p).trans same.h,
        (congrFun sameLength p).trans same.nKeyLength,
        (congrFun samePointers p).trans same.arKey⟩
    by_cases full : ht'.nTableSize < ht'.nNumOfElements
    · rcases inserts.listed.resize full with ⟨_, _, _, _, _, equal, resized, _⟩
      simp only [ifFullDoResize, if_pos full, equal, Option.bind_eq_bind, Option.bind_some]
      exact renumber _ resized rfl rfl rfl rfl
    · simp only [ifFullDoResize, if_neg full, Option.bind_eq_bind, Option.bind_some]
      exact renumber ht' inserts.listed rfl rfl rfl rfl

theorem spliceList_some (copyConstructor : α → α) (p : Option Nat) {list : List α}
    (short : list.length < 2 ^ 31) :
    ht.spliceList copyConstructor p (some list) =
      (list.foldl (spliceInsert copyConstructor p) ht).ifFullDoResize := by
  rw [spliceList, counted_eq short]
  rfl

/-- The buckets that a splice leaves in the list. -/
def spliceKept (order : List Nat) (offset length : Nat) : List Nat :=
  order.take offset ++ order.drop (max offset (uint (offset + length)))

theorem spliceKept_eq (order : List Nat) (offset length : Nat) :
    order.take offset ++
        (order.drop offset).drop (uint (offset + length) - min offset order.length) =
      spliceKept order offset length := by
  unfold spliceKept
  rw [List.drop_drop]
  by_cases inside : offset ≤ order.length
  · rw [Nat.min_eq_left inside]
    congr 2
    omega
  · rw [List.drop_eq_nil_of_le (by omega), List.drop_eq_nil_of_le (by omega)]

/-- Where `pos` ends. -/
def spliceEnd (order : List Nat) (offset length : Nat) : Nat :=
  min (max offset (uint (offset + length))) order.length

theorem spliceEnd_eq (order : List Nat) (offset length : Nat) :
    min offset order.length +
        min (uint (offset + length) - min offset order.length) (order.drop offset).length =
      spliceEnd order offset length := by
  unfold spliceEnd
  rw [List.length_drop]
  omega

theorem splice_outcome (unique : Prop) (consistent : Consistent ht order)
    (copyConstructor : α → α) (offset length : Nat) (list : Option (List α))
    {removed : Option (HashTable α)} (receives : Receives removed)
    (short : spliceEnd order offset length < 2 ^ 31) (shortList : (list.getD []).length < 2 ^ 31)
    (few : (spliceKept order offset length).length + (list.getD []).length < 2 ^ 32) :
    Outcome unique ht order
      ((spliceKept order offset length).length + (list.getD []).length)
      ((ht.zendHashSplice copyConstructor offset length list removed).map Prod.fst) := by
  have initial := checkInit_consistent consistent
  have skipped := skipTo_eq offset 0 initial.linked
  rw [← initial.head, Nat.zero_add] at skipped
  rcases spliceRemove_spec unique copyConstructor
    (uint (offset + length) - min offset order.length) (order.drop offset)
    (min offset order.length) ((List.take_append_drop offset order).symm ▸ initial) receives with
    ⟨middle, removed', isRemoved, kept, effects, sameMask, sameSize⟩
  have ready : middle.nTableMask = middle.nTableSize - 1 := by
    rw [sameMask, sameSize]
    exact checkInit_ready consistent
  have start : Effects unique ht order ht.checkInit order :=
    effects_of_same unique ht _ (fun _ => id) (checkInit_h ht) (checkInit_nKeyLength ht)
      (checkInit_arKey ht) (checkInit_nNextFreeElement ht)
  rw [List.take_append_drop] at effects
  rw [spliceEnd_eq] at isRemoved
  have isKept := spliceKept_eq order offset length
  have finish : ∀ result : Option (HashTable α),
      Outcome unique middle (spliceKept order offset length)
        ((spliceKept order offset length).length + (list.getD []).length) result →
      result = (do (← middle.spliceList copyConstructor ((order.drop offset).drop
        (uint (offset + length) - min offset order.length)).head? list).zendHashReindex true) →
      Outcome unique ht order
        ((spliceKept order offset length).length + (list.getD []).length)
        ((ht.zendHashSplice copyConstructor offset length list removed).map Prod.fst) := by
    intro result outcome isResult
    rw [isKept] at effects
    rcases Outcome.after (start.trans effects) outcome with
      ⟨ht', order', equal, result', effects', bound⟩
    refine ⟨ht', order', ?_, result', effects', bound⟩
    rw [equal] at isResult
    rcases Option.bind_eq_some_iff.mp isResult.symm with ⟨spliced, isSpliced, isFinal⟩
    simp only [zendHashSplice, skipped, isRemoved, counted_eq short, Option.bind_eq_bind,
      Option.bind_some, isSpliced, isFinal, Option.map_some]
  cases list with
  | none =>
      rw [isKept] at kept
      have reindexed := reindex_outcome unique kept true (by simpa using few)
      exact finish _ reindexed rfl
  | some list =>
      rcases foldl_spliceInsert copyConstructor list middle _ _ kept.toListed ready with
        ⟨inserted, sameLength, inserts, _⟩
      have total : (order.take offset ++ inserted ++ (order.drop offset).drop
          (uint (offset + length) - min offset order.length)).length =
          (spliceKept order offset length).length + list.length := by
        rw [← isKept]
        simp only [List.length_append, sameLength]
        omega
      have reindexed := inserts.reindex unique kept (by rw [total]; simpa using few)
      rw [total, isKept] at reindexed
      have isShort : list.length < 2 ^ 31 := shortList
      exact finish _ reindexed (by rw [spliceList_some _ _ isShort])

end HashTable

end PhpRuntime.Hash
