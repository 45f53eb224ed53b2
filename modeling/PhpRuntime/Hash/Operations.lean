import PhpRuntime.Hash.Effect

/-! Each operation that works on one table ends, keeps the table consistent and is a
sequence of effects on its keys. -/

namespace PhpRuntime.Hash

open Function (update)
open PhpRuntime.Linked
open PhpRuntime.Chains
open PhpRuntime.Integers

namespace HashTable

/-- The operation ended with a consistent table of at most `limit` buckets. -/
def Outcome (unique : Prop) (ht : HashTable α) (order : List Nat) (limit : Nat)
    (result : Option (HashTable α)) : Prop :=
  ∃ ht' order', result = some ht' ∧ Consistent ht' order' ∧
    Effects unique ht order ht' order' ∧ order'.length ≤ limit

variable {ht : HashTable α} {order front back : List Nat} {p : Nat} {unique : Prop}

/-! ### Insertion -/

/-- A bucket that a string lookup accepts for its own bytes. -/
theorem keyMatches_of_key {key : CallerKey} (listed : Listed ht order) (member : p ∈ order)
    (isKey : ht.key p = .string key.bytes) :
    ht.slot p = ht.index (zendInlineHashFunc key.bytes) ∧
      ht.keyMatches key (zendInlineHashFunc key.bytes) p = true := by
  simp only [HashTable.key] at isKey
  split at isKey
  · cases isKey
  · rename_i stringKeyed
    have bytes : (ht.arKey p).bytes = key.bytes := by simpa using isKey
    rcases listed.keyed p member stringKeyed with ⟨length, hash⟩
    rw [bytes] at length hash
    constructor
    · rw [slot, hash]
    · simp [keyMatches, hash, ← length, CallerKey.sameBytes, CallerKey.nKeyLength, bytes]

theorem Appended.sameKey {h : BitVec 64} {nKeyLength : Nat} {arKey : ArKey} {data : α}
    {next : BitVec 64} {ht' : HashTable α}
    (appended : Appended ht order h nKeyLength arKey data next ht')
    (listed : Listed ht order) (member : p ∈ order) : SameKey ht ht' p := by
  have different : p ≠ ht.brk := fun equal => listed.brk_notMem (equal ▸ member)
  constructor
  · rw [appended.h, Function.update_of_ne different]
  · rw [appended.nKeyLength, Function.update_of_ne different]
  · rw [appended.arKey, Function.update_of_ne different]

/-- A new bucket whose key no other bucket has. -/
theorem Appended.effects {h : BitVec 64} {nKeyLength : Nat} {arKey : ArKey} {data : α}
    {next : BitVec 64} {ht' : HashTable α}
    (appended : Appended ht order h nKeyLength arKey data next ht')
    (listed : Listed ht order) (fresh : ∀ q ∈ order, ht.key q ≠ ht'.key ht.brk)
    (isNext : next =
      if nKeyLength = 0 then nextFreeAfter ht.nNextFreeElement h else ht.nNextFreeElement) :
    Effects unique ht order ht' (order ++ [ht.brk]) := by
  apply Effect.toEffects
  apply Effect.append ht.brk rfl _ fresh
  · rw [appended.next, isNext, appended.nKeyLength, appended.h, Function.update_self,
      Function.update_self]
  · exact fun q member => appended.sameKey listed member

theorem Appended.key {h : BitVec 64} {nKeyLength : Nat} {arKey : ArKey} {data : α}
    {next : BitVec 64} {ht' : HashTable α}
    (appended : Appended ht order h nKeyLength arKey data next ht') :
    ht'.key ht.brk = if nKeyLength = 0 then .index h else .string arKey.bytes := by
  simp only [HashTable.key, appended.nKeyLength, appended.h, appended.arKey,
    Function.update_self]

theorem stored_bytes (key : CallerKey) : key.stored.bytes = key.bytes := by
  unfold CallerKey.stored
  split <;> rfl

/-- Where an insertion leaves the list: it stays, or a bucket with a key that no bucket
had before is appended. -/
structure Grown (ht : HashTable α) (order : List Nat) (key : Key) (ht' : HashTable α)
    (order' : List Nat) : Prop where
  same : ∀ q ∈ order, ht'.key q = ht.key q
  grown : order' = order ∨
    order' = order ++ [ht.brk] ∧ ht'.key ht.brk = key ∧ ∀ q ∈ order, ht.key q ≠ key

theorem quickAddOrUpdate_outcome (unique : Prop) (consistent : Consistent ht order)
    (key : CallerKey) (nonempty : key.bytes ≠ []) (data : α) (flag : InsertFlag) :
    ∃ ht' entry order',
      ht.zendHashQuickAddOrUpdate key (zendInlineHashFunc key.bytes) data flag =
        some (ht', entry) ∧
      Consistent ht' order' ∧ Effects unique ht order ht' order' ∧
      Grown ht order (.string key.bytes) ht' order' := by
  have length : key.nKeyLength ≠ 0 := by
    simpa [CallerKey.nKeyLength] using nonempty
  rcases quickAddOrUpdate_spec consistent key data flag with
    ⟨p, _, _, _, equal⟩ | ⟨rejected, ht', equal, appended⟩
  · split at equal
    · exact ⟨_, _, order, equal, consistent, Relation.ReflTransGen.refl,
        fun _ _ => rfl, Or.inl rfl⟩
    · exact ⟨_, _, order, equal, { consistent with },
        effects_of_same unique ht _ (fun _ => id) rfl rfl rfl rfl, fun _ _ => rfl,
        Or.inl rfl⟩
  · have isKey : ht'.key ht.brk = .string key.bytes := by
      rw [appended.key, if_neg length, stored_bytes]
    have fresh : ∀ q ∈ order, ht.key q ≠ .string key.bytes := by
      intro q member same
      have accepted := keyMatches_of_key consistent.toListed member same
      have refused := rejected q member accepted.1
      rw [accepted.2] at refused
      cases refused
    refine ⟨ht', _, _, equal, appended.consistent, ?_,
      fun q member => (appended.sameKey consistent.toListed member).key,
      Or.inr ⟨rfl, isKey, fresh⟩⟩
    exact appended.effects consistent.toListed (isKey ▸ fresh) (if_neg length).symm

theorem indexUpdateOrNextInsert_outcome (unique : Prop) (consistent : Consistent ht order)
    (h : BitVec 64) (data : α) (flag : InsertFlag) (target : BitVec 64)
    (isTarget : target = if flag = .nextInsert then ht.nNextFreeElement else h) :
    ∃ ht' entry order',
      ht.zendHashIndexUpdateOrNextInsert h data flag = some (ht', entry) ∧
      Consistent ht' order' ∧ Effects unique ht order ht' order' ∧
      Grown ht order (.index target) ht' order' := by
  rcases indexUpdateOrNextInsert_spec consistent h data flag target isTarget with
    ⟨p, _, _, equal⟩ | ⟨fresh, ht', equal, appended⟩
  · split at equal
    · exact ⟨_, _, order, equal, consistent, Relation.ReflTransGen.refl,
        fun _ _ => rfl, Or.inl rfl⟩
    · exact ⟨_, _, order, equal, { consistent with },
        effects_of_same unique ht _ (fun _ => id) rfl rfl rfl rfl, fun _ _ => rfl,
        Or.inl rfl⟩
  · have isKey : ht'.key ht.brk = .index target := by rw [appended.key, if_pos rfl]
    refine ⟨ht', _, _, equal, appended.consistent, ?_,
      fun q member => (appended.sameKey consistent.toListed member).key,
      Or.inr ⟨rfl, isKey, fresh⟩⟩
    exact appended.effects consistent.toListed (isKey ▸ fresh) (if_pos rfl).symm

/-! ### Deletion -/

theorem bucketDelete_outcome (unique : Prop) (consistent : Consistent ht order)
    (member : p ∈ order) :
    Outcome unique ht order order.length (some (ht.zendHashBucketDelete p)) := by
  rcases List.append_of_mem member with ⟨front, back, rfl⟩
  refine ⟨_, _, rfl, zendHashBucketDelete_consistent consistent,
    bucketDelete_effects unique ht front back p, ?_⟩
  simp

theorem Outcome.refl (unique : Prop) (consistent : Consistent ht order) :
    Outcome unique ht order order.length (some ht) :=
  ⟨ht, order, rfl, consistent, Relation.ReflTransGen.refl, Nat.le_refl _⟩

theorem delKeyOrIndex_outcome (unique : Prop) (consistent : Consistent ht order)
    (key : CallerKey) (h : BitVec 64) :
    Outcome unique ht order order.length
      ((ht.zendHashDelKeyOrIndex key h).map Prod.fst) := by
  unfold zendHashDelKeyOrIndex
  rcases consistent.search_cases (fun p => ht.h p == h && ht.nKeyLength p == key.nKeyLength &&
      (ht.nKeyLength p == 0 || key.sameBytes (ht.arKey p))) h with
    ⟨p, found, member, _, _⟩ | ⟨found, _⟩
  · simp only [found, Option.bind_eq_bind, Option.bind_some]
    exact bucketDelete_outcome unique consistent member
  · simp only [found, Option.bind_eq_bind, Option.bind_some]
    exact Outcome.refl unique consistent

theorem clean_outcome (unique : Prop) (consistent : Consistent ht order) :
    Outcome unique ht order order.length (some ht.zendHashClean) := by
  have empty : ∀ index, ht.zendHashClean.arBuckets index = none := by
    intro index
    simp only [zendHashClean]
    split
    · rename_i uninitialised
      rcases consistent.mask with ⟨_, rfl⟩ | full
      · rcases consistent.chained index with ⟨nodes, chain⟩
        have noNodes : nodes = [] :=
          List.eq_nil_iff_forall_not_mem.mpr fun node inside =>
            List.not_mem_nil ((chain.mem_iff node).mp inside).1
        rw [chain.head_eq, noNodes]
        rfl
      · rcases consistent.size with ⟨log, lower, _, size⟩
        have large : 2 ^ 3 ≤ 2 ^ log := Nat.pow_le_pow_right (by omega) lower
        omega
    · rfl
  refine ⟨_, [], rfl, ?_, (Effect.clear rfl rfl).toEffects, Nat.zero_le _⟩
  exact {
    nodup := List.nodup_nil
    allocated := by simp
    linked := trivial
    head := rfl
    tail := rfl
    cursor := by simp [zendHashClean]
    keyed := by simp
    size := consistent.size
    mask := by
      rcases consistent.mask with ⟨uninitialised, _⟩ | full
      · exact Or.inl ⟨uninitialised, rfl⟩
      · exact Or.inr full
    count := rfl
    chained := chained_empty empty (by simp) }

/-! ### Visiting the list

A walk in either direction has the buckets still to be visited on one side of the list.
`layout visited remaining` is the whole list. -/

theorem applyLoop_outcome (unique : Prop) (link : HashTable α → Nat → Option Nat)
    (layout : List Nat → List Nat → List Nat)
    (follows : ∀ ht visited p rest, Consistent ht (layout visited (p :: rest)) →
      link ht p = rest.head?)
    (drops : ∀ visited p rest, ∃ front back,
      layout visited (p :: rest) = front ++ p :: back ∧ layout visited rest = front ++ back)
    (keeps : ∀ visited p rest, ∃ visited', layout visited (p :: rest) = layout visited' rest)
    (remaining visited : List Nat) (ht : HashTable α) (results : List ApplyResult)
    (fuel : Nat) (consistent : Consistent ht (layout visited remaining))
    (enough : remaining.length ≤ fuel) :
    Outcome unique ht (layout visited remaining) (layout visited remaining).length
      (applyLoop link fuel remaining.head? results ht) := by
  induction remaining generalizing visited ht results fuel with
  | nil =>
      cases fuel <;> exact Outcome.refl unique consistent
  | cons p rest induction =>
      cases fuel with
      | zero => simp at enough
      | succ fuel =>
          have isLink := follows ht visited p rest consistent
          rcases drops visited p rest with ⟨front, back, whole, dropped⟩
          rcases keeps visited p rest with ⟨visited', kept⟩
          have fewer : rest.length ≤ fuel := Nat.le_of_succ_le_succ enough
          simp only [List.head?_cons, applyLoop, isLink]
          cases removed : (results.headD ⟨false, false⟩).remove with
          | true =>
              have deleted : Consistent (ht.zendHashBucketDelete p) (layout visited rest) := by
                rw [dropped]
                exact zendHashBucketDelete_consistent (whole ▸ consistent)
              have effects : Effects unique ht (layout visited (p :: rest))
                  (ht.zendHashBucketDelete p) (layout visited rest) := by
                rw [whole, dropped]
                exact bucketDelete_effects unique ht front back p
              have shorter : (layout visited rest).length ≤
                  (layout visited (p :: rest)).length := by
                rw [whole, dropped]
                simp
              simp only [if_true]
              cases stopped : (results.headD ⟨false, false⟩).stop with
              | true => exact ⟨_, _, rfl, deleted, effects, shorter⟩
              | false =>
                  rcases induction visited _ results.tail fuel deleted fewer with
                    ⟨ht', order', equal, result, later, bound⟩
                  exact ⟨ht', order', equal, result, effects.trans later,
                    Nat.le_trans bound shorter⟩
          | false =>
              simp only [Bool.false_eq_true, if_false]
              cases stopped : (results.headD ⟨false, false⟩).stop with
              | true => exact Outcome.refl unique consistent
              | false =>
                  have inner := induction visited' ht results.tail fuel (kept ▸ consistent)
                    fewer
                  rw [← kept] at inner
                  exact inner

theorem apply_outcome (unique : Prop) (consistent : Consistent ht order)
    (results : List ApplyResult) :
    Outcome unique ht order order.length (ht.zendHashApply results) := by
  rw [zendHashApply, consistent.head]
  apply applyLoop_outcome unique pListNext (· ++ ·) _ _ _ order [] ht results ht.brk consistent
    consistent.length_le
  · intro ht visited p rest consistent
    exact consistent.linked.next_eq
  · intro visited p rest
    exact ⟨visited, rest, rfl, rfl⟩
  · intro visited p rest
    exact ⟨visited ++ [p], by simp⟩

theorem reverseApply_outcome (unique : Prop) (consistent : Consistent ht order)
    (results : List ApplyResult) :
    Outcome unique ht order order.length (ht.zendHashReverseApply results) := by
  have reversed : order = order.reverse.reverse ++ [] := by simp
  rw [zendHashReverseApply, consistent.tail, ← List.head?_reverse]
  have inner := applyLoop_outcome unique pListLast
    (fun visited remaining => remaining.reverse ++ visited) ?_ ?_ ?_ order.reverse [] ht results
    ht.brk (reversed ▸ consistent) (by simpa using consistent.length_le)
  · simpa using inner
  · intro ht visited p rest consistent
    have isLast := (show Consistent ht (rest.reverse ++ p :: visited) by
      simpa using consistent).linked.prev_eq
    simpa using isLast
  · intro visited p rest
    exact ⟨rest.reverse, visited, by simp, rfl⟩
  · intro visited p rest
    exact ⟨p :: visited, by simp⟩

/-! ### The internal pointer -/

theorem cursor_outcome (unique : Prop) (consistent : Consistent ht order)
    (cursor : Option Nat) (inside : ∀ p, cursor = some p → p ∈ order) :
    Outcome unique ht order order.length (some { ht with pInternalPointer := cursor }) :=
  ⟨_, order, rfl, { consistent with cursor := inside },
    effects_of_same unique ht _ (fun _ => id) rfl rfl rfl rfl, Nat.le_refl _⟩

theorem moveForward_outcome (unique : Prop) (consistent : Consistent ht order) :
    Outcome unique ht order order.length (some ht.zendHashMoveForward) := by
  apply cursor_outcome unique consistent
  intro p isNext
  rcases Option.bind_eq_some_iff.mp isNext with ⟨current, isCurrent, equal⟩
  exact consistent.linked.next_mem (consistent.cursor current isCurrent) equal

theorem moveBackwards_outcome (unique : Prop) (consistent : Consistent ht order) :
    Outcome unique ht order order.length (some ht.zendHashMoveBackwards) := by
  apply cursor_outcome unique consistent
  intro p isNext
  rcases Option.bind_eq_some_iff.mp isNext with ⟨current, isCurrent, equal⟩
  exact consistent.linked.prev_mem (consistent.cursor current isCurrent) equal

theorem pointerReset_outcome (unique : Prop) (consistent : Consistent ht order) :
    Outcome unique ht order order.length (some ht.zendHashInternalPointerReset) := by
  apply cursor_outcome unique consistent
  intro p isHead
  exact List.mem_of_head? (consistent.head ▸ isHead)

theorem pointerEnd_outcome (unique : Prop) (consistent : Consistent ht order) :
    Outcome unique ht order order.length (some ht.zendHashInternalPointerEnd) := by
  apply cursor_outcome unique consistent
  intro p isTail
  exact List.mem_of_getLast? (consistent.tail ▸ isTail)

/-! ### Rebuilding -/

theorem rehash_outcome (unique : Prop) (consistent : Consistent ht order) :
    Outcome unique ht order order.length ht.zendHashRehash := by
  rcases zendHashRehash_consistent consistent with ⟨_, _, _, equal, result⟩
  exact ⟨_, order, equal, result,
    effects_of_same unique ht _ (fun _ => id) rfl rfl rfl rfl, Nat.le_refl _⟩

theorem ifFullDoResize_outcome (unique : Prop) (consistent : Consistent ht order) :
    Outcome unique ht order order.length ht.ifFullDoResize := by
  rcases ifFullDoResize_consistent consistent with ⟨_, _, _, _, _, equal, result⟩
  exact ⟨_, order, equal, result,
    effects_of_same unique ht _ (fun _ => id) rfl rfl rfl rfl, Nat.le_refl _⟩

/-- The buckets that `zend_hash_reindex` gives a new number. -/
def renumbered (nKeyLength : Nat → Nat) (onlyIntegerKeys : Bool) (nodes : List Nat) :
    List Nat :=
  nodes.filter fun p => !onlyIntegerKeys || nKeyLength p == 0

/-- The keys after the buckets of `nodes` were renumbered from `offset` on. -/
structure Renumbered (h : Nat → BitVec 64) (nKeyLength : Nat → Nat) (onlyIntegerKeys : Bool)
    (nodes : List Nat) (offset : BitVec 64) (h' : Nat → BitVec 64)
    (nKeyLength' : Nat → Nat) : Prop where
  outside : ∀ p, p ∉ renumbered nKeyLength onlyIntegerKeys nodes →
    h' p = h p ∧ nKeyLength' p = nKeyLength p
  inside : ∀ p ∈ renumbered nKeyLength onlyIntegerKeys nodes, nKeyLength' p = 0
  numbers : (renumbered nKeyLength onlyIntegerKeys nodes).map h' =
    (List.range (renumbered nKeyLength onlyIntegerKeys nodes).length).map
      fun i => offset + BitVec.ofNat 64 i

section Renumbered

variable {h h' : Nat → BitVec 64} {nKeyLength nKeyLength' : Nat → Nat}
  {onlyIntegerKeys : Bool} {nodes : List Nat} {offset : BitVec 64}

theorem Renumbered.nil : Renumbered h nKeyLength onlyIntegerKeys [] offset h nKeyLength :=
  ⟨fun _ _ => ⟨rfl, rfl⟩, by simp [renumbered], rfl⟩

theorem renumbered_cons_selected
    (selected : (!onlyIntegerKeys || nKeyLength p == 0) = true) (notLater : p ∉ nodes) :
    renumbered nKeyLength onlyIntegerKeys (p :: nodes) =
      p :: renumbered (update nKeyLength p 0) onlyIntegerKeys nodes := by
  have same : renumbered (update nKeyLength p 0) onlyIntegerKeys nodes =
      renumbered nKeyLength onlyIntegerKeys nodes := by
    apply List.filter_congr
    intro q later
    have different : q ≠ p := fun equal => notLater (equal ▸ later)
    rw [Function.update_of_ne different]
  rw [same]
  simp [renumbered, selected]

theorem renumbered_cons_skipped
    (skipped : (!onlyIntegerKeys || nKeyLength p == 0) = false) :
    renumbered nKeyLength onlyIntegerKeys (p :: nodes) =
      renumbered nKeyLength onlyIntegerKeys nodes := by
  simp [renumbered, skipped]

/-- The head of the list takes the number `offset`. -/
theorem Renumbered.cons_selected
    (selected : (!onlyIntegerKeys || nKeyLength p == 0) = true) (notLater : p ∉ nodes)
    (rest : Renumbered (update h p offset) (update nKeyLength p 0) onlyIntegerKeys nodes
      (offset + 1) h' nKeyLength') :
    Renumbered h nKeyLength onlyIntegerKeys (p :: nodes) offset h' nKeyLength' := by
  have list := renumbered_cons_selected selected notLater
  have own := rest.outside p fun inside => notLater (List.mem_of_mem_filter inside)
  simp only [Function.update_self] at own
  refine ⟨?_, ?_, ?_⟩
  · intro q notNumbered
    rw [list, List.mem_cons, not_or] at notNumbered
    simpa [Function.update_of_ne notNumbered.1] using rest.outside q notNumbered.2
  · intro q numbered
    rw [list] at numbered
    rcases List.mem_cons.mp numbered with rfl | later
    · exact own.2
    · exact rest.inside q later
  · rw [list, List.map_cons, rest.numbers, List.length_cons, List.range_succ_eq_map,
      List.map_cons, List.map_map, own.1]
    congr 1
    · simp
    · apply List.map_congr_left
      intro i _
      simp only [Function.comp_apply, Nat.succ_eq_add_one, BitVec.ofNat_add]
      rw [BitVec.add_assoc, BitVec.add_comm 1]
      rfl

/-- The head of the list keeps its string key. -/
theorem Renumbered.cons_skipped
    (skipped : (!onlyIntegerKeys || nKeyLength p == 0) = false)
    (rest : Renumbered h nKeyLength onlyIntegerKeys nodes offset h' nKeyLength') :
    Renumbered h nKeyLength onlyIntegerKeys (p :: nodes) offset h' nKeyLength' := by
  rcases rest with ⟨outside, inside, numbers⟩
  rw [← renumbered_cons_skipped skipped] at outside inside numbers
  exact ⟨outside, inside, numbers⟩

/-- The renumbered buckets are those that have an integer key afterwards. -/
theorem Renumbered.filter_eq
    (numbering : Renumbered h nKeyLength onlyIntegerKeys nodes offset h' nKeyLength') :
    nodes.filter (fun p => nKeyLength' p == 0) =
      renumbered nKeyLength onlyIntegerKeys nodes := by
  apply List.filter_congr
  intro p member
  cases selected : (!onlyIntegerKeys || nKeyLength p == 0) with
  | true =>
      have zero := numbering.inside p (List.mem_filter.mpr ⟨member, selected⟩)
      simp [zero]
  | false =>
      have untouched := numbering.outside p fun inside => by
        have chosen := (List.mem_filter.mp inside).2
        rw [selected] at chosen
        cases chosen
      simp only [Bool.or_eq_false_iff] at selected
      rw [untouched.2]
      exact selected.2

end Renumbered

/-- The loop that renumbers and chains the buckets of a list. -/
theorem foldl_reindexStep (onlyIntegerKeys : Bool) (nodes : List Nat) (member : Nat → Prop)
    (ht : HashTable α) (offset : BitVec 64)
    (chained : Chained ht.pNext ht.pLast ht.arBuckets ht.slot member)
    (nodup : nodes.Nodup) (absent : ∀ p ∈ nodes, ¬ member p) :
    ∃ h nKeyLength pNext pLast arBuckets,
      nodes.foldl (reindexStep onlyIntegerKeys) (ht, offset) =
        ({ ht with h, nKeyLength, pNext, pLast, arBuckets },
          offset + BitVec.ofNat 64 (renumbered ht.nKeyLength onlyIntegerKeys nodes).length) ∧
      Renumbered ht.h ht.nKeyLength onlyIntegerKeys nodes offset h nKeyLength ∧
      Chained pNext pLast arBuckets (fun p => ht.index (h p))
        (fun p => member p ∨ p ∈ nodes) := by
  induction nodes generalizing member ht offset with
  | nil =>
      refine ⟨ht.h, ht.nKeyLength, ht.pNext, ht.pLast, ht.arBuckets, by simp [renumbered],
        .nil, ?_⟩
      exact chained.congr (fun _ _ => rfl) (fun _ _ => rfl) (fun _ _ => rfl) (by simp)
  | cons p nodes induction =>
      rcases List.nodup_cons.mp nodup with ⟨notLater, nodup⟩
      have notMember := absent p List.mem_cons_self
      have stillAbsent : ∀ q ∈ nodes, ¬ (member q ∨ q = p) := by
        rintro q later (isMember | rfl)
        · exact absent q (List.mem_cons_of_mem _ later) isMember
        · exact notLater later
      have regroup : ∀ q, member q ∨ q ∈ p :: nodes ↔ (member q ∨ q = p) ∨ q ∈ nodes := by
        intro q
        simp [or_assoc]
      rw [List.foldl_cons]
      cases selected : (!onlyIntegerKeys || ht.nKeyLength p == 0) with
      | true =>
          have step : reindexStep onlyIntegerKeys (ht, offset) p =
              ((ht.setNumber p offset).rehashStep p, offset + 1) := by
            simp [reindexStep, selected]
          have pushed := chained.push notMember
            (rfl : (ht.setNumber p offset).slot p = (ht.setNumber p offset).slot p) (by
              intro other isMember
              have different : other ≠ p := fun equal => notMember (equal ▸ isMember)
              simp [setNumber, slot, index, Function.update_of_ne different])
          rw [step]
          rcases induction _ ((ht.setNumber p offset).rehashStep p) (offset + 1) pushed nodup
            stillAbsent with ⟨h, nKeyLength, pNext, pLast, arBuckets, equal, rest, result⟩
          refine ⟨h, nKeyLength, pNext, pLast, arBuckets, ?_,
            Renumbered.cons_selected selected notLater rest,
            result.congr (fun _ _ => rfl) (fun _ _ => rfl) (fun _ _ => rfl) regroup⟩
          rw [equal, renumbered_cons_selected selected notLater, List.length_cons,
            BitVec.ofNat_add, BitVec.add_comm (BitVec.ofNat 64 _), ← BitVec.add_assoc]
          rfl
      | false =>
          have step : reindexStep onlyIntegerKeys (ht, offset) p =
              (ht.rehashStep p, offset) := by
            simp [reindexStep, selected]
          have pushed := chained.push notMember (rfl : ht.slot p = ht.slot p) (fun _ _ => rfl)
          rw [step]
          rcases induction _ (ht.rehashStep p) offset pushed nodup stillAbsent with
            ⟨h, nKeyLength, pNext, pLast, arBuckets, equal, rest, result⟩
          refine ⟨h, nKeyLength, pNext, pLast, arBuckets, ?_,
            Renumbered.cons_skipped selected rest,
            result.congr (fun _ _ => rfl) (fun _ _ => rfl) (fun _ _ => rfl) regroup⟩
          rw [equal, renumbered_cons_skipped selected]
          rfl

/-- Reindexing a table with a valid list, if the counter shows that there is something
to do. The chains need not be valid before. -/
theorem Listed.reindex (listed : Listed ht order) (onlyIntegerKeys : Bool)
    (counted : ht.nNumOfElements ≠ 0) :
    ∃ ht', ht.zendHashReindex onlyIntegerKeys = some ht' ∧ Consistent ht' order ∧
      Renumbered ht.h ht.nKeyLength onlyIntegerKeys order 0 ht'.h ht'.nKeyLength ∧
      ht'.arKey = ht.arKey ∧
      ht'.nNextFreeElement =
        BitVec.ofNat 64 (renumbered ht.nKeyLength onlyIntegerKeys order).length := by
  have start : Chained ht.pNext ht.pLast (fun _ => none) ht.slot (fun _ => False) :=
    chained_empty (fun _ => rfl) (fun _ => id)
  rcases foldl_reindexStep onlyIntegerKeys order (fun _ => False)
    { ht with arBuckets := fun _ => none } 0 start listed.nodup (fun _ _ => id) with
    ⟨h, nKeyLength, pNext, pLast, arBuckets, equal, numbering, chained⟩
  have looped := forEach_eq_foldl (fun state : HashTable α × BitVec 64 => state.1.pListNext)
    (reindexStep onlyIntegerKeys) ({ ht with arBuckets := fun _ => none }, 0) (by
      rintro ⟨ht, offset⟩ p
      simp only [reindexStep]
      split <;> rfl) listed.linked listed.length_le
  refine ⟨{ ht with
    h, nKeyLength, pNext, pLast, arBuckets
    nNextFreeElement :=
      BitVec.ofNat 64 (renumbered ht.nKeyLength onlyIntegerKeys order).length },
    ?_, ?_, numbering, rfl, rfl⟩
  · rw [← listed.head] at looped
    rw [zendHashReindex, if_neg counted, looped, equal]
    simp
  · exact { listed with
      keyed := by
        intro p member stringKeyed
        have untouched := numbering.outside p fun numbered =>
          stringKeyed (numbering.inside p numbered)
        have old := listed.keyed p member
        simp only at stringKeyed
        simp only [untouched.1, untouched.2] at stringKeyed ⊢
        exact old stringKeyed
      chained := by
        apply chained.congr (fun _ _ => rfl) (fun _ _ => rfl) (fun _ _ => rfl)
        simp }

/-- The effect of renumbering a list whose string-keyed buckets were all in `order`. -/
theorem Renumbered.effect (unique : Prop) {start ht' : HashTable α} {onlyIntegerKeys : Bool}
    {order' : List Nat}
    (numbering : Renumbered ht.h ht.nKeyLength onlyIntegerKeys order' 0 ht'.h ht'.nKeyLength)
    (few : order'.length < 2 ^ 32) (pointers : ht'.arKey = ht.arKey)
    (next : ht'.nNextFreeElement =
      BitVec.ofNat 64 (renumbered ht.nKeyLength onlyIntegerKeys order').length)
    (strings : ∀ p ∈ order', ht.nKeyLength p ≠ 0 → p ∈ order ∧ SameKey start ht p) :
    Effect unique start order ht' order' := by
  have list : ht'.integerKeyed order' = renumbered ht.nKeyLength onlyIntegerKeys order' :=
    numbering.filter_eq
  apply Effect.renumber few
  · intro p member stringKeyed
    have untouched := numbering.outside p fun numbered =>
      stringKeyed (numbering.inside p numbered)
    rw [untouched.2] at stringKeyed
    rcases strings p member stringKeyed with ⟨old, same⟩
    exact ⟨old, untouched.1.trans same.h, untouched.2.trans same.nKeyLength,
      (congrFun pointers p).trans same.arKey⟩
  · rw [list, numbering.numbers]
    apply List.map_congr_left
    intro i _
    simp
  · rw [next, list]

/-- The counter is zero only for an empty list, as long as it has not wrapped. -/
theorem Listed.eq_nil (listed : Listed ht order) (few : order.length < 2 ^ 32)
    (counted : ht.nNumOfElements = 0) : order = [] := by
  rw [listed.count, Nat.mod_eq_of_lt few] at counted
  exact List.length_eq_zero_iff.mp counted

theorem reindex_outcome (unique : Prop) (consistent : Consistent ht order)
    (onlyIntegerKeys : Bool) (few : order.length < 2 ^ 32) :
    Outcome unique ht order order.length (ht.zendHashReindex onlyIntegerKeys) := by
  by_cases counted : ht.nNumOfElements = 0
  · have empty := consistent.eq_nil few counted
    subst empty
    exact ⟨_, [], if_pos counted, { consistent with }, (Effect.clear rfl rfl).toEffects,
      Nat.le_refl _⟩
  · rcases consistent.reindex onlyIntegerKeys counted with
      ⟨ht', equal, result, numbering, pointers, next⟩
    refine ⟨ht', order, equal, result, ?_, Nat.le_refl _⟩
    apply Effect.toEffects
    exact numbering.effect unique few pointers next fun p member _ =>
      ⟨member, SameKey.refl ht p⟩

/-! ### Sorting -/

/-- The loop fills the array up to the largest `int`. -/
theorem fillArTmp_eq {before : Option Nat} {fuel i : Nat}
    (segment : Segment ht.pListNext ht.pListLast before order none)
    (enough : order.length ≤ fuel) (small : i < 2 ^ 31) :
    ht.fillArTmp fuel order.head? i = if i + order.length < 2 ^ 31 then some order else none := by
  induction order generalizing before fuel i with
  | nil =>
      have ends : ht.fillArTmp fuel none i = some [] := by cases fuel <;> rfl
      exact ends.trans (if_pos small).symm
  | cons p rest induction =>
      rcases segment with ⟨_, isNext, later⟩
      cases fuel with
      | zero => simp at enough
      | succ fuel =>
          have isHead : ht.pListNext p = rest.head? := by simpa using isNext
          rw [List.head?_cons, fillArTmp, List.length_cons, isHead]
          by_cases fits : i + 1 < 2 ^ 31
          · rw [counted_eq fits, Option.bind_eq_bind, Option.bind_some,
              induction later (Nat.le_of_succ_le_succ enough) fits]
            split
            · rw [if_pos (by omega)]
              rfl
            · rw [if_neg (by omega)]
              rfl
          · rw [counted_eq_none (by omega), if_neg (by omega)]
            rfl

theorem Consistent.fillArTmp_eq (consistent : Consistent ht order) :
    ht.fillArTmp ht.brk ht.pListHead 0 = if order.length < 2 ^ 31 then some order else none := by
  have filled := HashTable.fillArTmp_eq consistent.linked consistent.length_le
    (by decide : 0 < 2 ^ 31)
  rwa [Nat.zero_add, ← consistent.head] at filled

/-- Writing the links of a list of distinct buckets makes it a list. -/
theorem relinkList_linked (nodes : List Nat) (before : Option Nat) (ht : HashTable α)
    (nodup : nodes.Nodup) :
    ∃ pListNext pListLast,
      ht.relinkList before nodes = { ht with pListNext, pListLast } ∧
      Segment pListNext pListLast before nodes none ∧
      ∀ p, p ∉ nodes → pListNext p = ht.pListNext p ∧ pListLast p = ht.pListLast p := by
  induction nodes generalizing before ht with
  | nil => exact ⟨_, _, rfl, trivial, fun _ _ => ⟨rfl, rfl⟩⟩
  | cons p nodes induction =>
      rcases List.nodup_cons.mp nodup with ⟨notLater, nodup⟩
      rcases induction (some p) { ht with
          pListLast := update ht.pListLast p before
          pListNext := update ht.pListNext p nodes.head? } nodup with
        ⟨pListNext, pListLast, equal, segment, outside⟩
      refine ⟨pListNext, pListLast, equal, ⟨?_, ?_, segment⟩, ?_⟩
      · simpa using (outside p notLater).2
      · simpa using (outside p notLater).1
      · intro q absent
        rw [List.mem_cons, not_or] at absent
        simpa [Function.update_of_ne absent.1] using outside q absent.2

/-- The sorted buckets, linked in their new order. -/
theorem relinkList_consistent (consistent : Consistent ht order) {sorted : List Nat}
    (permutes : sorted.Perm order) :
    Consistent (ht.relinked sorted) sorted := by
  rcases relinkList_linked sorted none ht (permutes.nodup_iff.mpr consistent.nodup)
    with ⟨pListNext, pListLast, equal, segment, _⟩
  rw [relinked, equal]
  exact { consistent with
    nodup := permutes.nodup_iff.mpr consistent.nodup
    allocated := fun p member => consistent.allocated p (permutes.mem_iff.mp member)
    linked := segment
    head := rfl
    tail := rfl
    cursor := fun p isHead => List.mem_of_head? isHead
    keyed := fun p member => consistent.keyed p (permutes.mem_iff.mp member)
    mask := by
      rcases consistent.mask with ⟨uninitialised, empty⟩ | full
      · subst empty
        exact Or.inl ⟨uninitialised, permutes.eq_nil⟩
      · exact Or.inr full
    count := by
      rw [permutes.length_eq]
      exact consistent.count
    chained := consistent.chained.congr (fun _ _ => rfl) (fun _ _ => rfl)
      (fun _ _ => rfl) (fun _ => permutes.mem_iff) }

theorem sort_outcome (unique : Prop) (consistent : Consistent ht order)
    {sortFunc : List Nat → Option (List Nat)} {sorted : List Nat} (renumber : Bool)
    (isSorted : sortFunc order = some sorted) (permutes : sorted.Perm order)
    (few : order.length < 2 ^ 31) :
    Outcome unique ht order order.length (ht.zendHashSort sortFunc renumber) := by
  unfold zendHashSort
  split
  · exact Outcome.refl unique consistent
  · have linked := relinkList_consistent consistent permutes
    have effects : Effects unique ht order (ht.relinked sorted) sorted := by
      rcases relinkList_linked sorted none ht (permutes.nodup_iff.mpr consistent.nodup)
        with ⟨pListNext, pListLast, equal, _, _⟩
      rw [relinked, equal]
      exact effects_of_same unique ht _ (fun p => permutes.mem_iff.mp) rfl rfl rfl rfl
    simp only [consistent.fillArTmp_eq, if_pos few, Option.bind_eq_bind, Option.bind_some,
      isSorted]
    split
    · rcases reindex_outcome unique linked false (by rw [permutes.length_eq]; omega) with
        ⟨ht', order', equal, result, later, bound⟩
      exact ⟨ht', order', equal, result, effects.trans later, permutes.length_eq ▸ bound⟩
    · exact ⟨_, _, rfl, linked, effects, Nat.le_of_eq permutes.length_eq⟩

end HashTable

end PhpRuntime.Hash
