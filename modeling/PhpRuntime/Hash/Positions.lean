import PhpRuntime.Hash.Contents

/-! Positions that are saved and found again: `zend_hash_get_pointer` and
`zend_hash_set_pointer`, as a foreach loop uses them. A saved position is the address of a
bucket and its hash value. -/

namespace PhpRuntime.Hash

open Function (update)

structure HashPointer where
  pos : Option Nat
  h : BitVec 64

namespace HashTable

def zendHashGetPointer (ht : HashTable α) : HashPointer × Bool :=
  match ht.pInternalPointer with
  | some p => (⟨some p, ht.h p⟩, true)
  | none => (⟨none, 0⟩, false)

/-- The table afterwards and the result; `none` if the loop over the chain does not end. -/
def zendHashSetPointer (ht : HashTable α) (ptr : HashPointer) : Option (HashTable α × Bool) :=
  match ptr.pos with
  | none => some ({ ht with pInternalPointer := none }, true)
  | some pos =>
      if ht.pInternalPointer ≠ some pos then do
        match ← ht.searchChain (· == pos) ptr.h with
        | some p => some ({ ht with pInternalPointer := some p }, true)
        | none => some (ht, false)
      else
        some (ht, true)

end HashTable

namespace Op

/-- Inserts, updates, deletions, resizes, sorting without renumbering and cursor moves. -/
def KeepsPositions : Op α → Prop
  | addOrUpdate .. | indexUpdateOrNextInsert .. | del _ | indexDel _ | resize | rehash
  | internalPointerReset | internalPointerEnd | moveForward | moveBackwards => True
  | sort _ renumber => renumber = false
  | _ => False

/-- The operation does not delete the element of the bucket `b`. -/
def Spares (ht : HashTable α) (b : Nat) : Op α → Prop
  | del key => key.bytes ≠ [] ∧ ht.key b ≠ .string key.bytes
  | indexDel h => ht.key b ≠ .index h
  | _ => True

end Op

/-- A run of such operations, which also says whether all of them spare `b`. -/
inductive Walk (b : Nat) : HashTable α → Prop → HashTable α → Prop
  | refl (ht : HashTable α) : Walk b ht True ht
  | step {ht middle ht' : HashTable α} {spares : Prop} (op : Op α)
      (before : Walk b ht spares middle) (keeps : op.KeepsPositions) (valid : op.Valid middle)
      (after : op.run middle = some ht') : Walk b ht (spares ∧ op.Spares middle b) ht'

namespace HashTable

variable {ht ht' : HashTable α} {order order' : List Nat} {b : Nat}

/-- What an operation does to the bucket `b`, which is allocated. -/
structure Spared (b : Nat) (spares : Prop) (ht : HashTable α) (order : List Nat)
    (ht' : HashTable α) (order' : List Nat) : Prop where
  consistent : Consistent ht' order'
  hash : ht'.h b = ht.h b
  allocated : b < ht'.brk
  present : spares → b ∈ order → b ∈ order'
  absent : b ∉ order → b ∉ order'

/-- An operation that leaves the buckets and their hash values alone. -/
theorem follows_of_same {spares : Prop} (consistent : Consistent ht' order')
    (members : ∀ p, p ∈ order' ↔ p ∈ order) (hash : ht'.h = ht.h) (brk : ht'.brk = ht.brk)
    (allocated : b < ht.brk) : Spared b spares ht order ht' order' where
  consistent := consistent
  hash := congrFun hash b
  allocated := brk ▸ allocated
  present := fun _ => (members b).mpr
  absent := fun missing member => missing ((members b).mp member)

/-- An insertion that finds the key stores the element there, or refuses it. -/
theorem stored_follows {spares refused : Prop} [Decidable refused] {p : Nat} {data : α}
    {result : Option (HashTable α × Option Nat)} (consistent : Consistent ht order)
    (allocated : b < ht.brk)
    (equal : result = some (if refused then (ht, none)
      else ({ ht with pData := update ht.pData p data }, some p)))
    (after : result.map Prod.fst = some ht') : ∃ order', Spared b spares ht order ht' order' := by
  rw [equal] at after
  split at after <;> cases after
  · exact ⟨order, follows_of_same consistent (fun _ => Iff.rfl) rfl rfl allocated⟩
  · exact ⟨order, follows_of_same { consistent with } (fun _ => Iff.rfl) rfl rfl allocated⟩

theorem Appended.follows {spares : Prop} {h : BitVec 64} {nKeyLength : Nat} {arKey : ArKey}
    {data : α} {next : BitVec 64} (appended : Appended ht order h nKeyLength arKey data next ht')
    (allocated : b < ht.brk) : Spared b spares ht order ht' (order ++ [ht.brk]) where
  consistent := appended.consistent
  hash := by rw [appended.h, Function.update_of_ne (Nat.ne_of_lt allocated)]
  allocated := Nat.lt_trans allocated
    (appended.consistent.allocated ht.brk (List.mem_append_right _ (List.mem_singleton_self _)))
  present := fun _ => List.mem_append_left _
  absent := by
    intro missing member
    rcases List.mem_append.mp member with old | new
    · exact missing old
    · exact Nat.ne_of_lt allocated (List.mem_singleton.mp new)

theorem delKeyOrIndex_follows {spares : Prop} {key : CallerKey} {h : BitVec 64}
    (consistent : Consistent ht order) (allocated : b < ht.brk)
    (other : spares → b ∈ order → ¬ (ht.h b = h ∧ ht.nKeyLength b = key.nKeyLength ∧
      (ht.nKeyLength b = 0 ∨ key.sameBytes (ht.arKey b) = true)))
    (after : (ht.zendHashDelKeyOrIndex key h).map Prod.fst = some ht') :
    ∃ order', Spared b spares ht order ht' order' := by
  unfold zendHashDelKeyOrIndex at after
  rcases consistent.search_cases (fun p => ht.h p == h && ht.nKeyLength p == key.nKeyLength &&
      (ht.nKeyLength p == 0 || key.sameBytes (ht.arKey p))) h with
    ⟨p, found, member, _, accepted⟩ | ⟨found, _⟩
  · simp only [found, Option.bind_eq_bind, Option.bind_some, Option.map_some,
      Option.some.injEq] at after
    subst after
    obtain ⟨front, back, rfl⟩ := List.append_of_mem member
    have middle : ∀ q, q ∈ front ++ p :: back ↔ q = p ∨ q ∈ front ++ back := by
      intro q
      rw [List.perm_middle.mem_iff, List.mem_cons]
    refine ⟨front ++ back, zendHashBucketDelete_consistent consistent, rfl, allocated, ?_, ?_⟩
    · intro holds inside
      rcases (middle b).mp inside with equal | stays
      · subst equal
        simp only [Bool.and_eq_true, Bool.or_eq_true, beq_iff_eq, and_assoc] at accepted
        exact absurd accepted (other holds member)
      · exact stays
    · exact fun missing stays => missing ((middle b).mpr (.inr stays))
  · simp only [found, Option.bind_eq_bind, Option.bind_some, Option.map_some,
      Option.some.injEq] at after
    subst after
    exact ⟨order, follows_of_same consistent (fun _ => Iff.rfl) rfl rfl allocated⟩

theorem cursor_follows {spares : Prop} {cursor : Option Nat} (consistent : Consistent ht order)
    (allocated : b < ht.brk)
    (outcome : Outcome True ht order order.length (some { ht with pInternalPointer := cursor })) :
    ∃ order', Spared b spares ht order { ht with pInternalPointer := cursor } order' := by
  obtain ⟨ht', order', equal, moved, -, -⟩ := outcome
  cases equal
  have same : order' = order := moved.elements_eq.symm.trans consistent.elements_eq
  exact ⟨order', follows_of_same moved (fun _ => by rw [same]) rfl rfl allocated⟩

/-- One step of a run. -/
theorem op_follows {op : Op α} (consistent : Consistent ht order) (allocated : b < ht.brk)
    (keeps : op.KeepsPositions) (valid : op.Valid ht) (after : op.run ht = some ht') :
    ∃ order', Spared b (op.Spares ht b) ht order ht' order' := by
  cases op with
  | addOrUpdate key data flag =>
      change (ht.zendHashQuickAddOrUpdate key _ data flag).map Prod.fst = some ht' at after
      rcases quickAddOrUpdate_spec consistent key data flag with
        ⟨p, _, _, _, equal⟩ | ⟨_, grown, equal, appended⟩
      · exact stored_follows consistent allocated equal after
      · rw [equal] at after
        cases after
        exact ⟨_, appended.follows allocated⟩
  | indexUpdateOrNextInsert h data flag =>
      change (ht.zendHashIndexUpdateOrNextInsert h data flag).map Prod.fst = some ht' at after
      rcases indexUpdateOrNextInsert_spec consistent h data flag _ rfl with
        ⟨p, _, _, equal⟩ | ⟨_, grown, equal, appended⟩
      · exact stored_follows consistent allocated equal after
      · rw [equal] at after
        cases after
        exact ⟨_, appended.follows allocated⟩
  | del key =>
      apply delKeyOrIndex_follows consistent allocated _ after
      intro spares member matched
      obtain ⟨-, length, bytes⟩ := matched
      have nonempty : ht.nKeyLength b ≠ 0 := by
        rw [length]
        exact fun zero => spares.1 (List.length_eq_zero_iff.mp zero)
      have stored := (consistent.keyed b member nonempty).1
      have same := bytes.resolve_left nonempty
      rw [CallerKey.sameBytes, beq_iff_eq, List.take_of_length_le (by omega)] at same
      apply spares.2
      rw [HashTable.key, if_neg nonempty, same]
  | indexDel h =>
      apply delKeyOrIndex_follows consistent allocated _ after
      intro different _ matched
      apply different
      have integer : ht.nKeyLength b = 0 := matched.2.1
      rw [HashTable.key, if_pos integer, matched.1]
  | resize =>
      obtain ⟨_, _, _, _, _, equal, result⟩ := ifFullDoResize_consistent consistent
      cases equal.symm.trans after
      exact ⟨order, follows_of_same result (fun _ => Iff.rfl) rfl rfl allocated⟩
  | rehash =>
      obtain ⟨_, _, _, equal, result⟩ := zendHashRehash_consistent consistent
      cases equal.symm.trans after
      exact ⟨order, follows_of_same result (fun _ => Iff.rfl) rfl rfl allocated⟩
  | internalPointerReset =>
      cases after
      exact cursor_follows consistent allocated (pointerReset_outcome True consistent)
  | internalPointerEnd =>
      cases after
      exact cursor_follows consistent allocated (pointerEnd_outcome True consistent)
  | moveForward =>
      cases after
      exact cursor_follows consistent allocated (moveForward_outcome True consistent)
  | moveBackwards =>
      cases after
      exact cursor_follows consistent allocated (moveBackwards_outcome True consistent)
  | sort sortFunc renumber =>
      cases keeps
      have permutes : (sortFunc order).Perm order := by
        have permutes : (sortFunc ht.elements).Perm ht.elements := valid
        rwa [consistent.elements_eq] at permutes
      change ht.zendHashSort (some ∘ sortFunc) false = some ht' at after
      unfold zendHashSort at after
      split at after
      · cases after
        exact ⟨order, follows_of_same consistent (fun _ => Iff.rfl) rfl rfl allocated⟩
      · rw [consistent.fillArTmp_eq] at after
        split at after
        · cases after
          obtain ⟨pListNext, pListLast, equal, _, _⟩ :=
            relinkList_linked (sortFunc order) none ht (permutes.nodup_iff.mpr consistent.nodup)
          apply Exists.intro (sortFunc order)
          apply follows_of_same (relinkList_consistent consistent permutes)
            (fun _ => permutes.mem_iff) _ _ allocated
          · rw [relinked, equal]
          · rw [relinked, equal]
        · cases after
  | _ => exact absurd keeps id

/-- A whole run. -/
theorem walk_follows {spares : Prop} (walk : Walk b ht spares ht')
    (consistent : Consistent ht order) (allocated : b < ht.brk) :
    ∃ order', Spared b spares ht order ht' order' := by
  induction walk with
  | refl => exact ⟨order, follows_of_same consistent (fun _ => Iff.rfl) rfl rfl allocated⟩
  | step op before keeps valid after induction =>
      obtain ⟨middle, first⟩ := induction
      obtain ⟨last, second⟩ := op_follows first.consistent first.allocated keeps valid after
      exact ⟨last, second.consistent, second.hash.trans first.hash, second.allocated,
        fun spares inside => second.present spares.2 (first.present spares.1 inside),
        fun missing => second.absent (first.absent missing)⟩

/-- A bucket that is listed is found under its hash value, and no other one is. -/
theorem setPointer_eq (consistent : Consistent ht order) {h : BitVec 64}
    (hash : b ∈ order → ht.h b = h) :
    ht.zendHashSetPointer ⟨some b, h⟩ =
      some (if b ∈ order then ({ ht with pInternalPointer := some b }, true) else (ht, false)) := by
  unfold zendHashSetPointer
  dsimp only
  by_cases current : ht.pInternalPointer = some b
  · rw [if_neg (not_not.mpr current), if_pos (consistent.cursor b current), ← current]
  · rw [if_pos current]
    rcases consistent.search_cases (· == b) h with
      ⟨p, found, member, _, accepted⟩ | ⟨found, rejected⟩
    · cases beq_iff_eq.mp accepted
      rw [found, if_pos member]
      rfl
    · rw [found, if_neg]
      · rfl
      · intro member
        have refused := rejected b member (by rw [slot, hash member])
        simp at refused

/-- A position saved in `ht` is found again after a run that spares its bucket, and is not
found after a run that has deleted it. -/
theorem zendHashSetPointer_recovers (ht ht' : HashTable α) (order : List Nat) (b : Nat)
    (spares : Prop) (consistent : Consistent ht order) (cursor : ht.pInternalPointer = some b)
    (walk : Walk b ht spares ht') :
    (spares → ht'.zendHashSetPointer ht.zendHashGetPointer.1 =
        some ({ ht' with pInternalPointer := some b }, true)) ∧
      (b ∉ ht'.elements → ht'.zendHashSetPointer ht.zendHashGetPointer.1 = some (ht', false)) := by
  have member := consistent.cursor b cursor
  obtain ⟨order', follows⟩ := walk_follows walk consistent (consistent.allocated b member)
  have saved : ht.zendHashGetPointer.1 = ⟨some b, ht.h b⟩ := by
    rw [zendHashGetPointer, cursor]
  rw [saved, setPointer_eq follows.consistent fun _ => follows.hash]
  constructor
  · intro holds
    rw [if_pos (follows.present holds member)]
  · intro deleted
    rw [follows.consistent.elements_eq] at deleted
    rw [if_neg deleted]

/-- A cursor that has moved on and comes back. -/
theorem zendHashSetPointer_after_move :
    ∃ ht : HashTable Unit, ht.pInternalPointer = some 0 ∧
      ht.zendHashMoveForward.zendHashSetPointer ht.zendHashGetPointer.1 =
        some ({ ht.zendHashMoveForward with pInternalPointer := some 0 }, true) := by
  have played : ((playFitting ((blankMemory ()).zendHashInit 8)
      [.indexUpdateOrNextInsert 7 () .update, .indexUpdateOrNextInsert 15 () .update]).map
        pInternalPointer) = some (some 0) := by decide +kernel
  obtain ⟨ht, plays, cursor⟩ := Option.map_eq_some_iff.mp played
  have consistent := (proper_of_reachable (reachable_of_play rfl plays)).toConsistent
  exact ⟨ht, cursor, (zendHashSetPointer_recovers ht ht.zendHashMoveForward ht.elements 0 _
    consistent cursor (.step .moveForward (.refl ht) trivial trivial rfl)).1 ⟨trivial, trivial⟩⟩

end HashTable

end PhpRuntime.Hash
