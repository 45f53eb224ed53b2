import PhpRuntime.Hash.Contents
import PhpRuntime.Foundation.Pairs

/-! What an insertion does to the pairs of a table and to its internal pointer. -/

namespace PhpRuntime.Hash

open Function (update)
open PhpRuntime.Linked
open PhpRuntime.Pairs (upsert)

namespace HashTable

variable {ht ht' source : HashTable α} {order order' sourceOrder : List Nat} {p : Nat}

/-! ### The internal pointer -/

theorem ifFullDoResize_cursor (resized : ht.ifFullDoResize = some ht') :
    ht'.pInternalPointer = ht.pInternalPointer := by
  have rehashed : ∀ start : HashTable α, start.zendHashRehash = some ht' →
      ht'.pInternalPointer = start.pInternalPointer := by
    intro start equal
    unfold zendHashRehash at equal
    split at equal
    · cases equal
      rfl
    · exact (forEach_keeps pInternalPointer (fun ht p => (rfl :
        (rehashStep ht p).pInternalPointer = ht.pInternalPointer)) equal).trans rfl
  unfold ifFullDoResize at resized
  split at resized
  · simp only [zendHashDoResize] at resized
    split at resized
    · have kept := rehashed _ resized
      exact kept
    · cases resized
      rfl
  · cases resized
    rfl

@[simp] theorem checkInit_pInternalPointer (ht : HashTable α) :
    ht.checkInit.pInternalPointer = ht.pInternalPointer := by
  unfold checkInit
  split <;> rfl

theorem entry_ne_brk (consistent : Consistent ht order) (member : p ∈ order)
    {made : HashTable α} : some (made, some p) ≠ some (ht', some ht.brk) := by
  intro inserted
  have isNew : p = ht.brk := by simpa using congrArg (Option.map Prod.snd) inserted
  exact consistent.brk_notMem (isNew ▸ member)

theorem newEntry_cursor {made : HashTable α} {entry : Option Nat}
    (cursor : made.pInternalPointer = ht.checkInit.pInternalPointer.or (some ht.checkInit.brk))
    (inserted : (made.ifFullDoResize.bind fun resized => some (resized, entry)) =
      some (ht', some ht.brk)) :
    ht'.pInternalPointer = ht.pInternalPointer.or (some ht.brk) := by
  rcases Option.bind_eq_some_iff.mp inserted with ⟨resized, isResized, equal⟩
  have isTable : resized = ht' := congrArg Prod.fst (Option.some.inj equal)
  rw [← isTable, ifFullDoResize_cursor isResized, cursor]
  simp

/-- A new bucket takes the internal pointer if that was free. -/
theorem quickAddOrUpdate_cursor (consistent : Consistent ht order) {key : CallerKey}
    {h : BitVec 64} {data : α} {flag : InsertFlag}
    (inserted : ht.zendHashQuickAddOrUpdate key h data flag = some (ht', some ht.brk)) :
    ht'.pInternalPointer = ht.pInternalPointer.or (some ht.brk) := by
  rcases (checkInit_consistent consistent).search_cases (ht.checkInit.keyMatches key h) h
    with ⟨q, found, member, _⟩ | ⟨found, _⟩ <;>
    simp only [zendHashQuickAddOrUpdate, found, Option.bind_eq_bind, Option.bind_some]
      at inserted
  · split at inserted
    · cases inserted
    · exact absurd inserted (entry_ne_brk consistent member)
  · exact newEntry_cursor rfl inserted

theorem indexUpdateOrNextInsert_cursor (consistent : Consistent ht order) {h : BitVec 64}
    {data : α} {flag : InsertFlag}
    (inserted : ht.zendHashIndexUpdateOrNextInsert h data flag = some (ht', some ht.brk)) :
    ht'.pInternalPointer = ht.pInternalPointer.or (some ht.brk) := by
  simp only [zendHashIndexUpdateOrNextInsert] at inserted
  generalize (if flag = .nextInsert then ht.checkInit.nNextFreeElement else h) = target
    at inserted
  rcases (checkInit_consistent consistent).search_cases (ht.checkInit.indexMatches target)
    target with ⟨q, found, member, _⟩ | ⟨found, _⟩ <;>
    simp only [found, Option.bind_eq_bind, Option.bind_some] at inserted
  · split at inserted
    · cases inserted
    · exact absurd inserted (entry_ne_brk consistent member)
  · exact newEntry_cursor rfl inserted

/-! ### Pairs -/

theorem keys_map_pair (ht : HashTable α) (order : List Nat) :
    Pairs.keys (order.map ht.pair) = order.map ht.key := by
  rw [Pairs.keys, List.map_map]
  rfl

theorem Distinct.nodup_keys (distinct : Distinct ht order) (nodup : order.Nodup) :
    (Pairs.keys (order.map ht.pair)).Nodup := by
  rw [keys_map_pair]
  exact List.Nodup.map_on (fun p pMember q qMember => distinct p pMember q qMember) nodup

theorem distinct_of_nodup (nodup : (Pairs.keys (order.map ht.pair)).Nodup) :
    Distinct ht order := by
  rw [keys_map_pair] at nodup
  exact fun p pMember q qMember equal => List.inj_on_of_nodup_map nodup pMember qMember equal

theorem SameKey.trans {middle : HashTable α} {q : Nat} (first : SameKey ht middle q)
    (second : SameKey middle ht' q) : SameKey ht ht' q :=
  ⟨second.h.trans first.h, second.nKeyLength.trans first.nKeyLength,
    second.arKey.trans first.arKey⟩

/-- `nNextFreeElement` after a new bucket got the key. -/
def nextFor (ht : HashTable α) : Key → BitVec 64
  | .index h => nextFreeAfter ht.nNextFreeElement h
  | .string _ => ht.nNextFreeElement

/-- The table `ht'` is `ht` after `data` was stored under `key`. -/
structure Stored (overwrite : Bool) (ht : HashTable α) (order : List Nat) (key : Key) (data : α)
    (ht' : HashTable α) (order' : List Nat) : Prop where
  consistent : Consistent ht' order'
  pairs : order'.map ht'.pair = upsert overwrite (order.map ht.pair) (key, data)
  same : ∀ q ∈ order, SameKey ht ht' q
  grown : order' = order ∧ ht'.pInternalPointer = ht.pInternalPointer ∨
    order' = order ++ [ht.brk] ∧ ht'.key ht.brk = key ∧
      ht'.pInternalPointer = ht.pInternalPointer.or (some ht.brk) ∧
      (ht'.nKeyLength ht.brk = 0 → ht'.arKey ht.brk = .null) ∧
      ht'.nNextFreeElement = ht.nextFor key

/-- The value of a bucket that is there already is overwritten or left alone. -/
theorem stored_found (consistent : Consistent ht order) (distinct : Distinct ht order)
    (member : p ∈ order) (overwrite : Bool) (data : α) :
    Stored overwrite ht order (ht.key p) data
      (if overwrite then { ht with pData := update ht.pData p data } else ht) order := by
  have present : ht.key p ∈ Pairs.keys (order.map ht.pair) := by
    rw [keys_map_pair]
    exact List.mem_map_of_mem member
  cases overwrite with
  | false =>
      exact ⟨consistent, by simp [upsert, present], fun q _ => SameKey.refl ht q,
        Or.inl ⟨rfl, rfl⟩⟩
  | true =>
      refine ⟨{ consistent with }, ?_, fun q _ => ⟨rfl, rfl, rfl⟩, Or.inl ⟨rfl, rfl⟩⟩
      simp only [upsert, if_pos present, if_true, List.map_map]
      apply List.map_congr_left
      intro q qMember
      simp only [Function.comp_apply]
      by_cases same : q = p
      · subst same
        simp [pair, HashTable.key]
      · have other : (ht.pair q).1 ≠ ht.key p := fun equal =>
          same (distinct q qMember p member equal)
        rw [if_neg other]
        exact SameKey.pair ⟨rfl, rfl, rfl⟩ (Function.update_of_ne same _ _)

/-- A new bucket holds the value under a key that no other bucket has. -/
theorem Appended.stored {h : BitVec 64} {nKeyLength : Nat} {arKey : ArKey} {data : α}
    {next : BitVec 64} (appended : Appended ht order h nKeyLength arKey data next ht')
    (listed : Listed ht order) (overwrite : Bool) {key : Key} (isKey : ht'.key ht.brk = key)
    (fresh : ∀ q ∈ order, ht.key q ≠ key) (null : nKeyLength = 0 → arKey = .null)
    (cursor : ht'.pInternalPointer = ht.pInternalPointer.or (some ht.brk))
    (isNext : next = ht.nextFor key) (copyConstructor : α → α) :
    Stored overwrite ht order key (copyConstructor data)
      (ht'.construct copyConstructor (some ht.brk)) (order ++ [ht.brk]) := by
  have absent : key ∉ Pairs.keys (order.map ht.pair) := by
    rw [keys_map_pair]
    intro present
    rcases List.mem_map.mp present with ⟨q, member, equal⟩
    exact fresh q member equal
  have same : ∀ q ∈ order, SameKey ht (ht'.construct copyConstructor (some ht.brk)) q :=
    fun q member => (appended.sameKey listed member).trans
      (construct_sameKey ht' copyConstructor (some ht.brk) q)
  refine ⟨construct_consistent appended.consistent copyConstructor _, ?_, same,
    Or.inr ⟨rfl, isKey, cursor, ?_, appended.next.trans isNext⟩⟩
  · rw [upsert, if_neg absent, List.map_append]
    congr 1
    · apply List.map_congr_left
      intro q member
      have different : q ≠ ht.brk := fun equal => listed.brk_notMem (equal ▸ member)
      have sameData : (ht'.construct copyConstructor (some ht.brk)).pData q = ht.pData q := by
        simp [construct, appended.pData, Function.update_of_ne different]
      exact (same q member).pair sameData
    · have isPair : (ht'.construct copyConstructor (some ht.brk)).pair ht.brk =
          (key, copyConstructor data) := by
        rw [← isKey]
        simp [pair, construct, appended.pData, HashTable.key]
      simp [isPair]
  · intro integer
    have length : nKeyLength = 0 := by simpa [construct, appended.nKeyLength] using integer
    simp [construct, appended.arKey, null length]

theorem construct_found (ht : HashTable α) (p : Nat) (data : α) (copyConstructor : α → α) :
    ({ ht with pData := update ht.pData p data }.construct copyConstructor (some p)) =
      { ht with pData := update ht.pData p (copyConstructor data) } := by
  simp [construct]

theorem Stored.distinct {overwrite : Bool} {key : Key} {data : α}
    (stored : Stored overwrite ht order key data ht' order') (consistent : Consistent ht order)
    (distinct : Distinct ht order) : Distinct ht' order' := by
  apply distinct_of_nodup
  rw [stored.pairs]
  exact Pairs.nodup_upsert (distinct.nodup_keys consistent.nodup)

/-! ### Storing a bucket of another table -/

section FromTable

variable (consistent : Consistent ht order) (distinct : Distinct ht order)

/-- The table after storing the value of `p` under its own key, or under the key of the
stale bucket at which the lookup stopped. -/
def StoredFrom (overwrite : Bool) (source ht : HashTable α) (order : List Nat) (p : Nat)
    (data : α) (ht' : HashTable α) (order' : List Nat) : Prop :=
  ∃ key, Stored overwrite ht order key data ht' order' ∧
    ((¬ ∃ s, Hides source ht p s) ∧ key = source.key p ∨
      ∃ s ∈ order, Hides source ht p s ∧ key = ht.key s)

include consistent distinct in
theorem stringCopy_stored (sourceListed : Listed source sourceOrder) (member : p ∈ sourceOrder)
    (stringKeyed : source.nKeyLength p ≠ 0) (overwrite : Bool) (copyConstructor : α → α) :
    ∃ ht' order', ht.copyFrom source p (if overwrite then .update else .add) copyConstructor =
        some ht' ∧
      StoredFrom overwrite source ht order p (copyConstructor (source.pData p)) ht' order' := by
  rcases callerKey_bytes sourceListed member stringKeyed with ⟨bytes, nonempty, hash⟩
  have isKey : source.key p = .string (source.callerKey p).bytes := by
    simp [HashTable.key, stringKeyed, bytes]
  have isOrder := consistent.elements_eq
  rcases consistent.search_found (source.callerKey p) nonempty with ⟨found, isFound, result⟩
  have visible : ∀ q, found = some q → (∀ s, HiddenBy ht (source.callerKey p) s → q = s) := by
    intro q isQ s hidden
    rw [isQ, consistent.search_hidden nonempty hidden] at isFound
    exact (Option.some.inj (Option.some.inj isFound)).symm
  rcases quickAddOrUpdate_spec consistent (source.callerKey p) (source.pData p)
    (if overwrite then .update else .add) with
    ⟨q, inside, _, searched, equal⟩ | ⟨rejected, ht', equal, appended⟩
  · rw [isFound] at searched
    have isQ : found = some q := Option.some.inj searched
    have stored := stored_found consistent distinct inside overwrite
      (copyConstructor (source.pData p))
    refine ⟨_, order, ?_, ht.key q, stored, ?_⟩
    · rw [copyFrom, insertFrom, if_pos stringKeyed, hash, equal]
      cases overwrite with
      | false => rfl
      | true => simp [construct_found]
    · rw [isQ] at result
      cases result with
      | real _ _ same =>
          refine Or.inl ⟨?_, same.trans isKey.symm⟩
          rintro ⟨s, _, hidden⟩
          rw [visible q isQ s hidden, hidden.key_eq] at same
          cases same
      | stale _ _ hidden => exact Or.inr ⟨q, inside, ⟨stringKeyed, hidden⟩, rfl⟩
  · have fresh : ∀ q ∈ order, ht.key q ≠ source.key p := by
      intro q inside same
      have accepted := keyMatches_of_key consistent.toListed inside (same.trans isKey)
      have refused := rejected q inside accepted.1
      rw [accepted.2] at refused
      cases refused
    have length : (source.callerKey p).nKeyLength ≠ 0 := by
      simpa [CallerKey.nKeyLength] using nonempty
    have newKey : ht'.key ht.brk = source.key p := by
      rw [appended.key, if_neg length, stored_bytes, isKey]
    refine ⟨_, _, ?_, source.key p, appended.stored consistent.toListed overwrite newKey fresh
      (fun zero => absurd zero length) (quickAddOrUpdate_cursor consistent equal)
      (by rw [isKey]; rfl) copyConstructor, Or.inl ⟨?_, rfl⟩⟩
    · rw [copyFrom, insertFrom, if_pos stringKeyed, hash, equal]
      rfl
    · rintro ⟨s, _, hidden⟩
      have isStale := consistent.search_hidden nonempty hidden
      rcases hidden with ⟨front, back, isChain, _, pointer, _⟩
      rcases consistent.search_cases (ht.keyMatches (source.callerKey p)
        (zendInlineHashFunc (source.callerKey p).bytes))
        (zendInlineHashFunc (source.callerKey p).bytes) with
        ⟨t, isT, inside, inSlot, accepted⟩ | ⟨notFound, _⟩
      · rw [rejected t inside inSlot] at accepted
        cases accepted
      · rw [notFound] at isStale
        cases isStale

include consistent distinct in
theorem indexUpdate_stored (h : BitVec 64) (data : α) (copyConstructor : α → α) :
    ∃ ht' entry order', ht.zendHashIndexUpdateOrNextInsert h data .update =
        some (ht', entry) ∧
      Stored true ht order (.index h) (copyConstructor data)
        (ht'.construct copyConstructor entry) order' := by
  rcases indexUpdateOrNextInsert_spec consistent h data .update h rfl with
    ⟨q, inside, same, equal⟩ | ⟨fresh, ht', equal, appended⟩
  · refine ⟨_, _, order, equal, ?_⟩
    have stored := stored_found consistent distinct inside true (copyConstructor data)
    rw [same] at stored
    simpa [construct_found] using stored
  · have newKey : ht'.key ht.brk = .index h := by rw [appended.key, if_pos rfl]
    exact ⟨_, _, _, equal, appended.stored consistent.toListed true newKey fresh
      (fun _ => rfl) (indexUpdateOrNextInsert_cursor consistent equal) rfl copyConstructor⟩

include consistent distinct in
theorem indexCopy_stored (integer : source.nKeyLength p = 0) (flag : InsertFlag)
    (copyConstructor : α → α) :
    ∃ ht' order', ht.copyFrom source p flag copyConstructor = some ht' ∧
      Stored true ht order (source.key p) (copyConstructor (source.pData p)) ht' order' := by
  have isKey : source.key p = .index (source.h p) := by simp [HashTable.key, integer]
  rw [isKey]
  rcases indexUpdate_stored consistent distinct (source.h p) (source.pData p) copyConstructor
    with ⟨ht', entry, order', equal, stored⟩
  refine ⟨_, order', ?_, stored⟩
  rw [copyFrom, insertFrom, if_neg (by simp [integer]), equal]
  rfl

theorem not_hides_of_integer (integer : source.nKeyLength p = 0) :
    ¬ ∃ s, Hides source ht p s := by
  rintro ⟨s, stringKeyed, _⟩
  exact stringKeyed integer

include consistent distinct in
theorem copyFrom_stored (sourceListed : Listed source sourceOrder) (member : p ∈ sourceOrder)
    (copyConstructor : α → α) :
    ∃ ht' order', ht.copyFrom source p .update copyConstructor = some ht' ∧
      StoredFrom true source ht order p (copyConstructor (source.pData p)) ht' order' := by
  by_cases integer : source.nKeyLength p = 0
  · rcases indexCopy_stored consistent distinct integer .update copyConstructor with
      ⟨ht', order', equal, stored⟩
    exact ⟨ht', order', equal, _, stored, Or.inl ⟨not_hides_of_integer integer, rfl⟩⟩
  · exact stringCopy_stored consistent distinct sourceListed member integer true
      copyConstructor

end FromTable

/-! ### Tables without stale buckets -/

/-- Integer-keyed buckets carry no pointer. -/
def Clean (ht : HashTable α) (order : List Nat) : Prop :=
  ∀ q ∈ order, ht.nKeyLength q = 0 → ht.arKey q = .null

theorem Clean.not_hides (clean : Clean ht order) (consistent : Consistent ht order) :
    ¬ ∃ s, Hides source ht p s := by
  rintro ⟨s, stringKeyed, front, back, isChain, integer, pointer, _⟩
  rcases consistent.search_eq (fun _ => true)
    (zendInlineHashFunc (source.callerKey p).bytes) with ⟨chain, isChain', _, members⟩
  rw [isChain] at isChain'
  cases isChain'
  have inList := ((members s).mp (by simp)).1
  rw [clean s inList integer] at pointer
  simp [CallerKey.samePointer] at pointer

theorem Stored.clean {overwrite : Bool} {key : Key} {data : α}
    (stored : Stored overwrite ht order key data ht' order') (clean : Clean ht order) :
    Clean ht' order' := by
  have old : ∀ q ∈ order, ht'.nKeyLength q = 0 → ht'.arKey q = .null := by
    intro q member integer
    have same := stored.same q member
    rw [same.arKey]
    exact clean q member (same.nKeyLength ▸ integer)
  rcases stored.grown with ⟨rfl, _⟩ | ⟨rfl, _, _, null, _⟩
  · exact old
  · intro q member integer
    rcases List.mem_append.mp member with isOld | isNew
    · exact old q isOld integer
    · rw [List.mem_singleton.mp isNew] at integer ⊢
      exact null integer

end HashTable

end PhpRuntime.Hash
