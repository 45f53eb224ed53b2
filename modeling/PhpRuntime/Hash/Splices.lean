import PhpRuntime.Hash.Storing

/-! `_zend_hash_splice` as an operation on the pairs of a table. -/

namespace PhpRuntime.Hash

open Function (update)
open PhpRuntime.Linked
open PhpRuntime.Integers
open PhpRuntime.Pairs (upsert)

def Key.isIndex : Key → Bool
  | .index _ => true
  | .string _ => false

/-- Integer keys are given anew, from `next` on; string keys stay. -/
def renumberFrom (next : BitVec 64) : List (Key × α) → List (Key × α)
  | [] => []
  | (.index _, data) :: pairs => (.index next, data) :: renumberFrom (next + 1) pairs
  | (.string bytes, data) :: pairs => (.string bytes, data) :: renumberFrom next pairs

/-- How many pairs have an integer key. -/
def indexCount (pairs : List (Key × α)) : Nat := pairs.countP fun pair => pair.1.isIndex

theorem indexCount_append (front back : List (Key × α)) :
    indexCount (front ++ back) = indexCount front + indexCount back := List.countP_append

@[simp] theorem length_renumberFrom (next : BitVec 64) (pairs : List (Key × α)) :
    (renumberFrom next pairs).length = pairs.length := by
  induction pairs generalizing next with
  | nil => rfl
  | cons pair pairs induction =>
      rcases pair with ⟨_ | _, _⟩ <;> simp [renumberFrom, induction]

theorem renumberFrom_append (next : BitVec 64) (front back : List (Key × α)) :
    renumberFrom next (front ++ back) =
      renumberFrom next front ++
        renumberFrom (next + BitVec.ofNat 64 (indexCount front)) back := by
  induction front generalizing next with
  | nil => simp [renumberFrom, indexCount]
  | cons pair front induction =>
      rcases pair with ⟨h | bytes, data⟩
      · rw [List.cons_append, renumberFrom, renumberFrom, induction, List.cons_append,
          BitVec.add_assoc]
        congr 3
        simp [indexCount, Key.isIndex, BitVec.ofNat_add, BitVec.add_comm]
      · rw [List.cons_append, renumberFrom, renumberFrom, induction, List.cons_append]
        simp [indexCount, Key.isIndex]

@[simp] theorem indexCount_renumberFrom (next : BitVec 64) (pairs : List (Key × α)) :
    indexCount (renumberFrom next pairs) = indexCount pairs := by
  induction pairs generalizing next with
  | nil => rfl
  | cons pair pairs induction =>
      rcases pair with ⟨h | bytes, data⟩
      · have inner := induction (next + 1)
        simpa [renumberFrom, indexCount, Key.isIndex] using inner
      · have inner := induction next
        simpa [renumberFrom, indexCount, Key.isIndex] using inner

theorem renumberFrom_strings (next : BitVec 64) {pairs : List (Key × α)}
    (strings : indexCount pairs = 0) : renumberFrom next pairs = pairs := by
  induction pairs with
  | nil => rfl
  | cons pair pairs induction =>
      rcases pair with ⟨h | bytes, data⟩
      · simp [indexCount, Key.isIndex] at strings
      · rw [renumberFrom, induction (by simpa [indexCount, Key.isIndex] using strings)]

/-- The pairs of a splice: `offset` of the old ones, the new ones, and those behind the
removed ones. -/
def splicedPairs (pairs : List (Key × α)) (offset length : Nat) (values : List α) :
    List (Key × α) :=
  renumberFrom 0 (pairs.take offset ++ values.map (fun data => (.index 0, data)) ++
    pairs.drop (offset + length))

/-- The elements that a splice removes. -/
def slice (elements : List β) (offset length : Nat) : List β :=
  (elements.drop offset).take length

namespace HashTable

variable {ht ht' : HashTable α} {order order' front back : List Nat} {p : Nat}

theorem pair_index (integer : ht.nKeyLength p = 0) :
    ht.pair p = (.index (ht.h p), ht.pData p) := by
  simp [pair, HashTable.key, integer]

theorem pair_string (stringKeyed : ht.nKeyLength p ≠ 0) :
    ht.pair p = (.string (ht.arKey p).bytes, ht.pData p) := by
  simp [pair, HashTable.key, stringKeyed]

theorem indexCount_eq (ht : HashTable α) (order : List Nat) :
    indexCount (order.map ht.pair) = (ht.integerKeyed order).length := by
  rw [indexCount, List.countP_map, integerKeyed, ← List.countP_eq_length_filter]
  apply List.countP_congr
  intro q _
  by_cases integer : ht.nKeyLength q = 0
  · simp [pair_index integer, Key.isIndex, integer]
  · simp [pair_string integer, Key.isIndex, integer]

/-! ### Renumbering -/

/-- The pairs of a list whose integer keys got the numbers from `next` on. -/
theorem renumbered_pairs (next : BitVec 64)
    (strings : ∀ q ∈ order, ht.nKeyLength q ≠ 0 → SameKey ht ht' q)
    (integers : ∀ q ∈ order, ht.nKeyLength q = 0 → ht'.nKeyLength q = 0)
    (numbers : (ht.integerKeyed order).map ht'.h =
      (List.range (ht.integerKeyed order).length).map fun i => next + BitVec.ofNat 64 i)
    (sameData : ∀ q ∈ order, ht'.pData q = ht.pData q) :
    order.map ht'.pair = renumberFrom next (order.map ht.pair) := by
  induction order generalizing next with
  | nil => rfl
  | cons q order induction =>
      have later : ∀ r ∈ order, r ∈ q :: order := fun r member => List.mem_cons_of_mem _ member
      have inner := fun next numbers => induction next (fun r member => strings r (later r member))
        (fun r member => integers r (later r member)) numbers
        (fun r member => sameData r (later r member))
      have own := sameData q List.mem_cons_self
      by_cases integer : ht.nKeyLength q = 0
      · have list : ht.integerKeyed (q :: order) = q :: ht.integerKeyed order := by
          simp [integerKeyed, integer]
        rw [list, List.map_cons, List.length_cons, List.range_succ_eq_map, List.map_cons,
          List.map_map] at numbers
        have parts := List.cons.inj numbers
        have isNumber : ht'.h q = next := by simpa using parts.1
        have integer' := integers q List.mem_cons_self integer
        rw [List.map_cons, List.map_cons, pair_index integer, pair_index integer', isNumber, own,
          renumberFrom, inner (next + 1)]
        rw [parts.2]
        apply List.map_congr_left
        intro i _
        simp only [Function.comp_apply, Nat.succ_eq_add_one, BitVec.ofNat_add]
        rw [BitVec.add_assoc, BitVec.add_comm 1]
        rfl
      · have list : ht.integerKeyed (q :: order) = ht.integerKeyed order := by
          simp [integerKeyed, integer]
        rw [list] at numbers
        have same := strings q List.mem_cons_self integer
        rw [List.map_cons, List.map_cons, pair_string integer, same.pair own,
          pair_string integer, renumberFrom, inner next numbers]

theorem reindex_pData {onlyIntegerKeys : Bool}
    (reindexed : ht.zendHashReindex onlyIntegerKeys = some ht') : ht'.pData = ht.pData := by
  unfold zendHashReindex at reindexed
  split at reindexed
  · cases reindexed
    rfl
  · rcases Option.bind_eq_some_iff.mp reindexed with ⟨⟨final, offset⟩, looped, equal⟩
    cases equal
    have kept := forEach_keeps (fun state : HashTable α × BitVec 64 => state.1.pData) (by
      rintro ⟨ht, offset⟩ p
      simp only [reindexStep]
      split <;> rfl) looped
    exact kept

/-- Renumbering a list; the counter may be wrong by a multiple of 2^32. -/
theorem Listed.reindex_contents (listed : Listed ht order) :
    ∃ ht', ht.zendHashReindex true = some ht' ∧
      ht'.nNumOfElements = order.length % 2 ^ 32 ∧
      (order.length < 2 ^ 32 → ht'.contents = renumberFrom 0 (order.map ht.pair) ∧
        ht'.nNextFreeElement = BitVec.ofNat 64 (indexCount (order.map ht.pair))) := by
  by_cases counted : ht.nNumOfElements = 0
  · refine ⟨{ ht with nNextFreeElement := 0 }, if_pos counted, listed.count, ?_⟩
    intro few
    have empty := listed.eq_nil few counted
    subst empty
    have still : Listed { ht with nNextFreeElement := 0 } [] := { listed with }
    exact ⟨still.contents_eq, rfl⟩
  · rcases listed.reindex true counted with
      ⟨ht', equal, consistent, numbering, pointers, next⟩
    have list : renumbered ht.nKeyLength true order = ht.integerKeyed order := by
      simp [renumbered, integerKeyed]
    have sameData := reindex_pData equal
    refine ⟨ht', equal, consistent.count, fun _ => ⟨?_, ?_⟩⟩
    · rw [consistent.contents_eq]
      apply renumbered_pairs
      · intro q _ stringKeyed
        have untouched := numbering.outside q (by
          simp [renumbered, stringKeyed])
        exact ⟨untouched.1, untouched.2, congrFun pointers q⟩
      · intro q member integer
        exact numbering.inside q (by simp [renumbered, member, integer])
      · rw [← list]
        exact numbering.numbers
      · intro q _
        exact congrFun sameData q
    · rw [next, list, indexCount_eq]

/-! ### The removed elements -/

/-- The key and data fields of all buckets are the same. -/
structure SameFields (ht ht' : HashTable α) : Prop where
  h : ht'.h = ht.h
  nKeyLength : ht'.nKeyLength = ht.nKeyLength
  arKey : ht'.arKey = ht.arKey
  pData : ht'.pData = ht.pData

theorem SameFields.pair (same : SameFields ht ht') : ht'.pair = ht.pair := by
  funext q
  exact SameKey.pair ⟨congrFun same.h q, congrFun same.nKeyLength q, congrFun same.arKey q⟩
    (congrFun same.pData q)

theorem SameFields.collectRemoved (same : SameFields ht ht')
    (removed : Option (HashTable α)) (p : Nat) (copyConstructor : α → α) :
    HashTable.collectRemoved removed ht' p copyConstructor =
      HashTable.collectRemoved removed ht p copyConstructor := by
  cases removed with
  | none => rfl
  | some table =>
      simp only [HashTable.collectRemoved, insertRemoved, callerKey, same.h, same.nKeyLength,
        same.arKey, same.pData]

theorem SameFields.trans {middle : HashTable α} (first : SameFields ht middle)
    (second : SameFields middle ht') : SameFields ht ht' :=
  ⟨second.h.trans first.h, second.nKeyLength.trans first.nKeyLength,
    second.arKey.trans first.arKey, second.pData.trans first.pData⟩

/-- The removing loop leaves the fields of the buckets alone and collects the elements one
after the other. -/
theorem spliceRemove_collects (copyConstructor : α → α) (count : Nat) (rest : List Nat)
    {removed removed' : Option (HashTable α)} {pos : Nat} {following : Nat × Option Nat}
    (consistent : Consistent ht (front ++ rest))
    (ends : spliceRemove copyConstructor count ht removed pos rest.head? =
      some (ht', removed', following)) :
    SameFields ht ht' ∧
      (rest.take count).foldlM (fun removed p =>
        collectRemoved removed ht p copyConstructor) removed = some removed' := by
  induction count generalizing ht removed rest pos with
  | zero =>
      cases ends
      exact ⟨⟨rfl, rfl, rfl, rfl⟩, by simp⟩
  | succ count induction =>
      cases rest with
      | nil =>
          cases ends
          exact ⟨⟨rfl, rfl, rfl, rfl⟩, by simp⟩
      | cons p rest =>
          rw [List.head?_cons, spliceRemove, consistent.linked.next_eq] at ends
          rcases Option.bind_eq_some_iff.mp ends with ⟨next, collected, later⟩
          have deleted : SameFields ht (ht.zendHashBucketDelete p) := ⟨rfl, rfl, rfl, rfl⟩
          rcases induction rest (zendHashBucketDelete_consistent consistent) later with
            ⟨same, loop⟩
          refine ⟨deleted.trans same, ?_⟩
          have stepEqual : (fun removed q => collectRemoved removed
              (ht.zendHashBucketDelete p) q copyConstructor) = fun removed q =>
                collectRemoved removed ht q copyConstructor := by
            funext removed q
            exact deleted.collectRemoved removed q copyConstructor
          rw [stepEqual] at loop
          rw [List.take_succ_cons, List.foldlM_cons, collected]
          exact loop

/-- The pair that is stored for a removed element, before integer keys are given anew. -/
def removedPair (ht : HashTable α) (copyConstructor : α → α) (p : Nat) : Key × α :=
  (ht.key p, copyConstructor (ht.pData p))

/-- The table of removed elements after those of `done` were stored, if its first free
number was `start`. -/
structure Collected (ht : HashTable α) (copyConstructor : α → α) (start : BitVec 64)
    (done : List Nat) (table : HashTable α) (order : List Nat) : Prop where
  consistent : Consistent table order
  distinct : Distinct table order
  clean : Clean table order
  pairs : order.map table.pair =
    renumberFrom start (done.map (ht.removedPair copyConstructor))
  next : table.nNextFreeElement =
    start + BitVec.ofNat 64 (indexCount (done.map (ht.removedPair copyConstructor)))

/-- The string keys of a renumbered list are the old ones, its integer keys the numbers
that were given. -/
theorem mem_keys_renumberFrom {key : Key} {next : BitVec 64} {pairs : List (Key × α)}
    (member : key ∈ Pairs.keys (renumberFrom next pairs)) :
    (∃ bytes, key = .string bytes ∧ key ∈ Pairs.keys pairs) ∨
      ∃ i < indexCount pairs, key = .index (next + BitVec.ofNat 64 i) := by
  induction pairs generalizing next with
  | nil => cases member
  | cons pair pairs induction =>
      rcases pair with ⟨h | bytes, data⟩
      · have count : indexCount ((Key.index h, data) :: pairs) = indexCount pairs + 1 := by
          simp [indexCount, Key.isIndex]
        rcases List.mem_cons.mp member with isFirst | later
        · exact Or.inr ⟨0, by omega, by simpa using isFirst⟩
        · rcases induction later with ⟨bytes, isKey, old⟩ | ⟨i, below, isKey⟩
          · exact Or.inl ⟨bytes, isKey, List.mem_cons_of_mem _ old⟩
          · refine Or.inr ⟨i + 1, by omega, ?_⟩
            rw [isKey, BitVec.ofNat_add, BitVec.add_comm (BitVec.ofNat 64 i),
              ← BitVec.add_assoc]
            rfl
      · have count : indexCount ((Key.string bytes, data) :: pairs) = indexCount pairs := by
          simp [indexCount, Key.isIndex]
        rcases List.mem_cons.mp member with isFirst | later
        · exact Or.inl ⟨bytes, isFirst, isFirst ▸ List.mem_cons_self⟩
        · rcases induction later with ⟨bytes, isKey, old⟩ | ⟨i, below, isKey⟩
          · exact Or.inl ⟨bytes, isKey, List.mem_cons_of_mem _ old⟩
          · exact Or.inr ⟨i, count ▸ below, isKey⟩

theorem nextFreeAfter_self {n : BitVec 64} (small : n.toNat < 2 ^ 32) :
    nextFreeAfter n n = n + 1 := by
  have below : n < longMax := by
    simp only [longMax, BitVec.lt_def]
    exact Nat.lt_trans small (by decide)
  rw [nextFreeAfter, if_pos (Int.le_refl _), if_pos below]

section Collect

variable {copyConstructor : α → α} {start : BitVec 64} {done rest : List Nat}
  {table : HashTable α}

theorem indexCount_le (pairs : List (Key × α)) : indexCount pairs ≤ pairs.length :=
  List.countP_le_length

/-- A new pair goes behind the others. -/
theorem Collected.append {key : Key} {next : HashTable α} {nextOrder : List Nat}
    (collected : Collected ht copyConstructor start done table order)
    (stored : Stored true table order key (copyConstructor (ht.pData p)) next nextOrder)
    (fresh : key ∉ Pairs.keys (order.map table.pair))
    (isKey : (key, copyConstructor (ht.pData p)) :: [] =
      renumberFrom table.nNextFreeElement [ht.removedPair copyConstructor p])
    (isNext : table.nextFor key = table.nNextFreeElement +
      BitVec.ofNat 64 (indexCount [ht.removedPair copyConstructor p])) :
    Collected ht copyConstructor start (done ++ [p]) next nextOrder := by
  have pairs : nextOrder.map next.pair =
      order.map table.pair ++ [(key, copyConstructor (ht.pData p))] := by
    rw [stored.pairs, upsert, if_neg fresh]
  refine ⟨stored.consistent, stored.distinct collected.consistent collected.distinct,
    stored.clean collected.clean, ?_, ?_⟩
  · rw [pairs, isKey, collected.pairs, List.map_append, renumberFrom_append, collected.next]
    rfl
  · rcases stored.grown with ⟨same, _⟩ | ⟨_, _, _, _, next⟩
    · have longer := congrArg List.length pairs
      rw [same] at longer
      simp at longer
    · rw [next, isNext, collected.next, List.map_append, indexCount_append, BitVec.ofNat_add,
        BitVec.add_assoc]
      rfl

/-- Storing a removed element with a string key. -/
theorem Collected.string (collected : Collected ht copyConstructor start done table order)
    (listed : Listed ht order') (member : p ∈ order') (stringKeyed : ht.nKeyLength p ≠ 0)
    (notDone : ht.key p ∉ done.map ht.key) :
    ∃ next nextOrder, collectRemoved (some table) ht p copyConstructor = some (some next) ∧
      Collected ht copyConstructor start (done ++ [p]) next nextOrder := by
  rcases stringCopy_stored collected.consistent collected.distinct listed member stringKeyed true
    copyConstructor with ⟨next, nextOrder, equal, key, stored, isKey⟩
  have own : key = ht.key p := by
    rcases isKey with ⟨_, own⟩ | ⟨s, _, hides, _⟩
    · exact own
    · exact absurd ⟨s, hides⟩ (collected.clean.not_hides collected.consistent)
  have isString : ht.key p = .string (ht.arKey p).bytes := by
    simp [HashTable.key, stringKeyed]
  refine ⟨next, nextOrder, ?_, collected.append stored ?_ ?_ ?_⟩
  · rw [copyFrom, insertFrom, if_pos stringKeyed] at equal
    rcases Option.bind_eq_some_iff.mp equal with ⟨⟨inserted, entry⟩, isInserted, result⟩
    cases result
    simp only [collectRemoved, insertRemoved, if_neg stringKeyed, Option.bind_eq_bind]
    rw [show (InsertFlag.update) = if true = true then InsertFlag.update else .add from rfl,
      isInserted]
    rfl
  · rw [own, collected.pairs]
    intro present
    rcases mem_keys_renumberFrom present with ⟨_, _, old⟩ | ⟨_, _, isIndex⟩
    · apply notDone
      rw [Pairs.keys, List.map_map] at old
      exact old
    · rw [isString] at isIndex
      cases isIndex
  · rw [own, removedPair, isString]
    rfl
  · rw [own, removedPair, isString]
    simp [nextFor, indexCount, Key.isIndex]

/-- Storing a removed element with an integer key, from the number 0 on. -/
theorem Collected.integer (collected : Collected ht copyConstructor 0 done table order)
    (integer : ht.nKeyLength p = 0) (few : done.length < 2 ^ 32) :
    ∃ next nextOrder, collectRemoved (some table) ht p copyConstructor = some (some next) ∧
      Collected ht copyConstructor 0 (done ++ [p]) next nextOrder := by
  have count := indexCount_le (done.map (ht.removedPair copyConstructor))
  rw [List.length_map] at count
  have isNext := collected.next.trans (BitVec.zero_add _)
  have fresh : Key.index table.nNextFreeElement ∉ Pairs.keys (order.map table.pair) := by
    rw [collected.pairs, isNext]
    intro present
    rcases mem_keys_renumberFrom present with ⟨_, isString, _⟩ | ⟨i, below, isIndex⟩
    · cases isString
    · have equal := congrArg BitVec.toNat ((Key.index.inj isIndex).trans (BitVec.zero_add _))
      rw [BitVec.toNat_ofNat, BitVec.toNat_ofNat,
        Nat.mod_eq_of_lt (by omega), Nat.mod_eq_of_lt (by omega)] at equal
      omega
  have isPair : ht.removedPair copyConstructor p =
      (.index (ht.h p), copyConstructor (ht.pData p)) := by
    simp [removedPair, HashTable.key, integer]
  rcases indexUpdateOrNextInsert_spec collected.consistent 0 (ht.pData p) .nextInsert _ rfl with
    ⟨q, inside, same, _⟩ | ⟨notThere, inserted, equal, appended⟩
  · apply absurd _ fresh
    rw [keys_map_pair]
    exact List.mem_map.mpr ⟨q, inside, same⟩
  · have newKey : inserted.key table.brk = .index table.nNextFreeElement := by
      rw [appended.key, if_pos rfl]
      rfl
    have stored := appended.stored collected.consistent.toListed true newKey notThere
      (fun _ => rfl) (indexUpdateOrNextInsert_cursor collected.consistent equal) rfl
      copyConstructor
    refine ⟨_, _, ?_, collected.append stored fresh ?_ ?_⟩
    · simp only [collectRemoved, insertRemoved, if_pos integer, zendHashNextIndexInsert, equal,
        Option.bind_eq_bind, Option.bind_some]
    · rw [isPair]
      rfl
    · rw [isPair, nextFor, nextFreeAfter_self]
      · rfl
      · rw [isNext, BitVec.toNat_ofNat, Nat.mod_eq_of_lt (by omega)]
        omega

/-- Storing removed elements one after the other. If the first free number of the table is
not 0, this describes elements with string keys only. -/
theorem Collected.loop (nodes : List Nat)
    (collected : Collected ht copyConstructor start done table order)
    (listed : Listed ht order') (inside : ∀ q ∈ nodes, q ∈ order')
    (different : ((done ++ nodes).map ht.key).Nodup)
    (few : (done ++ nodes).length < 2 ^ 32)
    (numbered : start = 0 ∨ ∀ q ∈ nodes, ht.nKeyLength q ≠ 0) :
    ∃ final finalOrder,
      nodes.foldlM (fun removed p => collectRemoved removed ht p copyConstructor)
        (some table) = some (some final) ∧
      Collected ht copyConstructor start (done ++ nodes) final finalOrder := by
  induction nodes generalizing done table order with
  | nil => exact ⟨table, order, rfl, by simpa using collected⟩
  | cons p nodes induction =>
      have stepped : ∃ next nextOrder,
          collectRemoved (some table) ht p copyConstructor = some (some next) ∧
          Collected ht copyConstructor start (done ++ [p]) next nextOrder := by
        by_cases integer : ht.nKeyLength p = 0
        · rcases numbered with rfl | strings
          · apply collected.integer integer
            simp only [List.length_append] at few
            omega
          · exact absurd integer (strings p List.mem_cons_self)
        · apply collected.string listed (inside p List.mem_cons_self) integer
          rw [List.map_append, List.map_cons] at different
          intro inDone
          exact (List.nodup_cons.mp (List.nodup_middle.mp different)).1
            (List.mem_append_left _ inDone)
      rcases stepped with ⟨next, nextOrder, isStep, collected'⟩
      rw [List.append_cons] at different few ⊢
      rcases induction collected' (fun q member => inside q (List.mem_cons_of_mem _ member))
        different few (numbered.imp_right fun strings q member =>
          strings q (List.mem_cons_of_mem _ member)) with ⟨final, finalOrder, loop, result⟩
      refine ⟨final, finalOrder, ?_, result⟩
      rw [List.foldlM_cons, isStep]
      exact loop

/-- Whatever the first free number is, the keys that are there stay in front; and an element
with an integer key gets that number. -/
theorem collect_keys (consistent : Consistent table order) (distinct : Distinct table order)
    (listed : Listed ht order') (member : p ∈ order') (copyConstructor : α → α) :
    ∃ next nextOrder, collectRemoved (some table) ht p copyConstructor = some (some next) ∧
      Consistent next nextOrder ∧ Distinct next nextOrder ∧
      order.map table.key <+: nextOrder.map next.key ∧
      (ht.nKeyLength p = 0 → Key.index table.nNextFreeElement ∉ order.map table.key →
        nextOrder.map next.key = order.map table.key ++ [.index table.nNextFreeElement]) := by
  have prefixes : ∀ {key : Key} {next : HashTable α} {nextOrder : List Nat},
      Stored true table order key (copyConstructor (ht.pData p)) next nextOrder →
      nextOrder.map next.key =
        if key ∈ order.map table.key then order.map table.key
        else order.map table.key ++ [key] := by
    intro key next nextOrder stored
    have keys := congrArg Pairs.keys stored.pairs
    rw [Pairs.keys_upsert, keys_map_pair, keys_map_pair] at keys
    exact keys
  by_cases integer : ht.nKeyLength p = 0
  · rcases indexUpdateOrNextInsert_spec consistent 0 (ht.pData p) .nextInsert _ rfl with
      ⟨q, inside, same, equal⟩ | ⟨notThere, inserted, equal, appended⟩
    · refine ⟨table, order, ?_, consistent, distinct, List.prefix_refl _, ?_⟩
      · simp only [collectRemoved, insertRemoved, if_pos integer, zendHashNextIndexInsert, equal,
          Option.bind_eq_bind, Option.bind_some]
        rfl
      · intro _ fresh
        exact absurd (List.mem_map.mpr ⟨q, inside, same⟩) fresh
    · have newKey : inserted.key table.brk = .index table.nNextFreeElement := by
        rw [appended.key, if_pos rfl]
        rfl
      have stored := appended.stored consistent.toListed true newKey notThere
        (fun _ => rfl) (indexUpdateOrNextInsert_cursor consistent equal) rfl copyConstructor
      have fresh : Key.index table.nNextFreeElement ∉ order.map table.key := by
        intro present
        rcases List.mem_map.mp present with ⟨q, inside, same⟩
        exact notThere q inside same
      have keys := prefixes stored
      rw [if_neg fresh] at keys
      refine ⟨_, _, ?_, stored.consistent, stored.distinct consistent distinct, ?_,
        fun _ _ => keys⟩
      · simp only [collectRemoved, insertRemoved, if_pos integer, zendHashNextIndexInsert, equal,
          Option.bind_eq_bind, Option.bind_some]
      · rw [keys]
        exact List.prefix_append _ _
  · rcases stringCopy_stored consistent distinct listed member integer true copyConstructor
      with ⟨next, nextOrder, equal, key, stored, _⟩
    refine ⟨next, nextOrder, ?_, stored.consistent, stored.distinct consistent distinct, ?_,
      fun isInteger => absurd isInteger integer⟩
    · rw [copyFrom, insertFrom, if_pos integer] at equal
      rcases Option.bind_eq_some_iff.mp equal with ⟨⟨inserted, entry⟩, isInserted, result⟩
      cases result
      simp only [collectRemoved, insertRemoved, if_neg integer, Option.bind_eq_bind]
      rw [show InsertFlag.update = if true = true then InsertFlag.update else .add from rfl,
        isInserted]
      rfl
    · rw [prefixes stored]
      split
      · exact List.prefix_refl _
      · exact List.prefix_append _ _

theorem collect_keys_loop (nodes : List Nat) (consistent : Consistent table order)
    (distinct : Distinct table order) (listed : Listed ht order')
    (inside : ∀ q ∈ nodes, q ∈ order') (copyConstructor : α → α) :
    ∃ final finalOrder,
      nodes.foldlM (fun removed p => collectRemoved removed ht p copyConstructor)
        (some table) = some (some final) ∧
      Consistent final finalOrder ∧ order.map table.key <+: finalOrder.map final.key := by
  induction nodes generalizing table order with
  | nil => exact ⟨table, order, rfl, consistent, List.prefix_refl _⟩
  | cons p nodes induction =>
      rcases collect_keys consistent distinct listed (inside p List.mem_cons_self)
        copyConstructor with ⟨next, nextOrder, isStep, result, distinct', front, _⟩
      rcases induction result distinct'
        (fun q member => inside q (List.mem_cons_of_mem _ member)) with
        ⟨final, finalOrder, loop, finalConsistent, later⟩
      refine ⟨final, finalOrder, ?_, finalConsistent, front.trans later⟩
      rw [List.foldlM_cons, isStep]
      exact loop

theorem collected_start (ht : HashTable α) (copyConstructor : α → α)
    (consistent : Consistent table []) :
    Collected ht copyConstructor table.nNextFreeElement [] table [] := by
  refine ⟨consistent, ?_, ?_, rfl, ?_⟩
  · intro q member
    cases member
  · intro q member
    cases member
  · simp [indexCount]

theorem indexCount_removed (ht : HashTable α) (copyConstructor : α → α) (nodes : List Nat) :
    indexCount (nodes.map (ht.removedPair copyConstructor)) = indexCount (nodes.map ht.pair) := by
  rw [indexCount, indexCount, List.countP_map, List.countP_map]
  rfl

theorem indexCount_eq_zero_iff {nodes : List Nat} :
    indexCount (nodes.map ht.pair) = 0 ↔ ∀ q ∈ nodes, ht.nKeyLength q ≠ 0 := by
  rw [indexCount_eq, List.length_eq_zero_iff, integerKeyed, List.filter_eq_nil_iff]
  simp

/-- An empty table receives the elements with numbers from 0 on exactly if its first free
number is 0 or no element has an integer key. -/
theorem collect_agrees_iff (nodes : List Nat) (consistent : Consistent table [])
    (listed : Listed ht order') (inside : ∀ q ∈ nodes, q ∈ order')
    (different : (nodes.map ht.key).Nodup) (few : nodes.length < 2 ^ 32)
    (copyConstructor : α → α) :
    ∃ final, nodes.foldlM (fun removed p => collectRemoved removed ht p copyConstructor)
        (some table) = some (some final) ∧
      (final.contents = renumberFrom 0 (nodes.map (ht.removedPair copyConstructor)) ↔
        table.nNextFreeElement = 0 ∨ indexCount (nodes.map ht.pair) = 0) := by
  have startAt := collected_start ht copyConstructor consistent
  by_cases numbered : table.nNextFreeElement = 0 ∨ ∀ q ∈ nodes, ht.nKeyLength q ≠ 0
  · rcases startAt.loop nodes listed inside different few numbered with
      ⟨final, finalOrder, loop, collected⟩
    refine ⟨final, loop, iff_of_true ?_ (numbered.imp_right indexCount_eq_zero_iff.mpr)⟩
    rw [collected.consistent.contents_eq, collected.pairs]
    rcases numbered with zero | strings
    · rw [zero]
      rfl
    · have none' := indexCount_removed ht copyConstructor nodes
      rw [indexCount_eq_zero_iff.mpr strings] at none'
      rw [List.nil_append, renumberFrom_strings _ none', renumberFrom_strings _ none']
  · rw [not_or, not_forall] at numbered
    rcases numbered with ⟨nonzero, q, isInteger⟩
    rw [Classical.not_imp, Decidable.not_not] at isInteger
    -- the first element with an integer key gets the first free number
    have found : ∃ p, nodes.find? (fun q => ht.nKeyLength q == 0) = some p := by
      apply Option.isSome_iff_exists.mp
      exact List.find?_isSome.mpr ⟨q, isInteger.1, by simp [isInteger.2]⟩
    rcases found with ⟨p, found⟩
    rcases List.find?_eq_some_iff_append.mp found with ⟨integer, strings, rest, rfl, before⟩
    have integer : ht.nKeyLength p = 0 := by simpa using integer
    have allStrings : ∀ q ∈ strings, ht.nKeyLength q ≠ 0 := by
      intro q member
      simpa using before q member
    rcases startAt.loop strings listed (fun q member => inside q (by simp [member]))
      (by rw [List.nil_append]; rw [List.map_append] at different
          exact (List.nodup_append.mp different).1)
      (by simp only [List.length_append, List.nil_append] at few ⊢; omega)
      (Or.inr allStrings) with ⟨middle, middleOrder, loop, collected⟩
    rw [List.nil_append] at collected
    have noIndex : indexCount (strings.map (ht.removedPair copyConstructor)) = 0 := by
      rw [indexCount_removed, indexCount_eq_zero_iff]
      exact allStrings
    have middleNext : middle.nNextFreeElement = table.nNextFreeElement := by
      rw [collected.next, noIndex]
      simp
    have middleKeys : middleOrder.map middle.key =
        Pairs.keys (strings.map (ht.removedPair copyConstructor)) := by
      rw [← keys_map_pair, collected.pairs, renumberFrom_strings _ noIndex]
    have fresh : Key.index middle.nNextFreeElement ∉ middleOrder.map middle.key := by
      rw [middleKeys]
      intro present
      rcases List.mem_map.mp present with ⟨pair, member, isKey⟩
      rcases List.mem_map.mp member with ⟨r, inStrings, rfl⟩
      simp [removedPair, HashTable.key, allStrings r inStrings] at isKey
    rcases collect_keys collected.consistent collected.distinct listed
      (inside p (by simp)) copyConstructor with
      ⟨next, nextOrder, isStep, nextConsistent, nextDistinct, _, keys⟩
    rcases collect_keys_loop rest nextConsistent nextDistinct listed
      (fun q member => inside q (by simp [member])) copyConstructor with
      ⟨final, finalOrder, laterLoop, finalConsistent, front⟩
    refine ⟨final, ?_, iff_of_false ?_ ?_⟩
    · rw [List.foldlM_append, loop]
      simp only [Option.bind_eq_bind, Option.bind_some, List.foldlM_cons, isStep]
      exact laterLoop
    · intro equal
      rw [finalConsistent.contents_eq] at equal
      have finalKeys := congrArg Pairs.keys equal
      rw [keys_map_pair] at finalKeys
      rw [finalKeys, keys integer fresh, middleKeys, List.map_append, renumberFrom_append,
        renumberFrom_strings _ noIndex, Pairs.keys_append, List.prefix_append_right_inj,
        List.map_cons, noIndex, removedPair] at front
      simp only [HashTable.key, integer, if_true, renumberFrom, Pairs.keys_cons,
        List.cons_prefix_cons, Key.index.injEq] at front
      apply nonzero
      rw [← middleNext, front.1]
      simp
    · rintro (zero | none')
      · exact nonzero zero
      · exact indexCount_eq_zero_iff.mp none' p (by simp) integer

end Collect

/-! ### The inserted elements -/

/-- Renumbering does not look at the integer keys that were there before. -/
theorem renumberFrom_integers (next : BitVec 64) (nodes : List Nat)
    (integer : ∀ q ∈ nodes, ht.nKeyLength q = 0) :
    renumberFrom next (nodes.map ht.pair) =
      renumberFrom next ((nodes.map ht.pData).map fun data => (.index 0, data)) := by
  induction nodes generalizing next with
  | nil => rfl
  | cons q nodes induction =>
      rw [List.map_cons, List.map_cons, List.map_cons, pair_index (integer q List.mem_cons_self),
        renumberFrom, renumberFrom,
        induction (next + 1) fun r member => integer r (List.mem_cons_of_mem _ member)]

theorem indexCount_integers (values : List α) :
    indexCount (values.map fun data => (Key.index 0, data)) = values.length := by
  rw [indexCount, List.countP_map]
  exact List.countP_eq_length.mpr fun _ _ => rfl

theorem indexCount_of_integers {nodes : List Nat}
    (integer : ∀ q ∈ nodes, ht.nKeyLength q = 0) :
    indexCount (nodes.map ht.pair) = nodes.length := by
  rw [indexCount, List.countP_map]
  apply List.countP_eq_length.mpr
  intro q member
  simp [pair_index (integer q member), Key.isIndex]

/-- The table before the final renumbering: a list with new integer-keyed buckets in the
middle. -/
theorem spliceList_listed (copyConstructor : α → α) (list : Option (List α))
    (short : (list.getD []).length < 2 ^ 31)
    (consistent : Consistent ht (front ++ back)) (ready : ht.nTableMask = ht.nTableSize - 1) :
    ∃ spliced inserted, ht.spliceList copyConstructor back.head? list = some spliced ∧
      Listed spliced (front ++ inserted ++ back) ∧
      (∀ q ∈ inserted, spliced.nKeyLength q = 0) ∧
      inserted.map spliced.pData = (list.getD []).map copyConstructor ∧
      ∀ q ∈ front ++ back, spliced.pair q = ht.pair q := by
  cases list with
  | none => exact ⟨ht, [], rfl, by simpa using consistent.toListed, by simp, rfl, fun _ _ => rfl⟩
  | some list =>
      rcases foldl_spliceInsert copyConstructor list ht front back consistent.toListed ready with
        ⟨inserted, _, inserts, values, sameData⟩
      have samePairs : ∀ q ∈ front ++ back,
          (list.foldl (spliceInsert copyConstructor back.head?) ht).pair q = ht.pair q :=
        fun q member => (inserts.same q member).pair (sameData q member)
      rw [Option.getD_some] at short ⊢
      rw [spliceList_some copyConstructor back.head? short]
      generalize list.foldl (spliceInsert copyConstructor back.head?) ht = grown at *
      by_cases full : grown.nTableSize < grown.nNumOfElements
      · rcases inserts.listed.resize full with ⟨_, _, _, _, _, equal, resized, _⟩
        exact ⟨_, inserted, by rw [ifFullDoResize, if_pos full]; exact equal, resized,
          inserts.integer, values, samePairs⟩
      · exact ⟨grown, inserted, by rw [ifFullDoResize, if_neg full], inserts.listed,
          inserts.integer, values, samePairs⟩

/-! ### The elements of a range -/

theorem slice_contents (ht : HashTable α) (offset length : Nat) :
    slice ht.contents offset length = (slice ht.elements offset length).map ht.pair := by
  simp [slice, contents, List.map_take, List.map_drop]

theorem mem_of_slice {elements : List β} {element : β} {offset length : Nat}
    (member : element ∈ slice elements offset length) : element ∈ elements :=
  List.mem_of_mem_drop (List.mem_of_mem_take member)

theorem Proper.slice_keys_nodup (proper : Proper ht) (offset length : Nat) :
    ((slice ht.elements offset length).map ht.key).Nodup := by
  have sublist : (slice ht.elements offset length).Sublist ht.elements :=
    (List.take_sublist _ _).trans (List.drop_sublist _ _)
  exact proper.keys_nodup.sublist (sublist.map _)

theorem Proper.slice_few (proper : Proper ht) (offset length : Nat) :
    (slice ht.elements offset length).length < 2 ^ 32 := by
  have shorter : (slice ht.elements offset length).length ≤ ht.elements.length := by
    simp only [slice, List.length_take, List.length_drop]
    omega
  exact Nat.lt_of_le_of_lt shorter proper.few

/-! ### The whole operation -/

/-- The splice is what the lists of pairs say, for the table and for the table of removed
elements. -/
def SpliceAgrees (ht : HashTable α) (copyConstructor : α → α) (offset length : Nat)
    (list : Option (List α)) (removed : Option (HashTable α)) : Prop :=
  ∃ ht' removed',
    ht.zendHashSplice copyConstructor offset length list removed = some (ht', removed') ∧
    ht'.contents =
      splicedPairs ht.contents offset length ((list.getD []).map copyConstructor) ∧
    ht'.nNextFreeElement = BitVec.ofNat 64 (indexCount ht'.contents) ∧
    ht'.nNumOfElements = ht'.contents.length ∧
    ∀ table, removed = some table → ∃ table', removed' = some table' ∧
      table'.contents = renumberFrom 0 ((slice ht.contents offset length).map
        fun pair => (pair.1, copyConstructor pair.2))

/-- The number of elements that are removed, once `offset` of them were skipped. -/
theorem drop_count (order : List Nat) (offset length : Nat) :
    (order.drop offset).drop (offset + length - min offset order.length) =
        order.drop (offset + length) ∧
      (order.drop offset).take (offset + length - min offset order.length) =
        (order.drop offset).take length := by
  by_cases inside : offset ≤ order.length
  · rw [Nat.min_eq_left inside, Nat.add_sub_cancel_left, List.drop_drop]
    exact ⟨rfl, rfl⟩
  · have empty : order.drop offset = [] := List.drop_eq_nil_of_le (by omega)
    have empty' : order.drop (offset + length) = [] := List.drop_eq_nil_of_le (by omega)
    rw [empty, empty']
    simp

/-- How many elements there are after the splice. -/
def splicedLength (ht : HashTable α) (offset length : Nat) (list : Option (List α)) : Nat :=
  (ht.contents.take offset).length + (list.getD []).length +
    (ht.contents.drop (offset + length)).length

/-- The `int`s that a splice counts with do not overflow. -/
def SpliceCounts (ht : HashTable α) (offset length : Nat) (list : Option (List α)) : Prop :=
  min (offset + length) ht.elements.length < 2 ^ 31 ∧ (list.getD []).length < 2 ^ 31

/-- The removing loop of a splice, and what is left to be done behind it. -/
theorem splice_removes (proper : Proper ht) (copyConstructor : α → α) {offset length : Nat}
    (noWrap : offset + length < 2 ^ 32) (list : Option (List α))
    {removed : Option (HashTable α)} (receives : Receives removed) :
    ∃ middle removed',
      ht.zendHashSplice copyConstructor offset length list removed = (do
        let _ ← counted (min (offset + length) ht.elements.length)
        let spliced ← middle.spliceList copyConstructor
          (ht.elements.drop (offset + length)).head? list
        let ht' ← spliced.zendHashReindex true
        some (ht', removed')) ∧
      (slice ht.elements offset length).foldlM (fun removed p =>
        collectRemoved removed ht p copyConstructor) removed = some removed' ∧
      Consistent middle (ht.elements.take offset ++ ht.elements.drop (offset + length)) ∧
      middle.nTableMask = middle.nTableSize - 1 ∧ ∀ q, middle.pair q = ht.pair q := by
  have initial := checkInit_consistent proper.toConsistent
  have skipped := skipTo_eq offset 0 initial.linked
  rw [← initial.head, Nat.zero_add] at skipped
  have isCount : uint (offset + length) = offset + length := Nat.mod_eq_of_lt noWrap
  have isEnd := spliceEnd_eq ht.elements offset length
  rw [spliceEnd, isCount, Nat.max_eq_right (Nat.le_add_right _ _)] at isEnd
  rcases drop_count ht.elements offset length with ⟨behind, between⟩
  have parted : Consistent ht.checkInit
      (ht.elements.take offset ++ ht.elements.drop offset) := by
    rw [List.take_append_drop]
    exact initial
  rcases spliceRemove_spec True copyConstructor
    (offset + length - min offset ht.elements.length) (ht.elements.drop offset)
    (min offset ht.elements.length) parted receives
    with ⟨middle, removed', isRemoved, kept, _, sameMask, sameSize⟩
  rcases spliceRemove_collects copyConstructor _ _ parted isRemoved with ⟨same, collected⟩
  have sameInitial : SameFields ht ht.checkInit :=
    ⟨checkInit_h ht, checkInit_nKeyLength ht, checkInit_arKey ht, checkInit_pData ht⟩
  have ready : middle.nTableMask = middle.nTableSize - 1 := by
    rw [sameMask, sameSize]
    exact checkInit_ready proper.toConsistent
  rw [behind] at kept isRemoved
  rw [isEnd] at isRemoved
  refine ⟨middle, removed', ?_, ?_, kept, ready, fun q => by rw [same.pair, sameInitial.pair]⟩
  · simp only [zendHashSplice, skipped, isCount, isRemoved, Option.bind_eq_bind,
      Option.bind_some]
  · rw [between] at collected
    have stepEqual : (fun removed q => collectRemoved removed ht.checkInit q copyConstructor) =
        fun removed q => collectRemoved removed ht q copyConstructor := by
      funext removed q
      exact sameInitial.collectRemoved removed q copyConstructor
    rw [stepEqual] at collected
    exact collected

/-- The table itself: the pairs are right if the elements can be counted, and the counter
holds their number modulo 2^32. -/
theorem splice_table (proper : Proper ht) (copyConstructor : α → α) {offset length : Nat}
    (noWrap : offset + length < 2 ^ 32) {list : Option (List α)}
    (counts : ht.SpliceCounts offset length list) {removed : Option (HashTable α)}
    (receives : Receives removed) :
    ∃ ht' removed',
      ht.zendHashSplice copyConstructor offset length list removed = some (ht', removed') ∧
      (slice ht.elements offset length).foldlM (fun removed p =>
        collectRemoved removed ht p copyConstructor) removed = some removed' ∧
      ht'.nNumOfElements = ht.splicedLength offset length list % 2 ^ 32 ∧
      (ht.splicedLength offset length list < 2 ^ 32 →
        ht'.contents =
          splicedPairs ht.contents offset length ((list.getD []).map copyConstructor) ∧
        ht'.nNextFreeElement = BitVec.ofNat 64 (indexCount ht'.contents)) := by
  rcases splice_removes proper copyConstructor noWrap list receives with
    ⟨middle, removed', isSplice, collected, kept, ready, same⟩
  rcases spliceList_listed copyConstructor list counts.2 kept ready with
    ⟨spliced, inserted, isSpliced, listed, integer, values, samePairs⟩
  rcases listed.reindex_contents with ⟨ht', reindexed, isCounted, renumbered⟩
  have isLength : (ht.elements.take offset ++ inserted ++
      ht.elements.drop (offset + length)).length = ht.splicedLength offset length list := by
    have sameLength := congrArg List.length values
    rw [List.length_map, List.length_map] at sameLength
    simp only [splicedLength, contents, List.length_append, List.length_map, List.length_take,
      List.length_drop, sameLength]
  rw [isLength] at isCounted renumbered
  have oldPairs : ∀ nodes : List Nat,
      (∀ q ∈ nodes, q ∈ ht.elements.take offset ++ ht.elements.drop (offset + length)) →
      nodes.map spliced.pair = nodes.map ht.pair := by
    intro nodes inside
    apply List.map_congr_left
    intro q member
    rw [samePairs q (inside q member), same]
  refine ⟨ht', removed', ?_, collected, isCounted, ?_⟩
  · rw [isSplice, counted_eq counts.1, isSpliced]
    simp only [Option.bind_eq_bind, Option.bind_some, reindexed]
  · intro few
    rcases renumbered few with ⟨isContents, isNext⟩
    have whole : ht'.contents =
        splicedPairs ht.contents offset length ((list.getD []).map copyConstructor) := by
      rw [isContents, splicedPairs, List.map_append, List.map_append,
        oldPairs _ (by simp +contextual), oldPairs (ht.elements.drop _) (by simp +contextual),
        renumberFrom_append, renumberFrom_append, renumberFrom_append, renumberFrom_append,
        indexCount_append, indexCount_append, renumberFrom_integers _ inserted integer, values,
        indexCount_of_integers integer, indexCount_integers, ← values, List.length_map,
        contents, List.map_take, List.map_drop]
    refine ⟨whole, ?_⟩
    rw [isNext, isContents, indexCount_renumberFrom]

theorem length_splicedPairs (ht : HashTable α) (copyConstructor : α → α)
    (offset length : Nat) (list : Option (List α)) :
    (splicedPairs ht.contents offset length ((list.getD []).map copyConstructor)).length =
      ht.splicedLength offset length list := by
  simp only [splicedPairs, length_renumberFrom, List.length_append, List.length_map,
    splicedLength]

/-- A splice that counts too far does not return. -/
theorem splice_overflows (proper : Proper ht) (copyConstructor : α → α) {offset length : Nat}
    (noWrap : offset + length < 2 ^ 32) {list : Option (List α)}
    {removed : Option (HashTable α)} (receives : Receives removed)
    (overflows : ¬ ht.SpliceCounts offset length list) :
    ht.zendHashSplice copyConstructor offset length list removed = none := by
  rcases splice_removes proper copyConstructor noWrap list receives with
    ⟨middle, _, steps, _⟩
  rw [steps]
  by_cases short : min (offset + length) ht.elements.length < 2 ^ 31
  · have many := fun shortList => overflows ⟨short, shortList⟩
    cases list with
    | none => exact absurd (Nat.two_pow_pos 31) many
    | some list =>
        rw [Option.getD_some] at many
        rw [counted_eq short, spliceList, counted_eq_none (Nat.le_of_not_lt many)]
        rfl
  · rw [counted_eq_none (Nat.le_of_not_lt short)]
    rfl

theorem SpliceAgrees.counts (proper : Proper ht) {copyConstructor : α → α} {offset length : Nat}
    (noWrap : offset + length < 2 ^ 32) {list : Option (List α)}
    {removed : Option (HashTable α)} (receives : Receives removed)
    (agrees : SpliceAgrees ht copyConstructor offset length list removed) :
    ht.SpliceCounts offset length list := by
  by_contra overflows
  rcases agrees with ⟨ht', removed', isSplice, _⟩
  rw [splice_overflows proper copyConstructor noWrap receives overflows] at isSplice
  cases isSplice

/-- The counter cannot hold a larger number of elements. -/
theorem SpliceAgrees.fits (proper : Proper ht) {copyConstructor : α → α} {offset length : Nat}
    (noWrap : offset + length < 2 ^ 32) {list : Option (List α)}
    {removed : Option (HashTable α)} (receives : Receives removed)
    (agrees : SpliceAgrees ht copyConstructor offset length list removed) :
    ht.splicedLength offset length list < 2 ^ 32 := by
  rcases splice_table proper copyConstructor noWrap (agrees.counts proper noWrap receives)
    receives with ⟨ht', removed', isSplice, _, isCounted, _⟩
  rcases agrees with ⟨ht'', removed'', isSplice', isContents, _, isCount, _⟩
  rw [isSplice] at isSplice'
  cases isSplice'
  rw [isContents, length_splicedPairs, isCounted] at isCount
  exact isCount ▸ Nat.mod_lt _ (by decide)

/-- For every well-formed table, every range that does not wrap and every list of new
values, a splice leaves the pairs that the claim on lists says, with an empty table
receiving the removed ones, exactly when the positions, the list and the elements can be
counted and the first free number of the receiving table is 0 or no removed element has an
integer key. -/
theorem zendHashSplice_agrees_iff (proper : Proper ht) (copyConstructor : α → α)
    (offset length : Nat) (noWrap : offset + length < 2 ^ 32) (list : Option (List α))
    (removed : Option (HashTable α))
    (empty : ∀ table, removed = some table → Proper table ∧ table.elements = []) :
    SpliceAgrees ht copyConstructor offset length list removed ↔
      ht.SpliceCounts offset length list ∧ ht.splicedLength offset length list < 2 ^ 32 ∧
        ∀ table, removed = some table → table.nNextFreeElement = 0 ∨
          indexCount (slice ht.contents offset length) = 0 := by
  have receives : Receives removed := fun table isTable =>
    ⟨table.elements, (empty table isTable).1.toConsistent⟩
  have sliceContents := slice_contents ht offset length
  have receiver : ∀ removed' table, removed = some table →
      (slice ht.elements offset length).foldlM (fun removed p =>
        collectRemoved removed ht p copyConstructor) removed = some removed' →
      ((∃ table', removed' = some table' ∧ table'.contents = renumberFrom 0
        ((slice ht.contents offset length).map fun pair => (pair.1, copyConstructor pair.2))) ↔
      table.nNextFreeElement = 0 ∨ indexCount (slice ht.contents offset length) = 0) := by
    intro removed' table isTable collected
    rcases empty table isTable with ⟨tableProper, isEmpty⟩
    have tableConsistent : Consistent table [] := isEmpty ▸ tableProper.toConsistent
    rcases collect_agrees_iff (slice ht.elements offset length) tableConsistent proper.toListed
      (fun q member => mem_of_slice member) (proper.slice_keys_nodup offset length)
      (proper.slice_few offset length) copyConstructor with ⟨final, isFinal, agrees⟩
    rw [isTable, isFinal] at collected
    have isRemoved : removed' = some final := (Option.some.inj collected).symm
    rw [sliceContents, ← agrees, isRemoved, List.map_map]
    constructor
    · rintro ⟨table', isTable', equal⟩
      cases isTable'
      exact equal
    · intro equal
      exact ⟨final, rfl, equal⟩
  constructor
  · intro agrees
    have counts := agrees.counts proper noWrap receives
    refine ⟨counts, agrees.fits proper noWrap receives, ?_⟩
    rcases splice_table proper copyConstructor noWrap counts receives with
      ⟨ht', removed', isSplice, collected, _⟩
    rcases agrees with ⟨ht'', removed'', isSplice', _, _, _, received⟩
    rw [isSplice] at isSplice'
    cases isSplice'
    intro table isTable
    exact (receiver _ table isTable collected).mp (received table isTable)
  · rintro ⟨counts, few, numbered⟩
    rcases splice_table proper copyConstructor noWrap counts receives with
      ⟨ht', removed', isSplice, collected, isCounted, pairs⟩
    rcases pairs few with ⟨isContents, isNext⟩
    refine ⟨ht', removed', isSplice, isContents, isNext, ?_, ?_⟩
    · rw [isCounted, isContents, length_splicedPairs, Nat.mod_eq_of_lt few]
    · intro table isTable
      exact (receiver _ table isTable collected).mpr (numbered table isTable)

/-- A table from which its element was deleted. -/
def emptiedAgain : List (Op Unit) :=
  [.indexUpdateOrNextInsert 0 () .nextInsert, .indexDel 0]

theorem emptiedAgain_receives :
    ((playFitting ((blankMemory ()).zendHashInit 8) mixedKeys).bind fun ht =>
      (playFitting ((blankMemory ()).zendHashInit 8) emptiedAgain).map fun table =>
        (table.elements,
          (ht.zendHashSplice id 1 2 none (some table)).map (fun result =>
            result.2.map fun table' => Pairs.keys table'.contents),
          Pairs.keys (renumberFrom 0 ((slice ht.contents 1 2).map
            fun pair => (pair.1, id pair.2))))) =
      some ([], some (some [.string [107, 0], .index 1]), [.string [107, 0], .index 0]) := by
  decide +kernel

theorem zendHashSplice_agrees_iff_mixed :
    ∃ ht table : HashTable Unit, Reachable Safe ht ∧ Reachable Safe table ∧
      (SpliceAgrees ht id 1 2 (some [(), (), ()]) (some table) ↔
        ht.SpliceCounts 1 2 (some [(), (), ()]) ∧
          ht.splicedLength 1 2 (some [(), (), ()]) < 2 ^ 32 ∧
          ∀ table', some table = some table' → table'.nNextFreeElement = 0 ∨
            indexCount (slice ht.contents 1 2) = 0) := by
  rcases Option.bind_eq_some_iff.mp emptiedAgain_receives with ⟨ht, played, rest⟩
  rcases Option.map_eq_some_iff.mp rest with ⟨table, playedToo, facts⟩
  have reachable := reachable_of_play rfl played
  have reachableToo := reachable_of_play rfl playedToo
  have isEmpty : table.elements = [] := congrArg Prod.fst facts
  refine ⟨ht, table, reachable, reachableToo,
    zendHashSplice_agrees_iff (proper_of_reachable reachable) id 1 2 (by decide)
      (some [(), (), ()]) (some table) ?_⟩
  rintro _ ⟨⟩
  exact ⟨proper_of_reachable reachableToo, isEmpty⟩

/-- The receiving table is empty and numbers from 1 on; and an `int` cannot count a list of
2^31 + 1 new values. -/
theorem zendHashSplice_disagrees :
    (∃ ht table : HashTable Unit, Reachable Safe ht ∧ Reachable Safe table ∧
        table.elements = [] ∧ ¬ SpliceAgrees ht id 1 2 none (some table)) ∧
      ∃ (ht : HashTable Unit) (list : List Unit), Reachable Safe ht ∧
        list.length = 2 ^ 31 + 1 ∧ ¬ SpliceAgrees ht id 0 0 (some list) none := by
  rcases Option.bind_eq_some_iff.mp emptiedAgain_receives with ⟨ht, played, rest⟩
  rcases Option.map_eq_some_iff.mp rest with ⟨table, playedToo, facts⟩
  have reachable := reachable_of_play rfl played
  constructor
  · have isEmpty : table.elements = [] := congrArg Prod.fst facts
    have received := congrArg (fun all => all.2.1) facts
    have intended := congrArg (fun all => all.2.2) facts
    dsimp only at received intended
    refine ⟨ht, table, reachable, reachable_of_play rfl playedToo, isEmpty, ?_⟩
    rintro ⟨ht', removed', isSplice, _, _, _, agrees⟩
    rcases agrees table rfl with ⟨table', isTable, equal⟩
    rw [isSplice, Option.map_some, isTable, Option.map_some, equal, intended] at received
    cases received
  · have anyLength : ∀ n, ∃ list : List Unit, list.length = n := fun n =>
      ⟨List.replicate n (), List.length_replicate⟩
    rcases anyLength (2 ^ 31 + 1) with ⟨list, length⟩
    refine ⟨ht, list, reachable, length, ?_⟩
    intro agrees
    have few := (agrees.counts (proper_of_reachable reachable) (by decide)
      (fun table isTable => by cases isTable)).2
    rw [Option.getD_some, length] at few
    exact absurd few (by decide)

end HashTable

end PhpRuntime.Hash
