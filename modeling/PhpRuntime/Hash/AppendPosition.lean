import PhpRuntime.Hash.WellFormed

/-! The position at which `zend_hash_next_index_insert` stores. `nNextFreeElement` is an
unsigned word that is compared as a signed one. -/

namespace PhpRuntime.Hash

open Function (update)

namespace HashTable

variable {ht ht' : HashTable α} {order order' : List Nat} {p : Nat} {unique : Prop}

/-- The next free key is above every integer key, or at its largest value. -/
structure Ahead (ht : HashTable α) (order : List Nat) : Prop where
  nonnegative : 0 ≤ ht.nNextFreeElement.toInt
  above : (∀ p ∈ order, ht.nKeyLength p = 0 →
      (ht.h p).toInt < ht.nNextFreeElement.toInt) ∨
    ht.nNextFreeElement = longMax

theorem toInt_le_longMax (word : BitVec 64) : word.toInt ≤ longMax.toInt := by
  have isMax : longMax.toInt = 2 ^ 63 - 1 := by decide
  have bound := BitVec.two_mul_toInt_lt (x := word)
  omega

/-- Setting an integer key moves the next free key past it, and never back. -/
theorem nextFreeAfter_spec (next h : BitVec 64) :
    next.toInt ≤ (nextFreeAfter next h).toInt ∧
      (h.toInt < (nextFreeAfter next h).toInt ∨ nextFreeAfter next h = longMax) := by
  unfold nextFreeAfter
  split
  · rename_i notBelow
    split
    · rename_i belowMax
      have step : (h + 1).toInt = h.toInt + 1 := by
        have small : h.toNat < longMax.toNat := belowMax
        have isMax : longMax.toNat = 2 ^ 63 - 1 := by decide
        have sum : (h + 1).toNat = h.toNat + 1 := by
          have one : (1 : BitVec 64).toNat = 1 := rfl
          rw [BitVec.toNat_add, one]
          omega
        rw [BitVec.toInt_eq_toNat_of_lt (by omega), BitVec.toInt_eq_toNat_of_lt (by omega),
          sum]
        omega
      omega
    · exact ⟨toInt_le_longMax next, Or.inr rfl⟩
  · exact ⟨Int.le_refl _, Or.inl (by omega)⟩

theorem nextFreeAfter_longMax (h : BitVec 64) : nextFreeAfter longMax h = longMax := by
  unfold nextFreeAfter
  split
  · rename_i notBelow
    have equal : h = longMax :=
      BitVec.eq_of_toInt_eq (Int.le_antisymm (toInt_le_longMax h) notBelow)
    rw [equal]
    decide
  · rfl

/-- Some buckets are as before, and the others have keys that the next free key is
raised for. -/
theorem Ahead.raise {new : Nat} (ahead : Ahead ht order)
    (next : ht'.nNextFreeElement =
      if ht'.nKeyLength new = 0 then nextFreeAfter ht.nNextFreeElement (ht'.h new)
      else ht.nNextFreeElement)
    (members : ∀ p ∈ order', p = new ∨ p ∈ order ∧ SameKey ht ht' p) : Ahead ht' order' := by
  have spec := nextFreeAfter_spec ht.nNextFreeElement (ht'.h new)
  have grows : ht.nNextFreeElement.toInt ≤ ht'.nNextFreeElement.toInt := by
    rw [next]
    split
    · exact spec.1
    · exact Int.le_refl _
  refine ⟨Int.le_trans ahead.nonnegative grows, ?_⟩
  rcases ahead.above with above | isMax
  · by_cases newInteger : ht'.nKeyLength new = 0
    · rw [if_pos newInteger] at next
      rcases spec.2 with newAbove | isMax
      · refine Or.inl fun p member integer => ?_
        rcases members p member with rfl | ⟨old, same⟩
        · rw [next]
          exact newAbove
        · rw [same.nKeyLength] at integer
          rw [same.h]
          exact Int.lt_of_lt_of_le (above p old integer) grows
      · exact Or.inr (next.trans isMax)
    · refine Or.inl fun p member integer => ?_
      rcases members p member with rfl | ⟨old, same⟩
      · exact absurd integer newInteger
      · rw [same.nKeyLength] at integer
        rw [same.h]
        exact Int.lt_of_lt_of_le (above p old integer) grows
  · rw [isMax, nextFreeAfter_longMax, ite_self] at next
    exact Or.inr next

theorem Effect.ahead (effect : Effect unique ht order ht' order') (ahead : Ahead ht order) :
    Ahead ht' order' := by
  cases effect with
  | keep kept same next =>
      refine ⟨next ▸ ahead.nonnegative, ?_⟩
      rcases ahead.above with above | isMax
      · refine Or.inl fun p member integer => ?_
        rw [(same p member).nKeyLength] at integer
        rw [(same p member).h, next]
        exact above p (kept p member) integer
      · exact Or.inr (next.trans isMax)
  | clear empty next =>
      subst empty
      exact ⟨by rw [next]; decide, Or.inl (by simp)⟩
  | append new appended same fresh next =>
      subst appended
      apply ahead.raise next
      intro p member
      rcases List.mem_append.mp member with old | isNew
      · exact Or.inr ⟨old, same p old⟩
      · exact Or.inl (List.mem_singleton.mp isNew)
  | renumber few strings numbered next =>
      have short := integerKeyed_length_lt few ht'
      have isLength : ht'.nNextFreeElement.toInt = (ht'.integerKeyed order').length := by
        rw [next, BitVec.toInt_eq_toNat_of_lt] <;>
          rw [BitVec.toNat_ofNat, Nat.mod_eq_of_lt] <;> omega
      refine ⟨by omega, Or.inl fun p member integer => ?_⟩
      have below := numbered_toNat_lt numbered member integer
      rw [isLength, BitVec.toInt_eq_toNat_of_lt (by omega)]
      omega
  | rekey old new front back before after same fresh next =>
      subst before after
      apply ahead.raise next
      intro p member
      rcases mem_middle.mp member with isNew | kept
      · exact Or.inl isNew
      · exact Or.inr ⟨mem_middle.mpr (Or.inr kept), same p kept⟩

theorem ahead_of_reachable (reachable : Reachable (fun ht op => op.Fits ht) ht) :
    ∃ order, Consistent ht order ∧ order.length < 2 ^ 32 ∧ Ahead ht order := by
  apply Reachable.induct (fun _ _ fits => fits) Ahead _ _ reachable
  · intro memory nSize
    have zero : (0 : Int) ≤ (0 : BitVec 64).toInt := by decide
    exact ⟨zero, Or.inl (by simp)⟩
  · intro ht order op ht' order' _ _ effects ahead
    exact effects.preserve Ahead (fun _ _ _ _ effect => effect.ahead) ahead

/-- What appending relies on, and what it does. -/
structure AppendsAhead (ht : HashTable α) : Prop where
  nonnegative : 0 ≤ ht.nNextFreeElement.toInt
  le_longMax : ht.nNextFreeElement.toInt ≤ longMax.toInt
  above : (∀ p ∈ ht.elements, ht.nKeyLength p = 0 →
      (ht.h p).toInt < ht.nNextFreeElement.toInt) ∨
    ht.nNextFreeElement = longMax
  insert : ∀ data, ∃ ht' entry, ht.zendHashNextIndexInsert data = some (ht', entry) ∧
    (entry = none ↔ ht.nNextFreeElement = longMax ∧ Key.index longMax ∈ ht.keys) ∧
    ∀ p, entry = some p → ht'.elements = ht.elements ++ [p] ∧
      ht'.key p = .index ht.nNextFreeElement ∧ ht'.key p ∉ ht.keys ∧ ht'.pData p = data

/-- The bucket with the next free key is there only when no key is left. -/
theorem Ahead.isMax_of_key (ahead : Ahead ht order) (member : p ∈ order)
    (isKey : ht.key p = .index ht.nNextFreeElement) : ht.nNextFreeElement = longMax := by
  rcases ahead.above with above | isMax
  · simp only [key] at isKey
    split at isKey
    · rename_i integer
      have equal : ht.h p = ht.nNextFreeElement := by simpa using isKey
      have below := above p member integer
      rw [equal] at below
      exact absurd below (Int.lt_irrefl _)
    · cases isKey
  · exact isMax

theorem Ahead.appendsAhead (consistent : Consistent ht order) (ahead : Ahead ht order) :
    AppendsAhead ht where
  nonnegative := ahead.nonnegative
  le_longMax := toInt_le_longMax _
  above := by
    rw [consistent.elements_eq]
    exact ahead.above
  insert data := by
    rw [keys, consistent.elements_eq]
    rcases indexUpdateOrNextInsert_spec consistent 0 data .nextInsert ht.nNextFreeElement rfl
      with ⟨p, member, isKey, equal⟩ | ⟨fresh, ht', equal, appended⟩
    · have isMax := ahead.isMax_of_key member isKey
      refine ⟨ht, none, equal, ⟨fun _ => ⟨isMax, ?_⟩, fun _ => rfl⟩, by simp⟩
      rw [← isMax, ← isKey]
      exact List.mem_map_of_mem member
    · have isKey : ht'.key ht.brk = .index ht.nNextFreeElement := by
        rw [appended.key, if_pos rfl]
      have absent : Key.index ht.nNextFreeElement ∉ order.map ht.key := by
        intro member
        rcases List.mem_map.mp member with ⟨p, inside, same⟩
        exact fresh p inside same
      refine ⟨ht', some ht.brk, equal, ⟨by simp, ?_⟩, ?_⟩
      · rintro ⟨isMax, present⟩
        exact absurd (isMax ▸ present) absent
      · rintro p ⟨⟩
        refine ⟨appended.consistent.elements_eq, isKey, isKey ▸ absent, ?_⟩
        rw [appended.pData, Function.update_self]

/-- In every run whose operations fit the element counter, appending goes behind all
integer keys until the largest key is taken. -/
theorem appendsAhead_of_reachable (ht : HashTable α)
    (reachable : Reachable (fun ht op => op.Fits ht) ht) : AppendsAhead ht := by
  rcases ahead_of_reachable reachable with ⟨order, consistent, _, ahead⟩
  exact ahead.appendsAhead consistent

theorem appendsAhead_of_reachable_mixed :
    ∃ ht, playFitting ((blankMemory ()).zendHashInit 8) mixedKeys = some ht ∧
      AppendsAhead ht := by
  rcases mixedKeys_played with ⟨ht, played, _⟩
  exact ⟨ht, played, appendsAhead_of_reachable ht
    ((reachable_of_play rfl played).mono fun _ _ => And.left)⟩

/-! ### The counter wraps -/

theorem nextFreeAfter_ofNat (n : Nat) (small : n < 2 ^ 32) :
    nextFreeAfter (BitVec.ofNat 64 n) (BitVec.ofNat 64 n) = BitVec.ofNat 64 (n + 1) := by
  have below : BitVec.ofNat 64 n < longMax := by
    change (BitVec.ofNat 64 n).toNat < longMax.toNat
    have isMax : longMax.toNat = 2 ^ 63 - 1 := by decide
    rw [BitVec.toNat_ofNat, Nat.mod_eq_of_lt (by omega)]
    omega
  rw [nextFreeAfter, if_pos (Int.le_refl _), if_pos below, BitVec.ofNat_add]
  rfl

/-- A table filled by appending `n` elements. -/
theorem filled {Allowed : HashTable Unit → Op Unit → Prop} (n : Nat) (small : n ≤ 2 ^ 32)
    (allowed : ∀ ht, ht.elements.length < n →
      Allowed ht (.indexUpdateOrNextInsert 0 () .nextInsert)) :
    ∃ (ht : HashTable Unit) (order : List Nat), Reachable Allowed ht ∧
      Consistent ht order ∧ order.length = n ∧ ht.nNextFreeElement = BitVec.ofNat 64 n ∧
      ∀ p ∈ order, ht.nKeyLength p = 0 ∧ (ht.h p).toNat < n := by
  induction n with
  | zero =>
      exact ⟨_, [], .init (blankMemory ()) 8, zendHashInit_consistent _ 8, rfl, rfl, by simp⟩
  | succ n induction =>
      rcases induction (by omega) (fun ht fewer => allowed ht (by omega)) with
        ⟨ht, order, reachable, consistent, length, next, keys⟩
      have isNumber : (BitVec.ofNat 64 n).toNat = n := by
        rw [BitVec.toNat_ofNat, Nat.mod_eq_of_lt (by omega)]
      rcases indexUpdateOrNextInsert_spec consistent 0 () .nextInsert (BitVec.ofNat 64 n)
        next.symm with ⟨p, member, isKey, _⟩ | ⟨_, ht', equal, appended⟩
      · have taken := (keys p member).2
        simp only [key, (keys p member).1, if_true, Key.index.injEq] at isKey
        rw [isKey, isNumber] at taken
        omega
      · have inserted : (Op.indexUpdateOrNextInsert 0 () .nextInsert).run ht = some ht' :=
          congrArg (Option.map Prod.fst) equal
        refine ⟨ht', _, .step (.indexUpdateOrNextInsert 0 () .nextInsert) reachable
          (by simp [Op.tables]) trivial (allowed ht (by rw [consistent.elements_eq]; omega)) inserted,
          appended.consistent, by simp [length], ?_, ?_⟩
        · rw [appended.next, next, nextFreeAfter_ofNat n (by omega)]
        · intro p member
          rcases List.mem_append.mp member with old | isNew
          · have same := appended.sameKey consistent.toListed old
            rw [same.nKeyLength, same.h]
            exact ⟨(keys p old).1, Nat.lt_succ_of_lt (keys p old).2⟩
          · rw [List.mem_singleton.mp isNew, appended.nKeyLength, appended.h,
              Function.update_self, Function.update_self, isNumber]
            exact ⟨rfl, Nat.lt_succ_self n⟩

theorem filled_safe (n : Nat) (small : n < 2 ^ 32) :
    ∃ ht : HashTable Unit, Reachable Safe ht ∧ ht.elements.length = n := by
  have safe : ∀ ht : HashTable Unit, ht.elements.length < n →
      Safe ht (.indexUpdateOrNextInsert 0 () .nextInsert) := by
    intro ht fewer
    refine ⟨⟨?_, Nat.two_pow_pos 31⟩, trivial⟩
    simp only [Op.limit, reduceIte]
    split <;> omega
  rcases filled n (Nat.le_of_lt small) safe with ⟨ht, order, reachable, consistent, length, _⟩
  exact ⟨ht, reachable, by rw [consistent.elements_eq, length]⟩

/-- With 2^32 elements the counter is zero, and renumbering takes the full table for an
empty one. -/
theorem appendsAhead_fails_after_wrap :
    ∃ ht : HashTable Unit, Reachable (fun _ _ => True) ht ∧ ¬ AppendsAhead ht := by
  rcases @filled (fun _ _ => True) (2 ^ 32) (Nat.le_refl _) (fun _ _ => trivial) with
    ⟨ht, order, reachable, consistent, length, _, keys⟩
  have counted : ht.nNumOfElements = 0 := by rw [consistent.count, length, Nat.mod_self]
  have reindexed : (Op.reindex true).run ht = some { ht with nNextFreeElement := 0 } :=
    if_pos counted
  refine ⟨_, .step (.reindex true) reachable (by simp [Op.tables]) trivial trivial reindexed,
    ?_⟩
  intro appends
  have consistent' : Consistent { ht with nNextFreeElement := 0 } order := { consistent with }
  rcases appends.above with above | isMax
  · rw [consistent'.elements_eq] at above
    cases order with
    | nil => simp at length
    | cons p rest =>
        rcases keys p List.mem_cons_self with ⟨integer, small⟩
        have negative : (ht.h p).toInt < (0 : BitVec 64).toInt :=
          above p List.mem_cons_self integer
        have zero : (0 : BitVec 64).toInt = 0 := by decide
        rw [BitVec.toInt_eq_toNat_of_lt (by omega)] at negative
        omega
  · have different : (0 : BitVec 64) ≠ longMax := by decide
    exact different isMax

end HashTable

end PhpRuntime.Hash
