import PhpRuntime.Hash.Contents

/-! `zend_hash_compare`.

The two tables may be one table, so the protection against recursion is kept outside of
the tables, by their addresses. -/

namespace PhpRuntime.Hash

open Function (update)
open PhpRuntime.Linked

/-- The fields `bApplyProtection` and `nApplyCount` of all tables. -/
structure Protection where
  bApplyProtection : Nat → Bool
  nApplyCount : Nat → Nat

namespace Protection

/-- `HASH_PROTECT_RECURSION`; the fatal error is `none`. -/
def protect (state : Protection) (table : Nat) : Option Protection :=
  if state.bApplyProtection table then
    if 3 ≤ state.nApplyCount table then
      none
    else
      some { state with
        nApplyCount := update state.nApplyCount table (state.nApplyCount table + 1) }
  else
    some state

/-- `HASH_UNPROTECT_RECURSION`, on an `unsigned char`. -/
def unprotect (state : Protection) (table : Nat) : Protection :=
  if state.bApplyProtection table then
    { state with
      nApplyCount := update state.nApplyCount table ((state.nApplyCount table + 255) % 256) }
  else
    state

/-- What is done before the comparison, and on each way out of it. -/
def protectBoth (state : Protection) (table1 table2 : Nat) : Option Protection := do
  (← state.protect table1).protect table2

def unprotectBoth (state : Protection) (table1 table2 : Nat) : Protection :=
  (state.unprotect table1).unprotect table2

end Protection

/-- The difference of two numbers of type `uint`, as an `int`. -/
def uintDifference (a b : Nat) : Int := (BitVec.ofNat 32 a - BitVec.ofNat 32 b).toInt

def memcmp : List UInt8 → List UInt8 → Int
  | a :: as, b :: bs => if a = b then memcmp as bs else (a.toNat : Int) - b.toNat
  | _, _ => 0

namespace HashTable

def zendHashIndexFind (ht : HashTable α) (h : BitVec 64) : Option (Option Nat) :=
  ht.searchChain (ht.indexMatches h) h

/-- The comparison of the keys of two buckets in the ordered case. -/
def compareKeys (ht1 ht2 : HashTable α) (p1 p2 : Nat) : Int :=
  if ht1.nKeyLength p1 = 0 ∧ ht2.nKeyLength p2 = 0 then
    if ht1.h p1 ≠ ht2.h p2 then
      if ht2.h p2 < ht1.h p1 then 1 else -1
    else
      0
  else
    let result := uintDifference (ht1.nKeyLength p1) (ht2.nKeyLength p2)
    if result ≠ 0 then
      result
    else
      memcmp ((ht1.arKey p1).bytes.take (ht1.nKeyLength p1))
        ((ht2.arKey p2).bytes.take (ht1.nKeyLength p1))

/-- The lookup of the key of `p1` in the second table. -/
def findOther (ht1 ht2 : HashTable α) (p1 : Nat) : Option (Option Nat) :=
  if ht1.nKeyLength p1 = 0 then
    ht2.zendHashIndexFind (ht1.h p1)
  else
    ht2.zendHashQuickFind (ht1.callerKey p1) (ht1.h p1)

/-- The bucket that `p1` is compared with, or the result of the comparison. -/
def comparePartner (ht1 ht2 : HashTable α) (ordered : Bool) (p1 : Nat) (p2 : Option Nat) :
    Option (Except Int Nat) :=
  if ordered then
    match p2 with
    | none => some (.error 1)
    | some p2 =>
        let result := compareKeys ht1 ht2 p1 p2
        some (if result ≠ 0 then .error result else .ok p2)
  else do
    match ← findOther ht1 ht2 p1 with
    | none => some (.error 1)
    | some q => some (.ok q)

/-- A callback, which may compare tables itself. -/
abbrev Compar (α : Type*) := α → α → Protection → Option (Int × Protection)

/-- The loop over the list of the first table. -/
def compareLoop (ht1 ht2 : HashTable α) (compar : Compar α) (ordered : Bool) :
    Nat → Option Nat → Option Nat → Protection → Option (Int × Protection)
  | _, none, _, state => some (0, state)
  | 0, some _, _, _ => none
  | fuel + 1, some p1, p2, state => do
      match ← comparePartner ht1 ht2 ordered p1 p2 with
      | .error result => some (result, state)
      | .ok q =>
          let (result, state) ← compar (ht1.pData p1) (ht2.pData q) state
          if result ≠ 0 then
            some (result, state)
          else
            compareLoop ht1 ht2 compar ordered fuel (ht1.pListNext p1)
              (if ordered then ht2.pListNext q else none) state

/-- `zend_hash_compare`; `table1` and `table2` are the addresses of the two tables. The result is
`none` when the recursion is too deep, which is a fatal error. -/
def zendHashCompareWith (compar : Compar α) (state : Protection) (table1 table2 : Nat)
    (ht1 ht2 : HashTable α) (ordered : Bool) : Option (Int × Protection) := do
  let state ← state.protectBoth table1 table2
  let result := uintDifference ht1.nNumOfElements ht2.nNumOfElements
  if result ≠ 0 then
    some (result, state.unprotectBoth table1 table2)
  else
    let (result, state) ← compareLoop ht1 ht2 compar ordered ht1.brk ht1.pListHead
      (if ordered then ht2.pListHead else none) state
    some (result, state.unprotectBoth table1 table2)

/-- A callback that compares no tables. -/
def plain (compar : α → α → Int) : Compar α := fun a b state => some (compar a b, state)

def zendHashCompare (state : Protection) (table1 table2 : Nat) (ht1 ht2 : HashTable α)
    (compar : α → α → Int) (ordered : Bool) : Option (Int × Protection) :=
  zendHashCompareWith (plain compar) state table1 table2 ht1 ht2 ordered

end HashTable

/-! ### The protection against recursion -/

namespace Protection

variable {state state' : Protection} {table table1 table2 : Nat}

/-- The comparison does not fail because of the recursion. -/
def Admits (state : Protection) (table1 table2 : Nat) : Prop :=
  (state.protectBoth table1 table2).isSome

theorem protect_eq (isProtected : state.protect table = some state') :
    state'.bApplyProtection = state.bApplyProtection ∧
      state'.unprotect table = state := by
  unfold protect at isProtected
  split at isProtected
  · rename_i enabled
    split at isProtected
    · cases isProtected
    · rename_i shallow
      cases isProtected
      refine ⟨rfl, ?_⟩
      have restored : (state.nApplyCount table + 1 + 255) % 256 = state.nApplyCount table := by
        omega
      simp [unprotect, enabled, restored]
  · rename_i disabled
    cases isProtected
    exact ⟨rfl, if_neg disabled⟩

theorem unprotect_comm (state : Protection) (table1 table2 : Nat) :
    (state.unprotect table1).unprotect table2 = (state.unprotect table2).unprotect table1 := by
  by_cases same : table1 = table2
  · rw [same]
  · have other : table2 ≠ table1 := fun equal => same equal.symm
    unfold unprotect
    split <;> split <;> simp_all [Function.update_comm]

/-- The counts are what they were before. -/
theorem unprotectBoth_eq (isProtected : state.protectBoth table1 table2 = some state') :
    state'.unprotectBoth table1 table2 = state := by
  rcases Option.bind_eq_some_iff.mp isProtected with ⟨middle, first, second⟩
  rw [unprotectBoth, unprotect_comm, (protect_eq second).2, (protect_eq first).2]

end Protection

namespace HashTable

/-- The tables have the same keys, and `compar` finds no difference between the two values
of a key. -/
structure MapEqual (ht1 ht2 : HashTable α) (compar : α → α → Int) : Prop where
  keys : ∀ key, key ∈ ht1.keys ↔ key ∈ ht2.keys
  values : ∀ first ∈ ht1.contents, ∀ second ∈ ht2.contents, first.1 = second.1 →
    compar first.2 second.2 = 0

/-- The second table has the key of `p`, with a value that does not differ. -/
def HasPartner (ht1 ht2 : HashTable α) (compar : α → α → Int) (p : Nat) : Prop :=
  ∃ q ∈ ht2.elements, ht2.key q = ht1.key p ∧ compar (ht1.pData p) (ht2.pData q) = 0

/-- Stale buckets of the second table mislead the comparison: the elements that they do not
hide are equal, and the stale buckets pass where the hidden elements would not, or the
other way round. -/
def MisledCompare (ht1 ht2 : HashTable α) (compar : α → α → Int) : Prop :=
  ht1.elements.length = ht2.elements.length ∧
    (∀ p ∈ ht1.elements, (¬ ∃ s, Hides ht1 ht2 p s) → HasPartner ht1 ht2 compar p) ∧
    ((∀ p ∈ ht1.elements, ∀ s, Hides ht1 ht2 p s →
        compar (ht1.pData p) (ht2.pData s) = 0) ↔
      ¬ ∀ p ∈ ht1.elements, (∃ s, Hides ht1 ht2 p s) → HasPartner ht1 ht2 compar p)

variable {ht1 ht2 : HashTable α} {order1 : List Nat} {p : Nat} {compar : α → α → Int}

/-! ### The lookup in the second table -/

/-- A lookup ends at a bucket with the key, at a stale bucket, or nowhere. -/
theorem findOther_cases (listed : Listed ht1 order1) (proper : Proper ht2)
    (member : p ∈ order1) :
    (∃ q ∈ ht2.elements, findOther ht1 ht2 p = some (some q) ∧ ht2.key q = ht1.key p) ∨
      (∃ s, findOther ht1 ht2 p = some (some s) ∧ Hides ht1 ht2 p s) ∨
      (findOther ht1 ht2 p = some none ∧ ∀ q ∈ ht2.elements, ht2.key q ≠ ht1.key p) := by
  unfold findOther
  split
  · rename_i integer
    have isKey : ht1.key p = .index (ht1.h p) := by simp [HashTable.key, integer]
    rw [isKey]
    rcases proper.search_cases (ht2.indexMatches (ht1.h p)) (ht1.h p) with
      ⟨q, found, inside, _, accepted⟩ | ⟨found, rejected⟩
    · refine Or.inl ⟨q, inside, found, ?_⟩
      simp only [indexMatches, Bool.and_eq_true, beq_iff_eq] at accepted
      simp [HashTable.key, accepted.1, accepted.2]
    · refine Or.inr (Or.inr ⟨found, ?_⟩)
      intro q inside same
      have accepted : ht2.slot q = ht2.index (ht1.h p) ∧ ht2.indexMatches (ht1.h p) q = true :=
        @renameMatches_of_key _ ht2 _ q (.long (ht1.h p)) proper.toListed inside same
      have refused := rejected q inside accepted.1
      rw [accepted.2] at refused
      cases refused
  · rename_i stringKeyed
    rcases callerKey_bytes listed member stringKeyed with ⟨bytes, nonempty, hash⟩
    have isKey : ht1.key p = .string (ht1.callerKey p).bytes := by
      simp [HashTable.key, stringKeyed, bytes]
    rw [isKey, hash]
    rcases proper.toConsistent.search_found (ht1.callerKey p) nonempty with
      ⟨found, isFound, result⟩
    cases result with
    | real q inside same => exact Or.inl ⟨q, inside, isFound, same⟩
    | stale s _ hidden => exact Or.inr (Or.inl ⟨s, isFound, stringKeyed, hidden⟩)
    | absent noKey => exact Or.inr (Or.inr ⟨isFound, noKey⟩)

theorem findOther_hidden (listed : Listed ht1 order1) (proper : Proper ht2)
    (member : p ∈ order1) {s : Nat} (hides : Hides ht1 ht2 p s) :
    findOther ht1 ht2 p = some (some s) ∧ ht2.key s ≠ ht1.key p := by
  rcases callerKey_bytes listed member hides.1 with ⟨bytes, nonempty, hash⟩
  constructor
  · rw [findOther, if_neg hides.1, hash]
    exact proper.toConsistent.search_hidden nonempty hides.2
  · rw [hides.2.key_eq]
    simp [HashTable.key, hides.1]

theorem findOther_isSome (listed : Listed ht1 order1) (proper : Proper ht2)
    (member : p ∈ order1) : ∃ found, findOther ht1 ht2 p = some found := by
  rcases findOther_cases listed proper member with
    ⟨q, _, found, _⟩ | ⟨s, found, _⟩ | ⟨found, _⟩ <;> exact ⟨_, found⟩

/-- The element passes the test of the loop. -/
def Passes (ht1 ht2 : HashTable α) (compar : α → α → Int) (p : Nat) : Prop :=
  ∃ q, findOther ht1 ht2 p = some (some q) ∧ compar (ht1.pData p) (ht2.pData q) = 0

theorem passes_visible (listed : Listed ht1 order1) (proper : Proper ht2) (member : p ∈ order1)
    (visible : ¬ ∃ s, Hides ht1 ht2 p s) :
    Passes ht1 ht2 compar p ↔ HasPartner ht1 ht2 compar p := by
  rcases findOther_cases listed proper member with
    ⟨q, inside, found, isKey⟩ | ⟨s, _, hides⟩ | ⟨found, absent⟩
  · constructor
    · rintro ⟨q', found', equal⟩
      rw [found] at found'
      cases found'
      exact ⟨q, inside, isKey, equal⟩
    · rintro ⟨q', inside', isKey', equal⟩
      have same := proper.distinct q' inside' q inside (isKey'.trans isKey.symm)
      exact ⟨q, found, same ▸ equal⟩
  · exact absurd ⟨s, hides⟩ visible
  · constructor
    · rintro ⟨q, found', _⟩
      rw [found] at found'
      cases found'
    · rintro ⟨q, inside, isKey, _⟩
      exact absurd isKey (absent q inside)

theorem passes_hidden (listed : Listed ht1 order1) (proper : Proper ht2) (member : p ∈ order1)
    {s : Nat} (hides : Hides ht1 ht2 p s) :
    Passes ht1 ht2 compar p ↔ compar (ht1.pData p) (ht2.pData s) = 0 := by
  have found := (findOther_hidden listed proper member hides).1
  constructor
  · rintro ⟨q, found', equal⟩
    rw [found] at found'
    cases found'
    exact equal
  · intro equal
    exact ⟨s, found, equal⟩

/-! ### The loop -/

theorem compareLoop_isSome (listed : Listed ht1 order1) (proper : Proper ht2)
    (compar : α → α → Int) (ordered : Bool) {before : Option Nat} (nodes : List Nat)
    (inside : ∀ p ∈ nodes, p ∈ order1)
    (segment : Segment ht1.pListNext ht1.pListLast before nodes none) (fuel : Nat)
    (enough : nodes.length ≤ fuel) (p2 : Option Nat) (state : Protection) :
    ∃ result, compareLoop ht1 ht2 (plain compar) ordered fuel nodes.head? p2 state =
      some (result, state) := by
  induction nodes generalizing before fuel p2 with
  | nil => cases fuel <;> exact ⟨0, rfl⟩
  | cons p nodes induction =>
      cases fuel with
      | zero => simp at enough
      | succ fuel =>
          rcases segment with ⟨_, isNext, rest⟩
          have isHead : ht1.pListNext p = nodes.head? := by simpa using isNext
          have partner : ∃ found, comparePartner ht1 ht2 ordered p p2 = some found := by
            unfold comparePartner
            split
            · cases p2 <;> exact ⟨_, rfl⟩
            · rcases findOther_isSome listed proper (inside p List.mem_cons_self) with
                ⟨found, isFound⟩
              rw [isFound]
              cases found <;> exact ⟨_, rfl⟩
          rcases partner with ⟨found, isFound⟩
          simp only [List.head?_cons, compareLoop, isFound, Option.bind_eq_bind,
            Option.bind_some, isHead]
          cases found with
          | error result => exact ⟨result, rfl⟩
          | ok q =>
              simp only [plain, Option.bind_some]
              split
              · exact ⟨_, rfl⟩
              · exact induction (fun q later => inside q (List.mem_cons_of_mem _ later)) rest
                  fuel (Nat.le_of_succ_le_succ enough) _

/-- The unordered loop returns zero if every element passes its test. -/
theorem compareLoop_unordered (listed : Listed ht1 order1) (proper : Proper ht2)
    (compar : α → α → Int) {before : Option Nat} (nodes : List Nat)
    (inside : ∀ p ∈ nodes, p ∈ order1)
    (segment : Segment ht1.pListNext ht1.pListLast before nodes none) (fuel : Nat)
    (enough : nodes.length ≤ fuel) (state : Protection) :
    compareLoop ht1 ht2 (plain compar) false fuel nodes.head? none state = some (0, state) ↔
      ∀ p ∈ nodes, Passes ht1 ht2 compar p := by
  induction nodes generalizing before fuel with
  | nil => cases fuel <;> simp [compareLoop]
  | cons p nodes induction =>
      cases fuel with
      | zero => simp at enough
      | succ fuel =>
          rcases segment with ⟨_, isNext, rest⟩
          have isHead : ht1.pListNext p = nodes.head? := by simpa using isNext
          have later := induction (fun q later => inside q (List.mem_cons_of_mem _ later)) rest
            fuel (Nat.le_of_succ_le_succ enough)
          rcases findOther_isSome listed proper (inside p List.mem_cons_self) with
            ⟨found, isFound⟩
          rw [List.forall_mem_cons]
          cases found with
          | none => simp [compareLoop, comparePartner, isFound, Passes]
          | some q =>
              by_cases equal : compar (ht1.pData p) (ht2.pData q) = 0
              · simp [compareLoop, comparePartner, plain, isFound, Passes, equal, isHead, later]
              · simp [compareLoop, comparePartner, plain, isFound, Passes, equal]

/-- The loop leaves the counts to its callback. -/
theorem compareLoop_state {ordered : Bool} {fuel : Nat} {p1 p2 : Option Nat}
    {state state' : Protection} {result : Int}
    (returned : compareLoop ht1 ht2 (plain compar) ordered fuel p1 p2 state =
      some (result, state')) : state' = state := by
  induction fuel generalizing p1 p2 with
  | zero =>
      cases p1 with
      | none => exact (Prod.mk.inj (Option.some.inj returned)).2.symm
      | some p1 => cases returned
  | succ fuel induction =>
      cases p1 with
      | none => exact (Prod.mk.inj (Option.some.inj returned)).2.symm
      | some p1 =>
          rcases Option.bind_eq_some_iff.mp returned with ⟨partner, _, rest⟩
          cases partner with
          | error result => exact (Prod.mk.inj (Option.some.inj rest)).2.symm
          | ok q =>
              simp only [plain, Option.bind_eq_bind, Option.bind_some] at rest
              split at rest
              · exact (Prod.mk.inj (Option.some.inj rest)).2.symm
              · exact induction rest

theorem uintDifference_eq_zero {a b : Nat} (aBound : a < 2 ^ 32) (bBound : b < 2 ^ 32) :
    uintDifference a b = 0 ↔ a = b := by
  constructor
  · intro zero
    have same : BitVec.ofNat 32 a - BitVec.ofNat 32 b = 0#32 := BitVec.eq_of_toInt_eq zero
    bv_omega
  · rintro rfl
    simp [uintDifference]

/-! ### The whole function -/

section Compare

variable (proper1 : Proper ht1) (proper2 : Proper ht2) {state state' : Protection}
  {table1 table2 : Nat}

/-- On every way out the counts are what they were. -/
theorem zendHashCompare_restores {ordered : Bool} {result : Int}
    (returned : zendHashCompare state table1 table2 ht1 ht2 compar ordered =
      some (result, state')) : state' = state := by
  rcases Option.bind_eq_some_iff.mp returned with ⟨inner, isProtected, rest⟩
  have restored := Protection.unprotectBoth_eq isProtected
  dsimp only at rest
  split at rest
  · cases rest
    exact restored
  · rcases Option.bind_eq_some_iff.mp rest with ⟨⟨_, last⟩, looped, isResult⟩
    cases isResult
    rw [compareLoop_state looped]
    exact restored

include proper1 proper2 in
theorem zendHashCompare_returns (admits : state.Admits table1 table2)
    (compar : α → α → Int) (ordered : Bool) :
    ∃ result, zendHashCompare state table1 table2 ht1 ht2 compar ordered =
      some (result, state) := by
  rcases Option.isSome_iff_exists.mp admits with ⟨inner, isProtected⟩
  have looped := compareLoop_isSome proper1.toListed proper2 compar ordered ht1.elements
    (fun _ => id) proper1.linked ht1.brk proper1.length_le
    (if ordered then ht2.pListHead else none) inner
  rw [← proper1.head] at looped
  rcases looped with ⟨result, isResult⟩
  have restored := Protection.unprotectBoth_eq isProtected
  simp only [zendHashCompare, zendHashCompareWith, isProtected, isResult, Option.bind_eq_bind,
    Option.bind_some, restored]
  split <;> exact ⟨_, rfl⟩

include proper1 proper2 in
/-- The result is zero if the tables have equally many elements and each of the first
passes its test. -/
theorem zendHashCompare_zero (admits : state.Admits table1 table2) (compar : α → α → Int) :
    zendHashCompare state table1 table2 ht1 ht2 compar false = some (0, state) ↔
      ht1.elements.length = ht2.elements.length ∧
        ∀ p ∈ ht1.elements, Passes ht1 ht2 compar p := by
  rcases Option.isSome_iff_exists.mp admits with ⟨inner, isProtected⟩
  have restored := Protection.unprotectBoth_eq isProtected
  have looped := compareLoop_unordered proper1.toListed proper2 compar ht1.elements
    (fun _ => id) proper1.linked ht1.brk proper1.length_le inner
  rw [← proper1.head] at looped
  have counts : uintDifference ht1.nNumOfElements ht2.nNumOfElements = 0 ↔
      ht1.elements.length = ht2.elements.length := by
    rw [proper1.counted, proper2.counted]
    exact uintDifference_eq_zero proper1.few proper2.few
  simp only [zendHashCompare, zendHashCompareWith, isProtected, Option.bind_eq_bind,
    Option.bind_some, restored, Bool.false_eq_true, if_false]
  rw [← looped, ← counts]
  by_cases same : uintDifference ht1.nNumOfElements ht2.nNumOfElements = 0
  · simp only [same, ne_eq, not_true_eq_false, if_false, Option.bind_eq_some_iff, true_and]
    constructor
    · rintro ⟨⟨result, last⟩, returned, same⟩
      obtain rfl := compareLoop_state returned
      have isZero : result = 0 := (Prod.mk.inj (Option.some.inj same)).1
      rwa [isZero] at returned
    · exact fun returned => ⟨_, returned, by rw [restored]⟩
  · simp [same]

include proper1 proper2 in
/-- Same keys and no difference between values, said from the side of the first table: the
other direction follows by counting. -/
theorem mapEqual_iff :
    MapEqual ht1 ht2 compar ↔
      ht1.elements.length = ht2.elements.length ∧
        ∀ p ∈ ht1.elements, HasPartner ht1 ht2 compar p := by
  have lengths : ∀ ht : HashTable α, ht.keys.length = ht.elements.length := fun ht =>
    List.length_map _
  constructor
  · intro equal
    have permuted : ht1.keys.Perm ht2.keys :=
      (List.perm_ext_iff_of_nodup proper1.keys_nodup proper2.keys_nodup).mpr equal.keys
    refine ⟨by rw [← lengths, ← lengths, permuted.length_eq], ?_⟩
    intro p member
    rcases mem_keys.mp ((equal.keys (ht1.key p)).mp (List.mem_map_of_mem member)) with
      ⟨q, inside, isKey⟩
    exact ⟨q, inside, isKey, equal.values (ht1.pair p) (List.mem_map_of_mem member)
      (ht2.pair q) (List.mem_map_of_mem inside) isKey.symm⟩
  · rintro ⟨sameLength, partners⟩
    have subset : ht1.keys ⊆ ht2.keys := by
      intro key present
      rcases mem_keys.mp present with ⟨p, member, rfl⟩
      rcases partners p member with ⟨q, inside, isKey, _⟩
      exact mem_keys.mpr ⟨q, inside, isKey⟩
    have permuted : ht1.keys.Perm ht2.keys :=
      (proper1.keys_nodup.subperm subset).perm_of_length_le
        (by rw [lengths, lengths]; exact Nat.le_of_eq sameLength.symm)
    refine ⟨fun key => permuted.mem_iff, ?_⟩
    intro first inFirst second inSecond sameKey
    rcases List.mem_map.mp inFirst with ⟨p, member, rfl⟩
    rcases List.mem_map.mp inSecond with ⟨q, inside, rfl⟩
    rcases partners p member with ⟨q', inside', isKey, equal⟩
    have same := proper2.distinct q' inside' q inside (isKey.trans sameKey)
    exact same ▸ equal

include proper1 proper2 in
/-- What the loop tests, for the elements that stale buckets hide and for the others. -/
theorem passes_iff :
    (∀ p ∈ ht1.elements, Passes ht1 ht2 compar p) ↔
      (∀ p ∈ ht1.elements, (¬ ∃ s, Hides ht1 ht2 p s) → HasPartner ht1 ht2 compar p) ∧
        ∀ p ∈ ht1.elements, ∀ s, Hides ht1 ht2 p s →
          compar (ht1.pData p) (ht2.pData s) = 0 := by
  constructor
  · intro passes
    constructor
    · intro p member visible
      exact (passes_visible proper1.toListed proper2 member visible).mp (passes p member)
    · intro p member s hides
      exact (passes_hidden proper1.toListed proper2 member hides).mp (passes p member)
  · rintro ⟨visible, hidden⟩ p member
    by_cases hides : ∃ s, Hides ht1 ht2 p s
    · rcases hides with ⟨s, hides⟩
      exact (passes_hidden proper1.toListed proper2 member hides).mpr
        (hidden p member s hides)
    · exact (passes_visible proper1.toListed proper2 member hides).mpr
        (visible p member hides)

include proper1 proper2 in
/-- Zero is returned for equal maps and only for them, unless stale buckets mislead the
comparison. -/
theorem zero_iff_mapEqual (admits : state.Admits table1 table2) :
    (zendHashCompare state table1 table2 ht1 ht2 compar false = some (0, state) ↔
      MapEqual ht1 ht2 compar) ↔ ¬ MisledCompare ht1 ht2 compar := by
  have split : (∀ p ∈ ht1.elements, HasPartner ht1 ht2 compar p) ↔
      (∀ p ∈ ht1.elements, (¬ ∃ s, Hides ht1 ht2 p s) → HasPartner ht1 ht2 compar p) ∧
        ∀ p ∈ ht1.elements, (∃ s, Hides ht1 ht2 p s) → HasPartner ht1 ht2 compar p := by
    constructor
    · intro partners
      exact ⟨fun p member _ => partners p member, fun p member _ => partners p member⟩
    · rintro ⟨visible, hidden⟩ p member
      by_cases hides : ∃ s, Hides ht1 ht2 p s
      · exact hidden p member hides
      · exact visible p member hides
  rw [zendHashCompare_zero proper1 proper2 admits, mapEqual_iff proper1 proper2,
    passes_iff proper1 proper2, split, MisledCompare]
  tauto

end Compare

/-- For all well-formed tables and every comparison of values, the unordered comparison
returns zero for equal maps and only for them, exactly when no stale bucket of the second
table misleads it; then the result zero is symmetric if it is so for values; and whatever
is returned, the recursion counts are what they were at the start. -/
theorem zendHashCompare_mapEqual_iff (ht1 ht2 : HashTable α) (proper1 : Proper ht1)
    (proper2 : Proper ht2) (compar : α → α → Int) (state : Protection)
    (table1 table2 : Nat) :
    (∀ ordered result state',
      zendHashCompare state table1 table2 ht1 ht2 compar ordered = some (result, state') →
        state' = state) ∧
    (state.Admits table1 table2 →
      (∀ ordered, ∃ result,
        zendHashCompare state table1 table2 ht1 ht2 compar ordered = some (result, state)) ∧
      ((zendHashCompare state table1 table2 ht1 ht2 compar false = some (0, state) ↔
        MapEqual ht1 ht2 compar) ↔ ¬ MisledCompare ht1 ht2 compar) ∧
      ((∀ a b, compar a b = 0 ↔ compar b a = 0) → ¬ MisledCompare ht1 ht2 compar →
        ¬ MisledCompare ht2 ht1 compar → state.Admits table2 table1 →
        (zendHashCompare state table1 table2 ht1 ht2 compar false = some (0, state) ↔
          zendHashCompare state table2 table1 ht2 ht1 compar false = some (0, state)))) := by
  refine ⟨fun _ _ _ returned => zendHashCompare_restores returned, ?_⟩
  intro admits
  refine ⟨fun ordered => zendHashCompare_returns proper1 proper2 admits compar ordered,
    zero_iff_mapEqual proper1 proper2 admits, ?_⟩
  intro symmetric fine fine' admits'
  rw [(zero_iff_mapEqual proper1 proper2 admits).mpr fine,
    (zero_iff_mapEqual proper2 proper1 admits').mpr fine']
  have turn : ∀ first second : HashTable α, MapEqual first second compar →
      MapEqual second first compar := by
    intro first second equal
    refine ⟨fun key => (equal.keys key).symm, ?_⟩
    intro one inOne other inOther sameKey
    exact (symmetric _ _).mp (equal.values other inOther one inOne sameKey.symm)
  exact ⟨turn ht1 ht2, turn ht2 ht1⟩

/-- Tables without open comparisons. -/
def unlocked : Protection := ⟨fun _ => true, fun _ => 0⟩

/-- The same two keys, added in one order and in the other. -/
def addedInOrder : List (Op Unit) :=
  [.indexUpdateOrNextInsert 0 () .nextInsert, .addOrUpdate internedK () .add]

def addedInReverse : List (Op Unit) :=
  [.addOrUpdate internedK () .add, .indexUpdateOrNextInsert 0 () .nextInsert]

theorem zendHashCompare_mapEqual_iff_reversed :
    ∃ ht1 ht2 : HashTable Unit, Reachable Safe ht1 ∧ Reachable Safe ht2 ∧
      ((zendHashCompare unlocked 0 1 ht1 ht2 (fun _ _ => 0) false = some (0, unlocked) ↔
        MapEqual ht1 ht2 (fun _ _ => 0)) ↔ ¬ MisledCompare ht1 ht2 (fun _ _ => 0)) := by
  have firstEnds : (playFitting ((blankMemory ()).zendHashInit 8) addedInOrder).isSome :=
    by decide +kernel
  have secondEnds : (playFitting ((blankMemory ()).zendHashInit 16) addedInReverse).isSome :=
    by decide +kernel
  rcases Option.isSome_iff_exists.mp firstEnds with ⟨ht1, played1⟩
  rcases Option.isSome_iff_exists.mp secondEnds with ⟨ht2, played2⟩
  have reachable1 := reachable_of_play rfl played1
  have reachable2 := reachable_of_play rfl played2
  exact ⟨ht1, ht2, reachable1, reachable2,
    ((zendHashCompare_mapEqual_iff ht1 ht2 (proper_of_reachable reachable1)
      (proper_of_reachable reachable2) (fun _ _ => 0) unlocked 0 1).2 rfl).2.1⟩

/-- A table with the key `k` and one with the key 0 in its place. -/
theorem renumberedRun_compare :
    ((playFitting ((blankMemory ()).zendHashInit 8) (renumberedRun.take 1)).bind fun ht1 =>
      (playFitting ((blankMemory ()).zendHashInit 8) renumberedRun).map fun ht2 =>
        ((zendHashCompare unlocked 0 1 ht1 ht2 (fun _ _ => 0) false).map Prod.fst,
          ht1.keys, ht2.keys)) =
      some (some 0, [.string internedK.bytes], [.index 0]) := by
  decide +kernel

/-- Zero is returned for tables with different keys. -/
theorem zendHashCompare_misled :
    ∃ ht1 ht2 : HashTable Unit, Reachable Safe ht1 ∧ Reachable Safe ht2 ∧
      zendHashCompare unlocked 0 1 ht1 ht2 (fun _ _ => 0) false = some (0, unlocked) ∧
      ¬ MapEqual ht1 ht2 (fun _ _ => 0) := by
  rcases Option.bind_eq_some_iff.mp renumberedRun_compare with ⟨ht1, played1, rest⟩
  rcases Option.map_eq_some_iff.mp rest with ⟨ht2, played2, facts⟩
  have returned := congrArg Prod.fst facts
  have keys1 : ht1.keys = [.string internedK.bytes] := congrArg (fun all => all.2.1) facts
  have keys2 : ht2.keys = [.index 0] := congrArg (fun all => all.2.2) facts
  rcases Option.map_eq_some_iff.mp returned with ⟨⟨result, state⟩, isResult, zero⟩
  have restored := zendHashCompare_restores isResult
  have isZero : result = 0 := zero
  subst restored isZero
  refine ⟨ht1, ht2, reachable_of_play rfl played1, reachable_of_play rfl played2, isResult,
    ?_⟩
  intro equal
  have present := (equal.keys (.string internedK.bytes)).mp (by rw [keys1]; simp)
  rw [keys2] at present
  simp at present

end HashTable

end PhpRuntime.Hash
