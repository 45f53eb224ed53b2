import PhpRuntime.Hash.StringLookup

/-! The contents of a table as its user sees them: pairs of key and value, in list order. -/

namespace PhpRuntime.Hash

open Function (update)
open PhpRuntime.Linked

namespace HashTable

def pair (ht : HashTable α) (p : Nat) : Key × α := (ht.key p, ht.pData p)

def contents (ht : HashTable α) : List (Key × α) := ht.elements.map ht.pair

/-- The pointer points to the element at `i`. -/
def Denotes (ht : HashTable α) (pointer : Option Nat) (i : Nat) : Prop :=
  ∃ p, pointer = some p ∧ ht.elements[i]? = some p

/-- A well-formed table: its list, chains, counters and cursor belong together, and no key
occurs twice. -/
structure Proper (ht : HashTable α) : Prop extends Consistent ht ht.elements where
  distinct : Distinct ht ht.elements
  few : ht.elements.length < 2 ^ 32

variable {ht ht' : HashTable α} {order order' : List Nat} {p q : Nat} {key : CallerKey}

theorem Proper.counted (proper : Proper ht) : ht.nNumOfElements = ht.elements.length :=
  proper.count.trans (Nat.mod_eq_of_lt proper.few)

theorem Consistent.proper (consistent : Consistent ht order) (distinct : Distinct ht order)
    (few : order.length < 2 ^ 32) : Proper ht := by
  have isOrder := consistent.elements_eq
  subst isOrder
  exact { consistent with distinct, few }

theorem proper_of_reachable (reachable : Reachable Safe ht) : Proper ht := by
  rcases represents_of_reachable reachable with ⟨order, consistent, few, distinct⟩
  exact consistent.proper distinct few

theorem Listed.contents_eq (listed : Listed ht order) : ht.contents = order.map ht.pair := by
  rw [contents, listed.elements_eq]

theorem Listed.denotes (listed : Listed ht order) {pointer : Option Nat} {i : Nat}
    (here : order[i]? = some p) (isPointer : pointer = some p) : ht.Denotes pointer i :=
  ⟨p, isPointer, by rw [listed.elements_eq]; exact here⟩

theorem SameKey.pair (same : SameKey ht ht' p) (sameData : ht'.pData p = ht.pData p) :
    ht'.pair p = ht.pair p := by
  rw [HashTable.pair, HashTable.pair, same.key, sameData]

theorem Proper.keys_nodup (proper : Proper ht) : ht.keys.Nodup :=
  List.Nodup.map_on (fun p pMember q qMember => proper.distinct p pMember q qMember)
    proper.nodup

theorem mem_keys {key : Key} : key ∈ ht.keys ↔ ∃ p ∈ ht.elements, ht.key p = key :=
  List.mem_map

/-! ### Lookups that stop at a stale bucket -/

/-- The lookup of `key` stops at the integer-keyed bucket `s`: it is the first one in the
chain that has the key or still carries its pointer. -/
def HiddenBy (ht : HashTable α) (key : CallerKey) (s : Nat) : Prop :=
  ∃ front back,
    follow ht.pNext ht.brk (ht.arBuckets (ht.index (zendInlineHashFunc key.bytes))) =
      some (front ++ s :: back) ∧
    ht.nKeyLength s = 0 ∧ key.samePointer (ht.arKey s) = true ∧
    ∀ r ∈ front, ht.key r ≠ .string key.bytes ∧ key.samePointer (ht.arKey r) = false

/-- What a string lookup finds: a bucket with the key, a stale bucket, or nothing. -/
inductive Found (ht : HashTable α) (key : CallerKey) : Option Nat → Prop where
  | real (q : Nat) (member : q ∈ ht.elements) (isKey : ht.key q = .string key.bytes) :
      Found ht key (some q)
  | stale (s : Nat) (member : s ∈ ht.elements) (hidden : HiddenBy ht key s) :
      Found ht key (some s)
  | absent (noKey : ∀ q ∈ ht.elements, ht.key q ≠ .string key.bytes) : Found ht key none

theorem Consistent.search_found (consistent : Consistent ht order) (key : CallerKey)
    (nonempty : key.bytes ≠ []) :
    ∃ found, ht.searchChain (ht.keyMatches key (zendInlineHashFunc key.bytes))
        (zendInlineHashFunc key.bytes) = some found ∧ Found ht key found := by
  have isOrder := consistent.elements_eq
  rcases consistent.search_first nonempty with ⟨found, isFound, first⟩
  refine ⟨found, isFound, ?_⟩
  cases found with
  | some q =>
      rcases first with ⟨member, isKey | hidden⟩
      · exact .real q (isOrder ▸ member) isKey
      · exact .stale q (isOrder ▸ member) hidden
  | none => exact .absent (isOrder ▸ first)

/-- A hidden key is not found, even if a bucket further on has it. -/
theorem Consistent.search_hidden (consistent : Consistent ht order) {s : Nat}
    (nonempty : key.bytes ≠ []) (hidden : HiddenBy ht key s) :
    ht.searchChain (ht.keyMatches key (zendInlineHashFunc key.bytes))
      (zendInlineHashFunc key.bytes) = some (some s) := by
  rcases hidden with ⟨front, back, isChain, _, pointer, before⟩
  rcases consistent.search_eq (ht.keyMatches key (zendInlineHashFunc key.bytes))
    (zendInlineHashFunc key.bytes) with ⟨chain, isChain', isFound, members⟩
  rw [isChain] at isChain'
  cases isChain'
  have stops := keyMatches_of_samePointer pointer (zendInlineHashFunc key.bytes)
  have none : front.find? (ht.keyMatches key (zendInlineHashFunc key.bytes)) = none := by
    apply List.find?_eq_none.mpr
    intro r inFront accepted
    have inList := ((members r).mp (List.mem_append_left _ inFront)).1
    rcases key_of_keyMatches consistent.toListed nonempty inList accepted with
      isKey | ⟨_, samePointer⟩
    · exact (before r inFront).1 isKey
    · rw [(before r inFront).2] at samePointer
      cases samePointer
  rw [isFound, List.find?_append, none, List.find?_cons_of_pos stops]
  rfl

/-- In the table `ht`, the lookup of the key of the bucket `p` of `source` stops at the stale
bucket `s`. -/
def Hides (source ht : HashTable α) (p s : Nat) : Prop :=
  source.nKeyLength p ≠ 0 ∧ HiddenBy ht (source.callerKey p) s

theorem HiddenBy.key_eq {s : Nat} (hidden : HiddenBy ht key s) :
    ht.key s = .index (ht.h s) := by
  rcases hidden with ⟨_, _, _, integer, _⟩
  simp [HashTable.key, integer]

/-! ### Deleting a bucket -/

theorem Consistent.delete (consistent : Consistent ht order) (member : q ∈ order) :
    Consistent (ht.zendHashBucketDelete q) (order.erase q) := by
  rcases List.append_of_mem member with ⟨front, back, rfl⟩
  have absent : q ∉ front := fun inFront =>
    (List.nodup_cons.mp (List.nodup_middle.mp consistent.nodup)).1
      (List.mem_append_left _ inFront)
  rw [List.erase_append_right _ absent, List.erase_cons_head]
  exact zendHashBucketDelete_consistent consistent

theorem bucketDelete_pair (ht : HashTable α) (q : Nat) :
    (ht.zendHashBucketDelete q).pair = ht.pair := rfl

end HashTable

end PhpRuntime.Hash
