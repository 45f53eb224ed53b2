import PhpRuntime.Hash.AppendPosition

/-! String lookup and the contents of the table.

The lookups accept a bucket as soon as its `arKey` is the caller's pointer. Renumbering
a string-keyed bucket, or renaming it to an integer, leaves an old or unknown pointer in
`arKey`, so that a lookup can stop at an integer-keyed bucket. -/

namespace PhpRuntime.Hash

open Function (update)
open PhpRuntime.Linked

namespace HashTable

variable {ht : HashTable α} {order : List Nat} {p : Nat} {key : CallerKey}

/-- The lookups, additions and updates with a string key do what the contents say. -/
structure LookupAgrees (ht : HashTable α) (key : CallerKey) : Prop where
  find : ∃ found, ht.zendHashFind key = some found ∧
    ht.zendHashQuickFind key (zendInlineHashFunc key.bytes) = some found ∧
    match found with
    | some p => p ∈ ht.elements ∧ ht.key p = .string key.bytes
    | none => Key.string key.bytes ∉ ht.keys
  ifExists : ht.zendHashExists key = some (decide (Key.string key.bytes ∈ ht.keys)) ∧
    ht.zendHashQuickExists key (zendInlineHashFunc key.bytes) =
      some (decide (Key.string key.bytes ∈ ht.keys))
  insert : ∀ data flag, ∃ ht' entry, ht.zendHashAddOrUpdate key data flag = some (ht', entry) ∧
    ht.zendHashQuickAddOrUpdate key (zendInlineHashFunc key.bytes) data flag =
      some (ht', entry) ∧
    if Key.string key.bytes ∈ ht.keys then
      ht'.elements = ht.elements ∧ ∃ p ∈ ht.elements, ht.key p = .string key.bytes ∧
        if flag = .add then entry = none ∧ ht'.pData = ht.pData
        else entry = some p ∧ ht'.pData = update ht.pData p data
    else
      ∃ p, entry = some p ∧ ht'.elements = ht.elements ++ [p] ∧
        ht'.key p = .string key.bytes ∧ ht'.pData = update ht.pData p data

/-- In the chain of the key's hash value, an integer-keyed bucket that still carries the
caller's pointer stands before every bucket with the key. -/
def StaleFirst (ht : HashTable α) (key : CallerKey) : Prop :=
  ∃ front s back,
    follow ht.pNext ht.brk (ht.arBuckets (ht.index (zendInlineHashFunc key.bytes))) =
      some (front ++ s :: back) ∧
    ht.nKeyLength s = 0 ∧ key.samePointer (ht.arKey s) = true ∧
    ∀ r ∈ front, ht.key r ≠ .string key.bytes

/-- A bucket that a string lookup accepts has the key or is stale. -/
theorem key_of_keyMatches (listed : Listed ht order) (nonempty : key.bytes ≠ [])
    (member : p ∈ order)
    (accepted : ht.keyMatches key (zendInlineHashFunc key.bytes) p = true) :
    ht.key p = .string key.bytes ∨
      ht.nKeyLength p = 0 ∧ key.samePointer (ht.arKey p) = true := by
  rcases key_of_renameMatches (.string key) listed nonempty member accepted with
    same | ⟨bytes, isKey, integer, pointer⟩
  · exact Or.inl same
  · cases isKey
    exact Or.inr ⟨integer, by simp [CallerKey.samePointer, pointer]⟩

theorem keyMatches_of_samePointer (same : key.samePointer (ht.arKey p) = true)
    (h : BitVec 64) : ht.keyMatches key h p = true := by
  simp [keyMatches, same]

/-- A string lookup takes the first bucket in the chain that it accepts, which has the key or is
stale, and finds nothing only if no bucket has the key. -/
theorem Consistent.search_first (consistent : Consistent ht order) (nonempty : key.bytes ≠ []) :
    ∃ found, ht.searchChain (ht.keyMatches key (zendInlineHashFunc key.bytes))
        (zendInlineHashFunc key.bytes) = some found ∧
      match found with
      | some q => q ∈ order ∧ (ht.key q = .string key.bytes ∨ ∃ front back,
          follow ht.pNext ht.brk (ht.arBuckets (ht.index (zendInlineHashFunc key.bytes))) =
            some (front ++ q :: back) ∧
          ht.nKeyLength q = 0 ∧ key.samePointer (ht.arKey q) = true ∧
          ∀ r ∈ front, ht.key r ≠ .string key.bytes ∧ key.samePointer (ht.arKey r) = false)
      | none => ∀ q ∈ order, ht.key q ≠ .string key.bytes := by
  rcases consistent.search_eq (ht.keyMatches key (zendInlineHashFunc key.bytes))
    (zendInlineHashFunc key.bytes) with ⟨chain, isChain, isFound, members⟩
  refine ⟨_, isFound, ?_⟩
  have accepts : ∀ r ∈ order, ht.key r = .string key.bytes →
      r ∈ chain ∧ ht.keyMatches key (zendInlineHashFunc key.bytes) r = true := by
    intro r member isKey
    have accepted := keyMatches_of_key consistent.toListed member isKey
    exact ⟨(members r).mpr ⟨member, accepted.1⟩, accepted.2⟩
  cases found : chain.find? (ht.keyMatches key (zendInlineHashFunc key.bytes)) with
  | some q =>
      rcases List.find?_eq_some_iff_append.mp found with
        ⟨accepted, front, back, split, rejected⟩
      have inList := ((members q).mp (List.mem_of_find?_eq_some found)).1
      apply And.intro inList
      rcases key_of_keyMatches consistent.toListed nonempty inList accepted with
        isKey | ⟨integer, pointer⟩
      · exact Or.inl isKey
      · refine Or.inr ⟨front, back, split ▸ isChain, integer, pointer, ?_⟩
        intro r inFront
        have inChain : r ∈ chain := by simp [split, inFront]
        have refused : ht.keyMatches key (zendInlineHashFunc key.bytes) r = false := by
          simpa using rejected r inFront
        constructor
        · intro isKey
          rw [(accepts r ((members r).mp inChain).1 isKey).2] at refused
          cases refused
        · simp only [keyMatches, Bool.or_eq_false_iff] at refused
          exact refused.1
  | none =>
      intro q member isKey
      have accepted := accepts q member isKey
      exact List.find?_eq_none.mp found q accepted.1 accepted.2

/-- Without a stale bucket in front, the chain search finds the bucket with the key. -/
theorem search_agrees (consistent : Consistent ht order) (nonempty : key.bytes ≠ [])
    (notStale : ¬ StaleFirst ht key) :
    ∃ found, ht.searchChain (ht.keyMatches key (zendInlineHashFunc key.bytes))
        (zendInlineHashFunc key.bytes) = some found ∧
      match found with
      | some p => p ∈ order ∧ ht.key p = .string key.bytes
      | none => Key.string key.bytes ∉ order.map ht.key := by
  rcases consistent.search_first nonempty with ⟨found, isFound, first⟩
  refine ⟨found, isFound, ?_⟩
  cases found with
  | some p =>
      rcases first with ⟨member, isKey | ⟨front, back, isChain, integer, pointer, before⟩⟩
      · exact ⟨member, isKey⟩
      · exact absurd ⟨front, p, back, isChain, integer, pointer, fun r inFront =>
          (before r inFront).1⟩ notStale
  | none =>
      intro present
      rcases List.mem_map.mp present with ⟨r, member, isKey⟩
      exact first r member isKey

theorem lookupAgrees_of_not_stale (consistent : Consistent ht order)
    (nonempty : key.bytes ≠ []) (notStale : ¬ StaleFirst ht key) : LookupAgrees ht key := by
  have isOrder := consistent.elements_eq
  rcases search_agrees consistent nonempty notStale with ⟨found, isFound, agrees⟩
  have isPresent : found.isSome = decide (Key.string key.bytes ∈ ht.keys) := by
    rw [keys, isOrder]
    cases found with
    | some p =>
        have present : Key.string key.bytes ∈ order.map ht.key :=
          List.mem_map.mpr ⟨p, agrees⟩
        simpa using present
    | none => simpa using agrees
  refine ⟨⟨found, isFound, isFound, ?_⟩, ?_, ?_⟩
  · rw [keys, isOrder]
    exact agrees
  · simp only [zendHashExists, zendHashQuickExists, isFound, Option.bind_eq_bind,
      Option.bind_some, isPresent, and_self]
  · intro data flag
    rw [keys, isOrder]
    rcases quickAddOrUpdate_spec consistent key data flag with
      ⟨p, _, _, searched, equal⟩ | ⟨rejected, ht', equal, appended⟩
    · rw [isFound] at searched
      cases searched
      have present : Key.string key.bytes ∈ order.map ht.key :=
        List.mem_map.mpr ⟨p, agrees⟩
      by_cases adding : flag = .add
      · rw [if_pos adding] at equal
        refine ⟨ht, none, equal, equal, ?_⟩
        rw [if_pos present, isOrder]
        exact ⟨rfl, p, agrees.1, agrees.2, by simp [adding]⟩
      · rw [if_neg adding] at equal
        have updated : Consistent { ht with pData := update ht.pData p data } order :=
          { consistent with }
        refine ⟨_, some p, equal, equal, ?_⟩
        rw [if_pos present, updated.elements_eq]
        exact ⟨rfl, p, agrees.1, agrees.2, by simp [adding]⟩
    · have absent : Key.string key.bytes ∉ order.map ht.key := by
        intro present
        rcases List.mem_map.mp present with ⟨q, member, isKey⟩
        have accepted := keyMatches_of_key consistent.toListed member isKey
        have refused := rejected q member accepted.1
        rw [accepted.2] at refused
        cases refused
      have long : key.nKeyLength ≠ 0 := by simpa [CallerKey.nKeyLength] using nonempty
      refine ⟨ht', some ht.brk, equal, equal, ?_⟩
      rw [if_neg absent]
      refine ⟨ht.brk, rfl, appended.consistent.elements_eq, ?_, appended.pData⟩
      rw [appended.key, if_neg long, stored_bytes]

theorem not_lookupAgrees_of_stale (consistent : Consistent ht order)
    (stale : StaleFirst ht key) : ¬ LookupAgrees ht key := by
  rcases stale with ⟨front, s, back, isChain, integer, pointer, before⟩
  rcases consistent.search_eq (ht.keyMatches key (zendInlineHashFunc key.bytes))
    (zendInlineHashFunc key.bytes) with ⟨chain, isChain', isFound, _⟩
  rw [isChain] at isChain'
  cases isChain'
  have stops := keyMatches_of_samePointer pointer (zendInlineHashFunc key.bytes)
  intro agrees
  rcases agrees.find with ⟨found, _, searched, result⟩
  rw [zendHashQuickFind, isFound, List.find?_append, List.find?_cons_of_pos stops] at searched
  cases inFront : front.find? (ht.keyMatches key (zendInlineHashFunc key.bytes)) with
  | some t =>
      rw [inFront] at searched
      cases searched
      exact before t (List.mem_of_find?_eq_some inFront) result.2
  | none =>
      rw [inFront] at searched
      cases searched
      have isIndex := result.2
      simp [HashTable.key, integer] at isIndex

/-- In every table reached by operations that fit the element counter, a string key is
looked up, added and updated as the contents of the table say exactly when no stale
bucket comes first in its chain. -/
theorem lookupAgrees_iff_not_staleFirst (ht : HashTable α)
    (reachable : Reachable (fun ht op => op.Fits ht) ht) (key : CallerKey)
    (nonempty : key.bytes ≠ []) : LookupAgrees ht key ↔ ¬ StaleFirst ht key := by
  rcases ahead_of_reachable reachable with ⟨order, consistent, _, _⟩
  constructor
  · intro agrees stale
    exact not_lookupAgrees_of_stale consistent stale agrees
  · exact lookupAgrees_of_not_stale consistent nonempty

theorem lookupAgrees_iff_not_staleFirst_mixed :
    ∃ ht, playFitting ((blankMemory ()).zendHashInit 8) mixedKeys = some ht ∧
      (LookupAgrees ht internedK ↔ ¬ StaleFirst ht internedK) := by
  rcases mixedKeys_played with ⟨ht, played, _⟩
  exact ⟨ht, played, lookupAgrees_iff_not_staleFirst ht
    ((reachable_of_play rfl played).mono fun _ _ => And.left) internedK (by decide)⟩

/-- Adding the interned string `k` and renumbering all keys. -/
def renumberedRun : List (Op Unit) := [.addOrUpdate internedK () .add, .reindex false]

theorem renumberedRun_lookup :
    (playFitting ((blankMemory ()).zendHashInit 8) renumberedRun).map
        (fun ht => (ht.zendHashQuickFind internedK (zendInlineHashFunc internedK.bytes),
          ht.key 0)) = some (some (some 0), .index 0) := by
  decide +kernel

/-- The table holds the integer key 0 only, and the string `k` is found in it. -/
theorem lookupAgrees_fails_after_renumbering :
    ∃ (ht : HashTable Unit) (key : CallerKey), Reachable (fun _ _ => True) ht ∧
      key.bytes ≠ [] ∧ ¬ LookupAgrees ht key := by
  rcases Option.map_eq_some_iff.mp renumberedRun_lookup with ⟨ht, played, facts⟩
  rcases Prod.mk.inj facts with ⟨searched, isIndex⟩
  refine ⟨ht, internedK, (reachable_of_play rfl played).mono fun _ _ _ => trivial, by decide, ?_⟩
  intro agrees
  rcases agrees.find with ⟨found, _, isFound, result⟩
  rw [searched] at isFound
  cases isFound
  have isString : ht.key 0 = .string internedK.bytes := result.2
  rw [isIndex] at isString
  cases isString

end HashTable

end PhpRuntime.Hash
