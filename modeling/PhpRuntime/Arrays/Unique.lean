import PhpRuntime.Arrays.Tables
import PhpRuntime.Sort.Sorted

/-! # `array_unique` -/

namespace PhpRuntime.Arrays

open Hash Hash.HashTable PhpRuntime.Sort Exchange

section Unique

variable (ht : HashTable α) (compare : α → α → Int)

/-- `php_array_data_compare` on two entries of `arTmp`, by the values of their buckets. -/
def compareEntries (first second : Nat × Nat) : Int :=
  compare (ht.pData first.1) (ht.pData second.1)

/-- The loop over the sorted entries; duplicates are deleted from `copied`. -/
def uniqueLoop : Nat × Nat → List (Nat × Nat) → HashTable α → Option (HashTable α)
  | _, [], copied => some copied
  | lastkept, cmpdata :: rest, copied =>
      if compareEntries ht compare lastkept cmpdata ≠ 0 then
        uniqueLoop cmpdata rest copied
      else if cmpdata.2 < lastkept.2 then do
        let copied ← deleteLike copied ht lastkept.1
        uniqueLoop cmpdata rest copied
      else do
        let copied ← deleteLike copied ht cmpdata.1
        uniqueLoop lastkept rest copied

/-- `array_unique`, with the comparison that `sort_type` selects. The entries of `arTmp` are the
buckets with their places and one behind them; the number of entries that memory is asked for is
a `uint`. -/
def arrayUnique (memory : HashTable α) : Option (HashTable α) := do
  let copied ← copyTable memory ht
  if ht.nNumOfElements ≤ 1 then
    some copied
  else do
    let listed ← Linked.follow ht.pListNext ht.brk ht.pListHead
    guard (listed.length + 1 ≤ uint (ht.nNumOfElements + 1))
    let arTmp ← zendQsort (listArray (Nat × Nat) 16) (compareEntries ht compare)
      listed.zipIdx listed.length
    match arTmp with
    | [] => none
    | lastkept :: rest => uniqueLoop ht compare lastkept rest copied

end Unique

/-- The pairs whose value is equal to none in front of them. -/
def uniquePairs (compare : α → α → Int) (pairs : List (κ × α)) : List (κ × α) :=
  (pairs.zipIdx.filter fun entry =>
    (pairs.take entry.2).all fun earlier => compare earlier.2 entry.1.2 != 0).map Prod.fst

/-! ## What a pass over sorted entries drops -/

section Dropping

variable {compare : ε → ε → Int} {place : ε → Nat}

/-- The entries that are dropped by the pass when `kept` is the last one that was kept. -/
def dropped (compare : ε → ε → Int) (place : ε → Nat) : ε → List ε → List ε
  | _, [] => []
  | kept, entry :: rest =>
      if compare kept entry ≠ 0 then dropped compare place entry rest
      else if place entry < place kept then kept :: dropped compare place entry rest
      else entry :: dropped compare place kept rest

theorem dropped_subset {kept entry : ε} {rest : List ε}
    (member : entry ∈ dropped compare place kept rest) : entry ∈ kept :: rest := by
  induction rest generalizing kept with
  | nil => cases member
  | cons head rest induction =>
      rw [dropped] at member
      split at member
      · exact List.mem_cons_of_mem _ (induction member)
      · split at member
        · rcases List.mem_cons.mp member with isKept | later
          · exact isKept ▸ List.mem_cons_self
          · exact List.mem_cons_of_mem _ (induction later)
        · rcases List.mem_cons.mp member with isHead | later
          · exact isHead ▸ List.mem_cons_of_mem _ List.mem_cons_self
          · rcases List.mem_cons.mp (induction later) with isKept | inRest
            · exact isKept ▸ List.mem_cons_self
            · exact List.mem_cons_of_mem _ (List.mem_cons_of_mem _ inRest)

/-- An equal entry with a smaller place is in front of everything that another one is. -/
theorem precedes_of_equal (preorder : TotalPreorder compare) {first second entry : ε}
    (equal : compare first second = 0) (less : place first < place second)
    (precedes : compare second entry = 0 ∧ place second < place entry) :
    compare first entry = 0 ∧ place first < place entry :=
  ⟨preorder.equal_trans equal precedes.1, Nat.lt_trans less precedes.2⟩

/-- Of sorted entries, those are dropped that have an equal one with a smaller place. -/
theorem mem_dropped_iff (preorder : TotalPreorder compare) {kept : ε} {rest : List ε}
    (sorted : (kept :: rest).Pairwise fun x y => compare x y ≤ 0)
    (apart : (kept :: rest).Pairwise fun x y => place x ≠ place y) {entry : ε}
    (member : entry ∈ kept :: rest) :
    entry ∈ dropped compare place kept rest ↔
      ∃ other ∈ kept :: rest, compare other entry = 0 ∧ place other < place entry := by
  induction rest generalizing kept with
  | nil =>
      cases List.mem_singleton.mp member
      simp [dropped]
  | cons head rest induction =>
      rw [List.pairwise_cons] at sorted apart
      have headSorted := sorted.1 head List.mem_cons_self
      have headApart := apart.1 head List.mem_cons_self
      have keptOut : kept ∉ head :: rest := fun inside => apart.1 kept inside rfl
      have headOut : head ∉ rest := fun inside => (List.pairwise_cons.mp apart.2).1 head inside rfl
      rw [dropped]
      split
      · rename_i different
        -- `kept` is the only entry of its class that is left
        have alone : ∀ x ∈ head :: rest, compare kept x ≠ 0 := by
          intro x inside equal
          apply different
          rcases List.mem_cons.mp inside with isHead | inRest
          · exact isHead ▸ equal
          · exact preorder.equal_of_between headSorted
              ((List.pairwise_cons.mp sorted.2).1 x inRest) equal
        rcases List.mem_cons.mp member with isKept | later
        · subst isKept
          constructor
          · intro isDropped
            exact absurd (dropped_subset isDropped) keptOut
          · rintro ⟨other, inside, equal, less⟩
            rcases List.mem_cons.mp inside with isSame | behind
            · rw [isSame] at less
              exact absurd less (Nat.lt_irrefl _)
            · exact absurd (preorder.equal_symm equal) (alone other behind)
        · rw [induction sorted.2 apart.2 later]
          constructor
          · rintro ⟨other, inside, precedes⟩
            exact ⟨other, List.mem_cons_of_mem _ inside, precedes⟩
          · rintro ⟨other, inside, precedes⟩
            rcases List.mem_cons.mp inside with isKept | behind
            · exact absurd (isKept ▸ precedes.1) (alone entry later)
            · exact ⟨other, behind, precedes⟩
      · rename_i notDifferent
        have equal : compare kept head = 0 := Decidable.not_not.mp notDifferent
        split
        · rename_i smaller
          have headFirst := preorder.equal_symm equal
          rcases List.mem_cons.mp member with isKept | later
          · subst isKept
            exact ⟨fun _ => ⟨head, by simp, headFirst, smaller⟩, fun _ => List.mem_cons_self⟩
          · have notKept : entry ≠ kept := fun isKept => keptOut (isKept ▸ later)
            rw [List.mem_cons, or_iff_right notKept, induction sorted.2 apart.2 later]
            constructor
            · rintro ⟨other, inside, precedes⟩
              exact ⟨other, List.mem_cons_of_mem _ inside, precedes⟩
            · rintro ⟨other, inside, precedes⟩
              rcases List.mem_cons.mp inside with isKept | behind
              · exact ⟨head, List.mem_cons_self,
                  precedes_of_equal preorder headFirst smaller (isKept ▸ precedes)⟩
              · exact ⟨other, behind, precedes⟩
        · rename_i notSmaller
          have larger : place kept < place head := by omega
          have restSorted : (kept :: rest).Pairwise fun x y => compare x y ≤ 0 :=
            List.pairwise_cons.mpr ⟨fun x inside => sorted.1 x (List.mem_cons_of_mem _ inside),
              (List.pairwise_cons.mp sorted.2).2⟩
          have restApart : (kept :: rest).Pairwise fun x y => place x ≠ place y :=
            List.pairwise_cons.mpr ⟨fun x inside => apart.1 x (List.mem_cons_of_mem _ inside),
              (List.pairwise_cons.mp apart.2).2⟩
          by_cases isHead : entry = head
          · subst isHead
            exact ⟨fun _ => ⟨kept, List.mem_cons_self, equal, larger⟩,
              fun _ => List.mem_cons_self⟩
          · have inside : entry ∈ kept :: rest := by
              simp only [List.mem_cons, isHead, false_or] at member ⊢
              exact member
            rw [List.mem_cons, or_iff_right isHead, induction restSorted restApart inside]
            constructor
            · rintro ⟨other, among, precedes⟩
              refine ⟨other, ?_, precedes⟩
              simp only [List.mem_cons] at among ⊢
              exact among.imp_right Or.inr
            · rintro ⟨other, among, precedes⟩
              simp only [List.mem_cons] at among
              rcases among with isKept | isOtherHead | behind
              · exact ⟨other, List.mem_cons.mpr (Or.inl isKept), precedes⟩
              · exact ⟨kept, List.mem_cons_self,
                  precedes_of_equal preorder equal larger (isOtherHead ▸ precedes)⟩
              · exact ⟨other, List.mem_cons_of_mem _ behind, precedes⟩

end Dropping

variable {ht : HashTable α} {compare : α → α → Int}

/-- The loop deletes the entries that the pass drops, one after the other. -/
theorem uniqueLoop_eq (lastkept : Nat × Nat) (rest : List (Nat × Nat)) (copied : HashTable α) :
    uniqueLoop ht compare lastkept rest copied =
      ((dropped (compareEntries ht compare) Prod.snd lastkept rest).map Prod.fst).foldlM
        (fun copied p => deleteLike copied ht p) copied := by
  induction rest generalizing lastkept copied with
  | nil => rfl
  | cons cmpdata rest induction =>
      rw [uniqueLoop, dropped]
      split
      · exact induction cmpdata copied
      · split
        · rw [List.map_cons, List.foldlM_cons]
          congr
          funext next
          exact induction cmpdata next
        · rw [List.map_cons, List.foldlM_cons]
          congr
          funext next
          exact induction lastkept next

theorem compareEntries_preorder (preorder : TotalPreorder compare) :
    TotalPreorder (compareEntries ht compare) where
  antisymmetric _ _ := preorder.antisymmetric _ _
  transitive _ _ _ := preorder.transitive _ _ _

/-- An entry has an equal one with a smaller place exactly if an earlier pair is equal. -/
theorem precedes_iff_earlier {order : List Nat} {entry : Nat × Nat} :
    (∃ other ∈ order.zipIdx, compareEntries ht compare other entry = 0 ∧ other.2 < entry.2) ↔
      ∃ earlier ∈ (order.map ht.pair).take entry.2,
        compare earlier.2 (ht.pData entry.1) = 0 := by
  constructor
  · rintro ⟨⟨q, j⟩, member, equal, less⟩
    rw [List.mem_zipIdx_iff_getElem?] at member
    refine ⟨ht.pair q, ?_, equal⟩
    apply @List.mem_of_getElem? _ _ j
    rw [List.getElem?_take_of_lt less, List.getElem?_map, member]
    rfl
  · rintro ⟨earlier, member, equal⟩
    rcases List.getElem?_of_mem member with ⟨j, here⟩
    have less : j < entry.2 := by
      have bound := (List.getElem?_eq_some_iff.mp here).1
      rw [List.length_take] at bound
      omega
    rw [List.getElem?_take_of_lt less, List.getElem?_map, Option.map_eq_some_iff] at here
    rcases here with ⟨q, isQ, rfl⟩
    exact ⟨(q, j), List.mem_zipIdx_iff_getElem?.mpr isQ, equal, less⟩

theorem uniquePairs_contents (ht : HashTable α) (compare : α → α → Int) :
    uniquePairs compare ht.contents =
      (ht.elements.zipIdx.filter fun entry => (ht.contents.take entry.2).all fun earlier =>
        compare earlier.2 (ht.pData entry.1) != 0).map (ht.pair ∘ Prod.fst) := by
  have entries : ht.contents.zipIdx = ht.elements.zipIdx.map (Prod.map ht.pair id) := by
    rw [HashTable.contents, List.zipIdx_map]
  rw [uniquePairs, entries, List.filter_map, List.map_map]
  rfl

/-- What is left of the pairs when the keys of the dropped entries are taken out. -/
theorem filter_dropped (distinct : Distinct ht ht.elements) (nodup : ht.elements.Nodup)
    {gone : List (Nat × Nat)} (inside : ∀ entry ∈ gone, entry ∈ ht.elements.zipIdx)
    (isGone : ∀ entry ∈ ht.elements.zipIdx, entry ∈ gone ↔
      ∃ other ∈ ht.elements.zipIdx, compareEntries ht compare other entry = 0 ∧
        other.2 < entry.2) :
    (ht.contents.filter fun pair => decide (pair.1 ∉ (gone.map Prod.fst).map ht.key)) =
      uniquePairs compare ht.contents := by
  have entries : ht.contents = ht.elements.zipIdx.map (ht.pair ∘ Prod.fst) := by
    rw [← List.map_map, List.zipIdx_map_fst]
    rfl
  rw [uniquePairs_contents]
  nth_rewrite 1 [entries]
  rw [List.filter_map]
  congr 1
  apply List.filter_congr
  intro entry member
  have isEntry := List.mem_zipIdx_iff_getElem?.mp member
  have mentioned : ht.key entry.1 ∈ (gone.map Prod.fst).map ht.key ↔ entry ∈ gone := by
    constructor
    · intro isKey
      rcases List.mem_map.mp isKey with ⟨q, isBucket, sameKey⟩
      rcases List.mem_map.mp isBucket with ⟨other, isOther, rfl⟩
      have otherEntry := List.mem_zipIdx_iff_getElem?.mp (inside other isOther)
      have sameBucket := distinct other.1 (List.mem_of_getElem? otherEntry) entry.1
        (List.mem_of_getElem? isEntry) sameKey
      have bound := (List.getElem?_eq_some_iff.mp otherEntry).1
      have samePlace : other.2 = entry.2 := by
        apply (List.getElem?_inj bound nodup).mp
        rw [otherEntry, isEntry, sameBucket]
      exact (Prod.ext sameBucket samePlace : other = entry) ▸ isOther
    · intro isMember
      exact List.mem_map_of_mem (List.mem_map_of_mem isMember)
  have earlier := @precedes_iff_earlier _ ht compare ht.elements entry
  have kept : decide (ht.key entry.1 ∉ (gone.map Prod.fst).map ht.key) =
      (ht.contents.take entry.2).all fun earlier =>
        compare earlier.2 (ht.pData entry.1) != 0 := by
    rw [Bool.eq_iff_iff, decide_eq_true_iff, mentioned, isGone entry member, earlier]
    simp [HashTable.contents]
  exact kept

/-- The entries of the sorted array are those of the list, each with its own place. -/
theorem apart_of_perm {order : List Nat} {arTmp : List (Nat × Nat)}
    (perm : arTmp.Perm order.zipIdx) : arTmp.Pairwise fun x y => x.2 ≠ y.2 := by
  have places : (arTmp.map Prod.snd).Nodup := by
    rw [(perm.map Prod.snd).nodup_iff, List.zipIdx_map_snd]
    exact List.nodup_range'
  exact List.pairwise_map.mp places

/-- There is memory for the entries and the one behind them if a `uint` can count them all. -/
theorem arrayUnique_keeps_firsts (proper : Proper ht) (preorder : TotalPreorder compare)
    (memory : HashTable α) (countable : ht.contents.length < 2 ^ 32 - 1) :
    ∃ ht', arrayUnique ht compare memory = some ht' ∧ Proper ht' ∧
      ht'.contents = uniquePairs compare ht.contents := by
  rcases copyTable_spec proper memory with ⟨copied, isCopy, copiedProper, same⟩
  have isLength : ht.contents.length = ht.elements.length := List.length_map _
  have counted := proper.counted
  have room : ht.elements.length + 1 ≤ uint (ht.nNumOfElements + 1) := by
    rw [uint, Nat.mod_eq_of_lt (by omega)]
    omega
  by_cases few : ht.nNumOfElements ≤ 1
  · refine ⟨copied, ?_, copiedProper, ?_⟩
    · simp only [arrayUnique, isCopy, Option.bind_eq_bind, Option.bind_some, if_pos few]
    · have short : ht.contents.length ≤ 1 := by
        rw [HashTable.contents, List.length_map]
        omega
      rw [same]
      rcases shape : ht.contents with _ | ⟨pair, _ | ⟨_, _⟩⟩
      · rfl
      · rfl
      · simp [shape] at short
  · have few64 : ht.elements.zipIdx.length < 2 ^ 64 := by
      have bound := proper.few
      rw [List.length_zipIdx]
      omega
    rcases zendQsort_list (@compareEntries_preorder _ ht compare preorder) (by decide : 0 < 16)
      few64 with ⟨arTmp, isSorted, perm, sorted⟩
    rw [List.length_zipIdx] at isSorted
    cases arTmp with
    | nil =>
        have length := perm.length_eq
        rw [List.length_zipIdx, List.length_nil] at length
        omega
    | cons lastkept rest =>
        have inside : ∀ entry ∈ dropped (compareEntries ht compare) Prod.snd lastkept rest,
            entry ∈ ht.elements.zipIdx := fun entry member =>
          perm.mem_iff.mp (dropped_subset member)
        have keyed : ∀ p ∈ (dropped (compareEntries ht compare) Prod.snd lastkept rest).map
            Prod.fst, ht.Keyed p := by
          intro p member
          rcases List.mem_map.mp member with ⟨entry, isDropped, rfl⟩
          have isEntry := List.mem_zipIdx_iff_getElem?.mp (inside entry isDropped)
          exact proper.keyed entry.1 (List.mem_of_getElem? isEntry)
        rcases foldlM_deleteLike copiedProper keyed with ⟨ht', deleted, result, contents⟩
        refine ⟨ht', ?_, result, ?_⟩
        · simp only [arrayUnique, isCopy, if_neg few, proper.follow_eq, isSorted,
            Option.bind_eq_bind, Option.bind_some, guard, if_pos room, Option.pure_def]
          rw [uniqueLoop_eq, deleted]
        · rw [contents, same]
          apply filter_dropped proper.distinct proper.nodup inside
          intro entry member
          rw [mem_dropped_iff (compareEntries_preorder preorder) sorted (apart_of_perm perm)
            (perm.mem_iff.mpr member)]
          constructor
          · rintro ⟨other, among, precedes⟩
            exact ⟨other, perm.mem_iff.mp among, precedes⟩
          · rintro ⟨other, among, precedes⟩
            exact ⟨other, perm.mem_iff.mpr among, precedes⟩

/-- With 2^32 - 1 elements memory is asked for no entry at all. -/
theorem arrayUnique_overflows (proper : Proper ht) (memory : HashTable α)
    (many : 2 ^ 32 - 1 ≤ ht.contents.length) : arrayUnique ht compare memory = none := by
  rcases copyTable_spec proper memory with ⟨copied, isCopy, _⟩
  have isLength : ht.contents.length = ht.elements.length := List.length_map _
  have counted := proper.counted
  have few := proper.few
  have noRoom : ¬ ht.elements.length + 1 ≤ uint (ht.nNumOfElements + 1) := by
    rw [show ht.nNumOfElements + 1 = 2 ^ 32 by omega, uint, Nat.mod_self]
    omega
  simp only [arrayUnique, isCopy, if_neg (show ¬ ht.nNumOfElements ≤ 1 by omega),
    proper.follow_eq, Option.bind_eq_bind, Option.bind_some, guard, if_neg noRoom]
  rfl

/-- For every array and every comparison that is a total preorder, the elements whose value
is equal to none in front of them are left, with their keys and in their order, exactly if the
array has fewer than 2^32 - 1 elements. -/
theorem arrayUnique_keeps_firsts_iff (ht : HashTable α) (proper : Proper ht)
    (compare : α → α → Int) (preorder : TotalPreorder compare) (memory : HashTable α) :
    (∃ ht', arrayUnique ht compare memory = some ht' ∧ Proper ht' ∧
      ht'.contents = uniquePairs compare ht.contents) ↔ ht.contents.length < 2 ^ 32 - 1 := by
  constructor
  · rintro ⟨ht', isUnique, _⟩
    by_contra many
    rw [arrayUnique_overflows proper memory (Nat.le_of_not_lt many)] at isUnique
    cases isUnique
  · exact arrayUnique_keeps_firsts proper preorder memory

/-- The order of the integers. -/
def compareInts (x y : Int) : Int := x - y

theorem compareInts_preorder : TotalPreorder compareInts where
  antisymmetric x y := by
    simp only [compareInts]
    omega
  transitive x y z := by
    simp only [compareInts]
    omega

/-- Three values of which the last one is the first one again. -/
def threeValues : List (Op Int) :=
  [.indexUpdateOrNextInsert 0 7 .nextInsert, .indexUpdateOrNextInsert 0 5 .nextInsert,
    .indexUpdateOrNextInsert 0 7 .nextInsert]

theorem arrayUnique_keeps_firsts_iff_three :
    ∃ ht : HashTable Int, ht.contents = [(.index 0, 7), (.index 1, 5), (.index 2, 7)] ∧
      ∃ ht', arrayUnique ht compareInts (blankMemory 0) = some ht' ∧ Proper ht' ∧
        ht'.contents = uniquePairs compareInts ht.contents := by
  have played : (playFitting ((blankMemory 0).zendHashInit 8) threeValues).map
      (fun ht => ht.contents) = some [(.index 0, 7), (.index 1, 5), (.index 2, 7)] := by
    decide +kernel
  rcases Option.map_eq_some_iff.mp played with ⟨ht, isPlayed, contents⟩
  exact ⟨ht, contents, (arrayUnique_keeps_firsts_iff ht
    (proper_of_reachable (reachable_of_play rfl isPlayed)) compareInts compareInts_preorder
    (blankMemory 0)).mpr (by rw [contents]; decide)⟩

theorem arrayUnique_of_long_array :
    ∃ ht : HashTable Unit, Reachable Safe ht ∧ ht.contents.length = 2 ^ 32 - 1 ∧
      TotalPreorder (fun _ _ : Unit => 0) ∧
      arrayUnique ht (fun _ _ => 0) (blankMemory ()) = none := by
  rcases filled_safe (2 ^ 32 - 1) (by decide) with ⟨ht, reachable, elements⟩
  have length : ht.contents.length = 2 ^ 32 - 1 := (List.length_map _).trans elements
  exact ⟨ht, reachable, length, ⟨by simp, by simp⟩,
    arrayUnique_overflows (proper_of_reachable reachable) _ length.ge⟩

end PhpRuntime.Arrays
