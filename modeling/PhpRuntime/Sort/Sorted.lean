import PhpRuntime.Sort.Robust

/-! `zend_qsort_r` sorts, if the comparison is a total preorder. -/

namespace PhpRuntime.Sort

open PhpRuntime.Exchange

/-- The signs of a total preorder. -/
structure TotalPreorder (compare : α → α → Int) : Prop where
  antisymmetric : ∀ x y, 0 < compare x y ↔ compare y x < 0
  transitive : ∀ x y z, compare x y ≤ 0 → compare y z ≤ 0 → compare x z ≤ 0

/-- Two places that are not in one open segment. -/
structure OrderedOutside (compare : α → α → Int) (segments : List (Nat × Nat))
    (list : List α) : Prop where
  apart : segments.Pairwise fun first second => first.2 ≤ second.1 ∨ second.2 ≤ first.1
  ordered : ∀ i j x y, i < j → list[i]? = some x → list[j]? = some y →
    compare x y ≤ 0 ∨ ∃ segment ∈ segments, segment.1 ≤ i ∧ j < segment.2

section Sorted

variable {compare : α → α → Int} (preorder : TotalPreorder compare)

/-- The comparison as the sort calls it. -/
def stateless (compare : α → α → Int) : Unit → α → α → Int × Unit :=
  fun s x y => (compare x y, s)

include preorder in
theorem TotalPreorder.le_of_mayPrecede {x y : α} (answer : MayPrecede (stateless compare) x y) :
    compare x y ≤ 0 := by
  rcases answer with ⟨_, greater⟩ | ⟨_, notGreater⟩
  · exact Int.le_of_lt ((preorder.antisymmetric y x).mp greater)
  · exact notGreater

include preorder in
theorem TotalPreorder.refl (x : α) : compare x x ≤ 0 := by
  have same := preorder.antisymmetric x x
  omega

include preorder in
theorem TotalPreorder.le_of_not_lt {x y : α} (notLess : ¬compare x y < 0) : compare y x ≤ 0 := by
  have sign := preorder.antisymmetric y x
  omega

include preorder in
theorem TotalPreorder.equal_symm {x y : α} (equal : compare x y = 0) : compare y x = 0 := by
  have forward := preorder.antisymmetric x y
  have backward := preorder.antisymmetric y x
  omega

include preorder in
theorem TotalPreorder.equal_trans {x y z : α} (first : compare x y = 0)
    (second : compare y z = 0) : compare x z = 0 := by
  have forward := preorder.transitive x y z (Int.le_of_eq first) (Int.le_of_eq second)
  have backward := preorder.transitive z y x (Int.le_of_eq (preorder.equal_symm second))
    (Int.le_of_eq (preorder.equal_symm first))
  have sign := preorder.antisymmetric z x
  omega

include preorder in
/-- What is between two equal elements is equal to them. -/
theorem TotalPreorder.equal_of_between {x y z : α} (lower : compare x y ≤ 0)
    (upper : compare y z ≤ 0) (equal : compare x z = 0) : compare x y = 0 := by
  have back := preorder.transitive y z x upper (Int.le_of_eq (preorder.equal_symm equal))
  have sign := preorder.antisymmetric y x
  omega

/-- The place before a rearrangement of an element that is there afterwards. -/
theorem origin_of_rearranged {lo hi : Nat} {list list' : List α}
    (rearranged : Rearranged lo hi list list') (k : Nat) :
    ∃ origin, list'[k]? = list[origin]? ∧
      (lo ≤ k ∧ k < hi ∧ lo ≤ origin ∧ origin < hi ∨ (k < lo ∨ hi ≤ k) ∧ origin = k) := by
  by_cases inWindow : lo ≤ k ∧ k < hi
  · rcases rearranged.inside inWindow.1 inWindow.2 with ⟨origin, lower, upper, equal⟩
    exact ⟨origin, equal, Or.inl ⟨inWindow.1, inWindow.2, lower, upper⟩⟩
  · have out : k < lo ∨ hi ≤ k := by omega
    exact ⟨k, rearranged.outside out, Or.inr ⟨out, rfl⟩⟩

/-- Two places of which at least one is outside of the rearranged segment. -/
theorem OrderedOutside.across {lo hi : Nat} {rest : List (Nat × Nat)} {list list' : List α}
    (before : OrderedOutside compare ((lo, hi) :: rest) list)
    (rearranged : Rearranged lo hi list list') {i j : Nat} {x y : α} (less : i < j)
    (out : i < lo ∨ hi ≤ j) (isX : list'[i]? = some x) (isY : list'[j]? = some y) :
    compare x y ≤ 0 ∨ ∃ segment ∈ rest, segment.1 ≤ i ∧ j < segment.2 := by
  rcases List.pairwise_cons.mp before.apart with ⟨fromRest, _⟩
  rcases origin_of_rearranged rearranged i with ⟨i', iEqual, iOrigin⟩
  rcases origin_of_rearranged rearranged j with ⟨j', jEqual, jOrigin⟩
  rw [iEqual] at isX
  rw [jEqual] at isY
  rcases before.ordered i' j' x y (by omega) isX isY with le | ⟨segment, member, lower, upper⟩
  · exact Or.inl le
  · rcases List.mem_cons.mp member with isOwn | inRest
    · subst isOwn
      dsimp only at lower upper
      omega
    · have away := fromRest segment inRest
      dsimp only at away
      exact Or.inr ⟨segment, inRest, by omega, by omega⟩

include preorder in
/-- Two places of a segment that was partitioned. -/
theorem Partitioned.ordered {lo hi split : Nat} {list list' : List α}
    (partitioned : Partitioned (stateless compare) list list' lo hi split) {i j : Nat} {x y : α}
    (lower : lo ≤ i) (upper : j < hi) (isX : list'[i]? = some x) (isY : list'[j]? = some y) :
    compare x y ≤ 0 ∨ j < split ∨ split < i := by
  by_cases sameSide : j < split ∨ split < i
  · exact Or.inr sameSide
  · have jBound := (List.getElem?_eq_some_iff.mp isY).1
    have isPivot := List.getElem?_eq_getElem (l := list') (i := split) (by omega)
    have xLe : compare x list'[split] ≤ 0 := by
      by_cases here : i = split
      · subst here
        cases isPivot.symm.trans isX
        exact preorder.refl _
      · exact preorder.le_of_mayPrecede
          (partitioned.low i x _ lower (by omega) isX isPivot)
    have leY : compare list'[split] y ≤ 0 := by
      by_cases here : j = split
      · subst here
        cases isPivot.symm.trans isY
        exact preorder.refl _
      · exact preorder.le_of_mayPrecede
          (partitioned.high j y _ (by omega) upper isY isPivot)
    exact Or.inl (preorder.transitive x _ y xLe leY)

include preorder in
/-- A partition orders the two parts of its segment to each other and to the pivot. -/
theorem OrderedOutside.divide {lo hi split : Nat} {rest : List (Nat × Nat)} {list list' : List α}
    (before : OrderedOutside compare ((lo, hi) :: rest) list)
    (partitioned : Partitioned (stateless compare) list list' lo hi split) :
    OrderedOutside compare ((lo, split) :: (split + 1, hi) :: rest) list' := by
  rcases List.pairwise_cons.mp before.apart with ⟨fromRest, restApart⟩
  have loSplit := partitioned.le_split
  have splitHi := partitioned.split_lt
  constructor
  · refine List.pairwise_cons.mpr ⟨?_, List.pairwise_cons.mpr ⟨?_, restApart⟩⟩
    · intro segment member
      rcases List.mem_cons.mp member with isRight | inRest
      · subst isRight
        exact Or.inl (Nat.le_succ split)
      · have away := fromRest segment inRest
        dsimp only at away ⊢
        omega
    · intro segment inRest
      have away := fromRest segment inRest
      dsimp only at away ⊢
      omega
  · intro i j x y less isX isY
    by_cases out : i < lo ∨ hi ≤ j
    · rcases before.across partitioned.rearranged less out isX isY with
        le | ⟨segment, member, contains⟩
      · exact Or.inl le
      · exact Or.inr ⟨segment, by simp [member], contains⟩
    · rcases Partitioned.ordered preorder partitioned (by omega) (by omega) isX isY with
        le | left | right
      · exact Or.inl le
      · exact Or.inr ⟨(lo, split), by simp, by omega, left⟩
      · exact Or.inr ⟨(split + 1, hi), by simp, right, by omega⟩

include preorder in
theorem orderedInvariant : LoopInvariant (stateless compare) (OrderedOutside compare) where
  divide _ _ _ _ _ _ before partitioned := before.divide preorder partitioned
  close lo hi rest list small before := by
    refine ⟨(List.pairwise_cons.mp before.apart).2, fun i j x y less isX isY => ?_⟩
    rcases before.ordered i j x y less isX isY with le | ⟨segment, member, lower, upper⟩
    · exact Or.inl le
    · rcases List.mem_cons.mp member with isOwn | inRest
      · subst isOwn
        dsimp only at lower upper
        omega
      · exact Or.inr ⟨segment, inRest, lower, upper⟩
  reorder first second rest list before := by
    refine ⟨?_, fun i j x y less isX isY => ?_⟩
    · exact (List.Perm.swap second first rest).pairwise before.apart fun away => away.symm
    · rcases before.ordered i j x y less isX isY with le | ⟨segment, member, contains⟩
      · exact Or.inl le
      · exact Or.inr ⟨segment, (List.Perm.swap second first rest).mem_iff.mp member, contains⟩

/-- Both properties of the loops at once. -/
theorem LoopInvariant.and {compare : σ → α → α → Int × σ}
    {first second : List (Nat × Nat) → List α → Prop} (one : LoopInvariant compare first)
    (other : LoopInvariant compare second) :
    LoopInvariant compare fun segments list => first segments list ∧ second segments list where
  divide lo hi split rest list list' before partitioned :=
    ⟨one.divide lo hi split rest list list' before.1 partitioned,
      other.divide lo hi split rest list list' before.2 partitioned⟩
  close lo hi rest list small before :=
    ⟨one.close lo hi rest list small before.1, other.close lo hi rest list small before.2⟩
  reorder a b rest list before :=
    ⟨one.reorder a b rest list before.1, other.reorder a b rest list before.2⟩

/-- A sorted permutation. -/
def SortedFrom (compare : α → α → Int) (list list' : List α) : Prop :=
  list'.Perm list ∧ list'.Pairwise fun x y => compare x y ≤ 0

include preorder in
theorem zendQsort_sorts {array : ElementArray M α} (positive : 0 < array.siz) {m : M}
    (isSize : (array.elements m).length < 2 ^ 64) :
    ∃ m', zendQsort array compare m (array.elements m).length = some m' ∧
      SortedFrom compare (array.elements m) (array.elements m') := by
  have start : OrderedOutside compare [(0, (array.elements m).length)] (array.elements m) := by
    refine ⟨List.pairwise_singleton _ _, fun i j x y less isX isY =>
      Or.inr ⟨_, List.mem_cons_self, ?_⟩⟩
    exact ⟨Nat.zero_le i, (List.getElem?_eq_some_iff.mp isY).1⟩
  rcases zendQsortR_spec ((orderedInvariant preorder).and (permInvariant _ (array.elements m)))
    positive isSize ⟨start, .refl _⟩ () with ⟨m', s', equal, ordered, perm⟩
  refine ⟨m', ?_, perm, ?_⟩
  · change (zendQsortR array (stateless compare) m _ ()).bind (fun result => some result.1) = _
    rw [equal]
    rfl
  · rw [List.pairwise_iff_getElem]
    intro i j iBound jBound less
    rcases ordered.ordered i j _ _ less (List.getElem?_eq_getElem iBound)
      (List.getElem?_eq_getElem jBound) with le | ⟨segment, member, _⟩
    · exact le
    · cases member

include preorder in
/-- An array of pointers. -/
theorem zendQsort_list {siz : Nat} (positive : 0 < siz) {list : List α}
    (isSize : list.length < 2 ^ 64) :
    ∃ sorted, zendQsort (listArray α siz) compare list list.length = some sorted ∧
      SortedFrom compare list sorted :=
  @zendQsort_sorts α compare preorder _ (listArray α siz) positive list isSize

end Sorted

/-- An array of bytes. -/
theorem zendQsort_bytes {compare : List UInt8 → List UInt8 → Int}
    (preorder : TotalPreorder compare) {nmemb : Nat} (isSize : nmemb < 2 ^ 64) (siz : Nat)
    (memory : Memory nmemb siz) :
    ∃ memory', zendQsort (byteArray nmemb siz) compare memory nmemb = some memory' ∧
      SortedFrom compare memory.elements memory'.elements := by
  rcases Nat.eq_zero_or_pos siz with empty | positive
  · subst empty
    refine ⟨memory, ?_, .refl _, ?_⟩
    · rw [zendQsort, zendQsortR_empty _ _ rfl]
      rfl
    · -- elements without bytes are all the same
      apply List.pairwise_of_forall_mem_list
      intro x xMember y yMember
      have noBytes : ∀ z ∈ memory.elements, z = [] := by
        intro z member
        rcases List.mem_map.mp member with ⟨i, _, isZ⟩
        rw [← isZ]
        exact List.take_zero
      rw [noBytes x xMember, noBytes y yMember]
      exact preorder.refl _
  · have length := memory.length_elements
    have result := @zendQsort_sorts _ compare preorder _ (byteArray nmemb siz) positive memory
      (length.trans_lt isSize)
    rw [show ((byteArray nmemb siz).elements memory).length = nmemb from length] at result
    exact result

end PhpRuntime.Sort
