import PhpRuntime.Sort.Partition
import PhpRuntime.Sort.Bytes

/-! The loops of `zend_qsort_r` around the partition: they end, and the stacks are large
enough, whatever the comparison answers. -/

namespace PhpRuntime.Sort

open PhpRuntime.Exchange

/-- The addresses of the first and of the last element of a segment, which is given by the
place of its first element and the place behind its last one. -/
def addresses (siz : Nat) (segment : Nat × Nat) : Int × Int :=
  ((segment.1 : Int) * siz, ((segment.2 : Int) - 1) * siz)

/-- The larger part of a segment is put off, so a segment with `k` segments below it on the
stack has fewer than `2 ^ (64 - k)` elements. -/
def Shallow : List (Nat × Nat) → Prop
  | [] => True
  | segment :: rest =>
      segment.2 - segment.1 + 1 ≤ 2 ^ (qsortStackSize - rest.length) ∧ Shallow rest

/-- A bound for the number of rounds that are left. -/
def remaining : List (Nat × Nat) → Nat
  | [] => 0
  | segment :: rest => 2 * (segment.2 - segment.1) + 1 + remaining rest

def InArray (n : Nat) (segments : List (Nat × Nat)) : Prop :=
  ∀ segment ∈ segments, segment.1 ≤ segment.2 ∧ segment.2 ≤ n

/-- A property of the open segments and the elements that the loops keep. -/
structure LoopInvariant (compare : σ → α → α → Int × σ)
    (holds : List (Nat × Nat) → List α → Prop) : Prop where
  divide : ∀ lo hi split rest list list', holds ((lo, hi) :: rest) list →
    Partitioned compare list list' lo hi split →
    holds ((lo, split) :: (split + 1, hi) :: rest) list'
  close : ∀ lo hi rest list, hi ≤ lo + 1 → holds ((lo, hi) :: rest) list → holds rest list
  reorder : ∀ first second rest list, holds (first :: second :: rest) list →
    holds (second :: first :: rest) list

theorem inArray_cons {n : Nat} {segment : Nat × Nat} {rest : List (Nat × Nat)} :
    InArray n (segment :: rest) ↔
      (segment.1 ≤ segment.2 ∧ segment.2 ≤ n) ∧ InArray n rest :=
  List.forall_mem_cons

/-- The smaller part has at most half of the elements. -/
theorem Shallow.divide {lo hi smallLo smallHi largeLo largeHi : Nat} {rest : List (Nat × Nat)}
    (shallow : Shallow ((lo, hi) :: rest))
    (parts : (smallHi - smallLo) + (largeHi - largeLo) + 1 = hi - lo)
    (smaller : smallHi - smallLo ≤ largeHi - largeLo) :
    Shallow ((smallLo, smallHi) :: (largeLo, largeHi) :: rest) := by
  rcases shallow with ⟨current, below⟩
  dsimp only at current
  have deep : 0 < qsortStackSize - rest.length := by
    apply Nat.pos_of_ne_zero
    intro none
    rw [none, Nat.pow_zero] at current
    omega
  have double : 2 ^ (qsortStackSize - rest.length) =
      2 * 2 ^ (qsortStackSize - (rest.length + 1)) := by
    rw [← Nat.pow_succ', Nat.sub_add_eq, Nat.succ_eq_add_one, Nat.sub_add_cancel deep]
  refine ⟨?_, ?_, below⟩
  · dsimp only [List.length_cons]
    omega
  · dsimp only
    omega

/-- A part that replaces its segment. -/
theorem Shallow.shrink {lo hi smallLo smallHi : Nat} {rest : List (Nat × Nat)}
    (shallow : Shallow ((lo, hi) :: rest)) (smaller : smallHi - smallLo ≤ hi - lo) :
    Shallow ((smallLo, smallHi) :: rest) := by
  rcases shallow with ⟨current, below⟩
  refine ⟨?_, below⟩
  dsimp only at current ⊢
  omega

/-- A segment of three elements or more leaves a slot for one of its parts. -/
theorem Shallow.push_eq {lo hi : Nat} {rest : List (Nat × Nat)} {siz : Nat}
    (shallow : Shallow ((lo, hi) :: rest)) (large : lo + 2 < hi) (segment : Int × Int) :
    push (rest.map (addresses siz)) segment = some (segment :: rest.map (addresses siz)) := by
  have current := shallow.1
  dsimp only at current
  rw [push, if_pos]
  rw [List.length_map]
  by_contra full
  rw [Nat.sub_eq_zero_of_le (Nat.le_of_not_lt full), Nat.pow_zero] at current
  omega

section Parts

variable {siz : Nat} (positive : 0 < siz) (lo hi split : Nat)

include positive in
/-- `(seg2p - begin) <= (end - seg2p)`. -/
theorem parts_le :
    (split : Int) * siz - (addresses siz (lo, hi)).1 ≤
        (addresses siz (lo, hi)).2 - split * siz ↔ 2 * split + 1 ≤ lo + hi := by
  rw [addresses, ← Int.sub_mul, ← Int.sub_mul, address_le positive]
  omega

include positive in
/-- `(seg2p + siz) < end`. -/
theorem right_open : (split : Int) * siz + siz < (addresses siz (lo, hi)).2 ↔ split + 2 < hi := by
  rw [addresses, address_succ, address_lt positive]
  omega

include positive in
/-- `(seg2p - siz) > begin`. -/
theorem left_open : (addresses siz (lo, hi)).1 < (split : Int) * siz - siz ↔ lo + 1 < split := by
  have before : (split : Int) * siz - siz = ((split : Int) - 1) * siz := by ring
  rw [addresses, before, address_lt positive]
  omega

theorem left_addresses :
    ((addresses siz (lo, hi)).1, (split : Int) * siz - siz) = addresses siz (lo, split) := by
  simp only [addresses, Prod.mk.injEq, true_and]
  ring

theorem right_addresses :
    ((split : Int) * siz + siz, (addresses siz (lo, hi)).2) = addresses siz (split + 1, hi) := by
  rw [addresses, address_succ]
  rfl

end Parts

section Loop

variable {array : ElementArray M α} {compare : σ → α → α → Int × σ}
  {holds : List (Nat × Nat) → List α → Prop} (invariant : LoopInvariant compare holds)
  (positive : 0 < array.siz)

/-- The loop brings the array to a state without open segments. -/
def Finishes (array : ElementArray M α) (compare : σ → α → α → Int × σ)
    (holds : List (Nat × Nat) → List α → Prop) (bound fuel : Nat) : Prop :=
  ∀ {lo hi : Nat} {rest : List (Nat × Nat)} {m : M},
    holds ((lo, hi) :: rest) (array.elements m) →
    InArray (array.elements m).length ((lo, hi) :: rest) → Shallow ((lo, hi) :: rest) →
    remaining ((lo, hi) :: rest) ≤ fuel → (array.elements m).length ≤ bound → ∀ s : σ,
    ∃ m' s', qsortLoop array compare (bound + 1) fuel (rest.map (addresses array.siz))
        (addresses array.siz (lo, hi)).1 (addresses array.siz (lo, hi)).2 m s = some (m', s') ∧
      holds [] (array.elements m')

include invariant positive in
/-- A round that partitions the current segment. -/
theorem openSegment {bound fuel lo hi : Nat} {rest : List (Nat × Nat)} {m : M}
    (later : Finishes array compare holds bound fuel)
    (start : holds ((lo, hi) :: rest) (array.elements m))
    (inArray : InArray (array.elements m).length ((lo, hi) :: rest))
    (shallow : Shallow ((lo, hi) :: rest)) (enough : remaining ((lo, hi) :: rest) ≤ fuel + 1)
    (boundEnough : (array.elements m).length ≤ bound) (isOpen : lo + 1 < hi) (s : σ) :
    ∃ m' s', qsortLoop array compare (bound + 1) (fuel + 1) (rest.map (addresses array.siz))
        (addresses array.siz (lo, hi)).1 (addresses array.siz (lo, hi)).2 m s = some (m', s') ∧
      holds [] (array.elements m') := by
  rcases inArray_cons.mp inArray with ⟨⟨_, hiBound⟩, restInArray⟩
  have isLast : ((hi : Int) - 1) * array.siz = (hi - 1 : Nat) * array.siz := by
    rw [Nat.cast_sub (by omega : 1 ≤ hi)]
    rfl
  rcases @partition_spec M α σ array compare positive bound lo (hi - 1) m (by omega)
    (by dsimp only at hiBound; omega) (by dsimp only at hiBound; omega) s with
    ⟨m₁, split, s₁, equal, partitioned⟩
  rw [Nat.sub_add_cancel (by omega)] at partitioned
  have splitFrom := partitioned.le_split
  have splitTo := partitioned.split_lt
  have sameLength := partitioned.rearranged.length
  have divided := invariant.divide lo hi split rest _ _ start partitioned
  have before : (addresses array.siz (lo, hi)).1 < (addresses array.siz (lo, hi)).2 := by
    rw [addresses, address_lt positive]
    omega
  have isPartition : partition array compare (bound + 1) m (addresses array.siz (lo, hi)).1
      (addresses array.siz (lo, hi)).2 s = some (m₁, (split : Int) * array.siz, s₁) := by
    rw [addresses, isLast]
    exact equal
  have leftInArray : lo ≤ split ∧ split ≤ (array.elements m₁).length := by
    dsimp only at hiBound
    omega
  have rightInArray : split + 1 ≤ hi ∧ hi ≤ (array.elements m₁).length := by
    dsimp only at hiBound
    omega
  rw [← sameLength] at restInArray boundEnough
  simp only [remaining] at enough
  have leftPair := @left_addresses array.siz lo hi split
  have rightPair := @right_addresses array.siz lo hi split
  unfold qsortLoop
  rw [if_pos before, isPartition, Option.bind_eq_bind, Option.bind_some]
  dsimp only
  by_cases leftSmaller : 2 * split + 1 ≤ lo + hi
  · rw [if_pos ((parts_le positive lo hi split).mpr leftSmaller)]
    by_cases rightLarge : split + 2 < hi
    · rw [if_pos ((right_open positive lo hi split).mpr rightLarge),
        shallow.push_eq (by omega), Option.bind_eq_bind, Option.bind_some, rightPair]
      have result := @later lo split ((split + 1, hi) :: rest) m₁ divided
        (inArray_cons.mpr ⟨leftInArray, inArray_cons.mpr ⟨rightInArray, restInArray⟩⟩)
        (shallow.divide (by omega) (by omega)) (by simp only [remaining]; omega) boundEnough s₁
      rw [← leftPair] at result
      exact result
    · rw [if_neg (by rw [right_open positive]; exact rightLarge), Option.bind_eq_bind,
        Option.bind_some]
      have closed := invariant.close _ _ _ _ (by omega)
        (invariant.reorder _ _ _ _ divided)
      have result := @later lo split rest m₁ closed
        (inArray_cons.mpr ⟨leftInArray, restInArray⟩) (shallow.shrink (by omega))
        (by simp only [remaining]; omega) boundEnough s₁
      rw [← leftPair] at result
      exact result
  · rw [if_neg (by rw [parts_le positive]; exact leftSmaller)]
    by_cases leftLarge : lo + 1 < split
    · rw [if_pos ((left_open positive lo hi split).mpr leftLarge),
        shallow.push_eq (by omega), Option.bind_eq_bind, Option.bind_some, leftPair]
      have result := @later (split + 1) hi ((lo, split) :: rest) m₁
        (invariant.reorder _ _ _ _ divided)
        (inArray_cons.mpr ⟨rightInArray, inArray_cons.mpr ⟨leftInArray, restInArray⟩⟩)
        (shallow.divide (by omega) (by omega)) (by simp only [remaining]; omega) boundEnough s₁
      rw [← rightPair] at result
      exact result
    · rw [if_neg (by rw [left_open positive]; exact leftLarge), Option.bind_eq_bind,
        Option.bind_some]
      have result := @later (split + 1) hi rest m₁
        (invariant.close _ _ _ _ (by omega) divided)
        (inArray_cons.mpr ⟨rightInArray, restInArray⟩) (shallow.shrink (by omega))
        (by simp only [remaining]; omega) boundEnough s₁
      rw [← rightPair] at result
      exact result

include invariant positive in
theorem qsortLoop_finishes (bound fuel : Nat) : Finishes array compare holds bound fuel := by
  induction fuel with
  | zero =>
      intro lo hi rest m _ _ _ enough
      simp only [remaining] at enough
      omega
  | succ fuel induction =>
      intro lo hi rest m start inArray shallow enough boundEnough s
      rcases inArray_cons.mp inArray with ⟨⟨loHi, hiBound⟩, restInArray⟩
      by_cases isOpen : lo + 1 < hi
      · exact openSegment invariant positive induction start inArray shallow enough boundEnough
          isOpen s
      · have notBefore : ¬ (addresses array.siz (lo, hi)).1 < (addresses array.siz (lo, hi)).2 := by
          rw [addresses, address_lt positive]
          omega
        have closed := invariant.close lo hi rest _ (by omega) start
        unfold qsortLoop
        rw [if_neg notBefore]
        cases rest with
        | nil => exact ⟨m, s, rfl, closed⟩
        | cons segment rest =>
            have fewer : remaining (segment :: rest) ≤ fuel := by
              simp only [remaining] at enough ⊢
              omega
            exact induction closed restInArray shallow.2 fewer boundEnough s

include invariant positive in
/-- The whole sort, for a number of elements that is a `size_t`. -/
theorem zendQsortR_spec {m : M} (isSize : (array.elements m).length < 2 ^ 64)
    (start : holds [(0, (array.elements m).length)] (array.elements m)) (s : σ) :
    ∃ m' s', zendQsortR array compare m (array.elements m).length s = some (m', s') ∧
      holds [] (array.elements m') := by
  have shallow : Shallow [(0, (array.elements m).length)] := ⟨isSize, trivial⟩
  have result := @qsortLoop_finishes M α σ array compare holds invariant positive _
    (2 * (array.elements m).length + 1) 0 _ [] m start (by simp [InArray]) shallow
    (by simp [remaining]) (Nat.le_refl _) s
  simpa [zendQsortR, addresses] using result

end Loop

/-- Elements without bytes are not touched: `begin < end` is never true. -/
theorem zendQsortR_empty (array : ElementArray M α) (compare : σ → α → α → Int × σ)
    (empty : array.siz = 0) (m : M) (nmemb : Nat) (s : σ) :
    zendQsortR array compare m nmemb s = some (m, s) := by
  rw [zendQsortR, empty]
  unfold qsortLoop
  simp

/-- Whatever the comparison answers, the array holds the elements it held before. -/
theorem permInvariant (compare : σ → α → α → Int × σ) (original : List α) :
    LoopInvariant compare fun _ list => list.Perm original where
  divide _ _ _ _ _ _ before partitioned := partitioned.rearranged.perm.trans before
  close _ _ _ _ _ before := before
  reorder _ _ _ _ before := before

theorem zendQsort_perm (compare : α → α → Int) {siz : Nat} (positive : 0 < siz) {list : List α}
    (isSize : list.length < 2 ^ 64) :
    ∃ list', zendQsort (listArray α siz) compare list list.length = some list' ∧
      list'.Perm list := by
  rcases @zendQsortR_spec _ _ _ (listArray α siz) (fun s x y => (compare x y, s)) _
    (permInvariant _ list) positive list isSize (.refl _) () with ⟨list', s', equal, perm⟩
  refine ⟨list', ?_, perm⟩
  change (zendQsortR (listArray α siz) _ list list.length ()).bind
    (fun result => some result.1) = _
  rw [show zendQsortR (listArray α siz) _ list list.length () = some (list', s') from equal]
  rfl

/-- For every comparison, which may answer differently each time, the sort returns. So it
passed addresses of elements only to the comparison and to the exchanges, did not use more
slots of the stacks than there are, and its loops ended. The array is a permutation of the
one before. -/
theorem zendQsortR_robust (nmemb siz : Nat) (isSize : nmemb < 2 ^ 64)
    (compare : σ → List UInt8 → List UInt8 → Int × σ) (memory : Memory nmemb siz) (s : σ) :
    ∃ memory' s', zendQsortR (byteArray nmemb siz) compare memory nmemb s = some (memory', s') ∧
      memory'.elements.Perm memory.elements := by
  rcases Nat.eq_zero_or_pos siz with empty | positive
  · exact ⟨memory, s, zendQsortR_empty _ compare empty memory nmemb s, .refl _⟩
  · have length : ((byteArray nmemb siz).elements memory).length = nmemb :=
      memory.length_elements
    have result := @zendQsortR_spec _ _ _ (byteArray nmemb siz) compare _
      (permInvariant compare memory.elements) positive memory (by rwa [length]) (.refl _) s
    rw [length] at result
    exact result

/-- A comparison that calls every element greater than every other one. -/
theorem zendQsortR_robust_contradictory :
    (3 < 2 ^ 64) ∧ ∃ memory' s', zendQsortR (byteArray 3 2) (fun s _ _ => (1, s))
        ⟨[1, 2, 3, 4, 5, 6], rfl⟩ 3 () = some (memory', s') ∧
      memory'.elements.Perm [[1, 2], [3, 4], [5, 6]] :=
  ⟨by decide, zendQsortR_robust 3 2 (by decide) _ ⟨[1, 2, 3, 4, 5, 6], rfl⟩ ()⟩

end PhpRuntime.Sort
