import PhpRuntime.Sort.Qsort
import Mathlib.Tactic.Ring
import Mathlib.Algebra.Order.Ring.Int

/-! What one partition of `zend_qsort_r` does, for any comparison: it uses addresses of
elements only, it ends, and it leaves the pivot at a place such that the comparison never
contradicted the order of the others to it. -/

namespace PhpRuntime.Sort

open PhpRuntime.Exchange

/-- At some moment the comparison put `x` behind `y`. -/
def Greater (compare : σ → α → α → Int × σ) (x y : α) : Prop := ∃ s, 0 < (compare s x y).1

def NotGreater (compare : σ → α → α → Int × σ) (x y : α) : Prop := ∃ s, (compare s x y).1 ≤ 0

/-- An answer of the comparison lets `x` stand before `y`. -/
def MayPrecede (compare : σ → α → α → Int × σ) (x y : α) : Prop :=
  Greater compare y x ∨ NotGreater compare x y

section Addresses

variable {siz : Nat}

theorem address_lt (positive : 0 < siz) (i j : Int) : i * siz < j * siz ↔ i < j :=
  Int.mul_lt_mul_right (by omega)

theorem address_le (positive : 0 < siz) (i j : Int) : i * siz ≤ j * siz ↔ i ≤ j :=
  Int.mul_le_mul_right (by omega)

theorem address_succ (i : Nat) : (i : Int) * siz + siz = (i + 1 : Nat) * siz := by
  push_cast
  ring

theorem address_pred {i : Nat} (nonzero : 0 < i) :
    (i : Int) * siz - siz = (i - 1 : Nat) * siz := by
  rw [Int.sub_eq_iff_eq_add, address_succ, Nat.sub_add_cancel nonzero]

end Addresses

section Partition

variable {array : ElementArray M α} {compare : σ → α → α → Int × σ} {m : M} {pivot : α}
  {begin : Nat} (positive : 0 < array.siz)
  (isPivot : (array.elements m)[begin]? = some pivot)

include positive in
theorem compareAt_eq {i j : Nat} {x y : α} (atI : (array.elements m)[i]? = some x)
    (atJ : (array.elements m)[j]? = some y) (s : σ) :
    compareAt array compare m s (i * array.siz) (j * array.siz) = some (compare s x y) := by
  rw [compareAt, (array.load_iff positive m _ x).mpr ⟨i, rfl, atI⟩,
    (array.load_iff positive m _ y).mpr ⟨j, rfl, atJ⟩]
  rfl

include positive isPivot in
/-- The first scan stops at `stop`: it left behind what the pivot was greater than. -/
theorem scanUp_spec {fuel i j : Nat} (enough : j ≤ fuel + i)
    (jBound : j < (array.elements m).length) (s : σ) :
    ∃ (stop : Nat) (s' : σ),
      scanUp array compare m (begin * array.siz) (j * array.siz) (fuel + 1) (i * array.siz) s =
        some ((stop : Int) * array.siz, s') ∧
      i ≤ stop ∧ (stop ≤ j ∨ stop = i) ∧
      (∀ k x, i ≤ k → k < stop → (array.elements m)[k]? = some x → Greater compare pivot x) ∧
      (stop < j → ∀ x, (array.elements m)[stop]? = some x → NotGreater compare pivot x) := by
  induction fuel generalizing i s with
  | zero =>
      have notBefore : ¬ (i : Int) * array.siz < j * array.siz := by
        rw [address_lt positive]
        omega
      rw [scanUp, if_neg notBefore]
      exact ⟨i, s, rfl, by omega, by omega, fun k x lower upper => by omega, by omega⟩
  | succ fuel induction =>
      rw [scanUp]
      by_cases before : i < j
      · have atI := List.getElem?_eq_getElem (Nat.lt_trans before jBound)
        rw [if_pos ((address_lt positive _ _).mpr (by omega)),
          compareAt_eq positive isPivot atI s, Option.bind_eq_bind, Option.bind_some]
        dsimp only
        split
        · rename_i greater
          rw [address_succ]
          rcases induction (by omega : j ≤ fuel + (i + 1)) _ with
            ⟨stop, s', equal, later, upper, passed, stopped⟩
          refine ⟨stop, s', equal, by omega, by omega, ?_, stopped⟩
          intro k x lower upper isX
          by_cases isFirst : k = i
          · subst isFirst
            cases atI.symm.trans isX
            exact ⟨s, greater⟩
          · exact passed k x (by omega) upper isX
        · rename_i notGreater
          refine ⟨i, _, rfl, by omega, by omega, fun k x lower upper => by omega, ?_⟩
          intro _ x isX
          cases atI.symm.trans isX
          exact ⟨s, by omega⟩
      · rw [if_neg (by rw [address_lt positive]; omega)]
        exact ⟨i, s, rfl, by omega, by omega, fun k x lower upper => by omega,
          fun below => absurd below before⟩

include positive isPivot in
/-- The second scan stops at `stop`, one place below `i` at the lowest. -/
theorem scanDown_spec {fuel i j : Nat} (enough : j + 1 ≤ fuel + i) (nonzero : 0 < i)
    (crossed : i ≤ j + 1) (jBound : j < (array.elements m).length) (s : σ) :
    ∃ (stop : Nat) (s' : σ),
      scanDown array compare m (begin * array.siz) (i * array.siz) (fuel + 1) (j * array.siz) s =
        some ((stop : Int) * array.siz, s') ∧
      stop ≤ j ∧ i ≤ stop + 1 ∧
      (∀ k x, stop < k → k ≤ j → (array.elements m)[k]? = some x → Greater compare x pivot) ∧
      (i ≤ stop → ∀ x, (array.elements m)[stop]? = some x → NotGreater compare x pivot) := by
  induction fuel generalizing j s with
  | zero =>
      have below : ¬ (i : Int) * array.siz ≤ j * array.siz := by
        rw [address_le positive]
        omega
      rw [scanDown, if_neg below]
      exact ⟨j, s, rfl, by omega, by omega, fun k x lower upper => by omega, by omega⟩
  | succ fuel induction =>
      rw [scanDown]
      by_cases above : i ≤ j
      · have atJ := List.getElem?_eq_getElem jBound
        rw [if_pos ((address_le positive _ _).mpr (by omega)),
          compareAt_eq positive atJ isPivot s, Option.bind_eq_bind, Option.bind_some]
        dsimp only
        split
        · rename_i greater
          rw [address_pred (by omega)]
          rcases @induction (j - 1) (by omega) (by omega) (by omega) (compare s _ pivot).2 with
            ⟨stop, s', equal, earlier, lower, passed, stopped⟩
          refine ⟨stop, s', equal, by omega, by omega, ?_, stopped⟩
          intro k x lower upper isX
          by_cases isLast : k = j
          · subst isLast
            cases atJ.symm.trans isX
            exact ⟨s, greater⟩
          · exact passed k x lower (by omega) isX
        · rename_i notGreater
          refine ⟨j, _, rfl, by omega, by omega, fun k x lower upper => by omega, ?_⟩
          intro _ x isX
          cases atJ.symm.trans isX
          exact ⟨s, by omega⟩
      · rw [if_neg (by rw [address_le positive]; omega)]
        exact ⟨j, s, rfl, by omega, by omega, fun k x lower upper => by omega,
          fun here => absurd here above⟩

/-- Where the two scans stop, and what they learnt on their way. -/
structure Scanned (compare : σ → α → α → Int × σ) (list : List α) (pivot : α)
    (i j up down : Nat) : Prop where
  up_le : i ≤ up
  le_down : up ≤ down + 1
  down_le : down ≤ j
  below : ∀ k x, i ≤ k → k < up → list[k]? = some x → MayPrecede compare x pivot
  above : ∀ k x, down < k → k ≤ j → list[k]? = some x → MayPrecede compare pivot x
  atUp : up < down → ∀ x, list[up]? = some x → MayPrecede compare pivot x
  atDown : up ≤ down → ∀ x, list[down]? = some x → MayPrecede compare x pivot

include positive isPivot in
theorem scanBoth_spec {bound i j : Nat} (enough : j + 1 ≤ bound) (nonzero : 0 < i)
    (crossed : i ≤ j + 1) (jBound : j < (array.elements m).length) (s : σ) :
    ∃ (up down : Nat) (s' : σ),
      scanBoth array compare (bound + 1) m (begin * array.siz) (i * array.siz) (j * array.siz) s =
        some ((up : Int) * array.siz, (down : Int) * array.siz, s') ∧
      Scanned compare (array.elements m) pivot i j up down := by
  rcases @scanUp_spec M α σ array compare m pivot begin positive isPivot bound i j (by omega)
    jBound s with ⟨up, s₁, upEqual, upFrom, upTo, passedUp, stoppedUp⟩
  rcases @scanDown_spec M α σ array compare m pivot begin positive isPivot bound up j (by omega)
    (by omega) (by omega) jBound s₁ with ⟨down, s₂, downEqual, downTo, downFrom, passedDown, stoppedDown⟩
  refine ⟨up, down, s₂, ?_, upFrom, downFrom, downTo, ?_, ?_, ?_, ?_⟩
  · rw [scanBoth, upEqual, Option.bind_eq_bind, Option.bind_some]
    dsimp only
    rw [downEqual]
    rfl
  · exact fun k x lower upper isX => Or.inl (passedUp k x lower upper isX)
  · exact fun k x lower upper isX => Or.inl (passedDown k x lower upper isX)
  · exact fun before x isX => Or.inr (stoppedUp (by omega) x isX)
  · exact fun here x isX => Or.inr (stoppedDown here x isX)

end Partition

/-- The elements between `i` and `j` after the loop that started there: up to `split` they
may precede the pivot, and behind it they may follow. -/
structure Divided (compare : σ → α → α → Int × σ) (list list' : List α) (pivot : α)
    (i j split : Nat) : Prop where
  le_split : i ≤ split + 1
  split_le : split ≤ j
  rearranged : Rearranged i (j + 1) list list'
  low : ∀ k x, i ≤ k → k ≤ split → list'[k]? = some x → MayPrecede compare x pivot
  high : ∀ k x, split < k → k ≤ j → list'[k]? = some x → MayPrecede compare pivot x

theorem Scanned.divided {compare : σ → α → α → Int × σ} {list : List α} {pivot : α}
    {i j up down : Nat} (scanned : Scanned compare list pivot i j up down) (met : down ≤ up) :
    Divided compare list list pivot i j down := by
  have upFrom := scanned.up_le
  have close := scanned.le_down
  refine ⟨by omega, scanned.down_le, .refl list, ?_, scanned.above⟩
  intro k x lower upper isX
  by_cases isMeeting : k = up
  · have same : up = down := by omega
    subst isMeeting
    exact scanned.atDown (by omega) x (same ▸ isX)
  · exact scanned.below k x lower (by omega) isX

/-- The elements at the two stops are exchanged, and the loop goes on between them. -/
theorem Scanned.divided_exchange {compare : σ → α → α → Int × σ} {list list' : List α}
    {pivot : α} {i j up down split : Nat} (scanned : Scanned compare list pivot i j up down)
    (apart : up < down) (jBound : j < list.length)
    (divided : Divided compare (exchange list up down) list' pivot (up + 1) (down - 1) split) :
    Divided compare list list' pivot i j split := by
  have upFrom := scanned.up_le
  have downTo := scanned.down_le
  have upBound : up < list.length := by omega
  have downBound : down < list.length := by omega
  have splitFrom := divided.le_split
  have splitTo := divided.split_le
  have atUp : list'[up]? = list[down]? := by
    rw [divided.rearranged.outside (by omega), getElem?_exchange_left upBound downBound]
  have atDown : list'[down]? = list[up]? := by
    rw [divided.rearranged.outside (by omega), getElem?_exchange_right upBound downBound]
  have elsewhere : ∀ k, k < up ∨ down < k → list'[k]? = list[k]? := by
    intro k out
    rw [divided.rearranged.outside (by omega),
      getElem?_exchange_other upBound downBound (by omega) (by omega)]
  refine ⟨by omega, by omega, ?_, ?_, ?_⟩
  · have once : Rearranged i (j + 1) list (exchange list up down) :=
      .single (by omega) (by omega) (by omega) (by omega) (by omega)
    exact once.trans (divided.rearranged.widen (by omega) (by omega))
  · intro k x lower upper isX
    rcases Nat.lt_trichotomy k up with before | isUp | behind
    · rw [elsewhere k (Or.inl before)] at isX
      exact scanned.below k x lower before isX
    · rw [isUp, atUp] at isX
      exact scanned.atDown (by omega) x isX
    · exact divided.low k x behind upper isX
  · intro k x lower upper isX
    rcases Nat.lt_trichotomy k down with before | isDown | behind
    · exact divided.high k x lower (by omega) isX
    · rw [isDown, atDown] at isX
      exact scanned.atUp apart x isX
    · rw [elsewhere k (Or.inr behind)] at isX
      exact scanned.above k x behind upper isX

section Loop

variable {array : ElementArray M α} {compare : σ → α → α → Int × σ} {pivot : α} {begin : Nat}
  (positive : 0 < array.siz)

include positive in
theorem partitionLoop_spec {bound fuel i j : Nat} {m : M}
    (isPivot : (array.elements m)[begin]? = some pivot) (enough : j ≤ fuel + i)
    (boundEnough : j + 1 ≤ bound) (behind : begin < i) (crossed : i ≤ j + 1)
    (jBound : j < (array.elements m).length) (s : σ) :
    ∃ (m' : M) (split : Nat) (s' : σ),
      partitionLoop array compare (bound + 1) (begin * array.siz) (fuel + 1) m (i * array.siz)
        (j * array.siz) s = some (m', (split : Int) * array.siz, s') ∧
      Divided compare (array.elements m) (array.elements m') pivot i j split := by
  induction fuel generalizing i j m s with
  | zero =>
      rcases @scanBoth_spec M α σ array compare m pivot begin positive isPivot bound i j
        boundEnough (by omega) crossed jBound s with ⟨up, down, s₁, equal, scanned⟩
      have upFrom := scanned.up_le
      have downTo := scanned.down_le
      refine ⟨m, down, s₁, ?_, scanned.divided (by omega)⟩
      rw [partitionLoop, equal, Option.bind_eq_bind, Option.bind_some]
      exact if_pos ((address_le positive _ _).mpr (by omega))
  | succ fuel induction =>
      rcases @scanBoth_spec M α σ array compare m pivot begin positive isPivot bound i j
        boundEnough (by omega) crossed jBound s with ⟨up, down, s₁, equal, scanned⟩
      have upFrom := scanned.up_le
      have downTo := scanned.down_le
      rw [partitionLoop, equal, Option.bind_eq_bind, Option.bind_some]
      dsimp only
      by_cases met : down ≤ up
      · rw [if_pos ((address_le positive _ _).mpr (by omega))]
        exact ⟨m, down, s₁, rfl, scanned.divided met⟩
      · rw [if_neg (by rw [address_le positive]; omega)]
        rcases array.swap_eq positive m up down (by omega) (by omega) with
          ⟨m₁, swapped, exchanged⟩
        have samePivot : (array.elements m₁)[begin]? = some pivot := by
          rw [exchanged, getElem?_exchange_other (by omega) (by omega) (by omega) (by omega),
            isPivot]
        have sameLength : (array.elements m₁).length = (array.elements m).length := by
          rw [exchanged]
          exact (exchange_perm (by omega) (by omega)).length_eq
        rcases @induction (up + 1) (down - 1) m₁ samePivot (by omega) (by omega) (by omega)
          (by omega) (by omega) s₁ with ⟨m', split, s', rest, divided⟩
        refine ⟨m', split, s', ?_, scanned.divided_exchange (by omega) jBound ?_⟩
        · rw [swapped, Option.bind_eq_bind, Option.bind_some, address_succ, address_pred (by omega)]
          exact rest
        · rw [← exchanged]
          exact divided

end Loop

/-! ### The pivot at its place -/

/-- The middle is rounded down to an element of the segment, also if `offset` is cut to 32
bits. -/
theorem pivotOffset_eq {siz : Nat} (positive : 0 < siz) {lo last : Nat} (ordered : lo ≤ last) :
    ∃ c : Nat, (pivotOffset siz (lo * siz) (last * siz) : Int) = c * siz ∧ lo + c ≤ last := by
  have width : ((last : Int) * siz - lo * siz) = ((last - lo) * siz : Nat) := by
    rw [← Int.sub_mul, Nat.cast_mul, Nat.cast_sub ordered]
  have half : (((last : Int) * siz - lo * siz) / 2).toNat ≤ (last - lo) * siz := by
    rw [width]
    omega
  have cut := Nat.le_trans (Nat.mod_le _ (2 ^ 32)) half
  refine ⟨(((last : Int) * siz - lo * siz) / 2).toNat % 2 ^ 32 / siz, ?_, ?_⟩
  · rw [pivotOffset, ← Nat.div_mul_self_eq_mod_sub_self, Nat.cast_mul]
  · have places := Nat.div_le_div_right (c := siz) cut
    rw [Nat.mul_div_cancel _ positive] at places
    omega

/-- The segment from `lo` to below `hi` after a partition that put the pivot at `split`. -/
structure Partitioned (compare : σ → α → α → Int × σ) (list list' : List α)
    (lo hi split : Nat) : Prop where
  le_split : lo ≤ split
  split_lt : split < hi
  rearranged : Rearranged lo hi list list'
  low : ∀ k x pivot, lo ≤ k → k < split → list'[k]? = some x → list'[split]? = some pivot →
    MayPrecede compare x pivot
  high : ∀ k x pivot, split < k → k < hi → list'[k]? = some x → list'[split]? = some pivot →
    MayPrecede compare pivot x

/-- The pivot in front of a divided segment is exchanged with the last of the low ones. -/
theorem Divided.partitioned {compare : σ → α → α → Int × σ} {list list' : List α} {pivot : α}
    {lo last split : Nat} (divided : Divided compare list list' pivot (lo + 1) last split)
    (isPivot : list[lo]? = some pivot) (lastBound : last < list.length) :
    Partitioned compare list (exchange list' lo split) lo (last + 1) split := by
  have splitFrom := divided.le_split
  have splitTo := divided.split_le
  have sameLength := divided.rearranged.length
  have stillPivot : list'[lo]? = some pivot := by
    rw [divided.rearranged.outside (by omega), isPivot]
  have loBound : lo < list'.length := by omega
  have splitBound : split < list'.length := by omega
  have atSplit : (exchange list' lo split)[split]? = some pivot := by
    rw [getElem?_exchange_right loBound splitBound, stillPivot]
  refine ⟨by omega, by omega, ?_, ?_, ?_⟩
  · have around := divided.rearranged.widen (Nat.le_succ lo) (Nat.le_refl (last + 1))
    exact around.step (by omega) (by omega) (by omega) (by omega) loBound splitBound
  · intro k x pivot' lower upper isX isPivot'
    cases atSplit.symm.trans isPivot'
    by_cases isFirst : k = lo
    · rw [isFirst, getElem?_exchange_left loBound splitBound] at isX
      exact divided.low split x (by omega) (by omega) isX
    · rw [getElem?_exchange_other loBound splitBound isFirst (by omega)] at isX
      exact divided.low k x (by omega) (by omega) isX
  · intro k x pivot' lower upper isX isPivot'
    cases atSplit.symm.trans isPivot'
    rw [getElem?_exchange_other loBound splitBound (by omega) (by omega)] at isX
    exact divided.high k x lower (by omega) isX

theorem Partitioned.after {compare : σ → α → α → Int × σ} {list list' list'' : List α}
    {lo hi split : Nat} (partitioned : Partitioned compare list' list'' lo hi split)
    (earlier : Rearranged lo hi list list') : Partitioned compare list list'' lo hi split :=
  { partitioned with rearranged := earlier.trans partitioned.rearranged }

/-- Every address that the partition uses is the one of an element, and it ends. -/
theorem partition_spec {array : ElementArray M α} {compare : σ → α → α → Int × σ}
    (positive : 0 < array.siz) {bound lo last : Nat} {m : M} (ordered : lo < last)
    (lastBound : last < (array.elements m).length) (enough : last + 1 ≤ bound) (s : σ) :
    ∃ (m' : M) (split : Nat) (s' : σ),
      partition array compare (bound + 1) m (lo * array.siz) (last * array.siz) s =
        some (m', (split : Int) * array.siz, s') ∧
      Partitioned compare (array.elements m) (array.elements m') lo (last + 1) split := by
  rcases pivotOffset_eq positive (Nat.le_of_lt ordered) with ⟨c, isOffset, cBound⟩
  rcases array.swap_eq positive m lo (lo + c) (by omega) (by omega) with
    ⟨m₁, swapped, exchanged⟩
  have first : Rearranged lo (last + 1) (array.elements m) (array.elements m₁) := by
    rw [exchanged]
    exact .single (by omega) (by omega) (by omega) (by omega) (by omega)
  have sameLength := first.length
  have isPivot := List.getElem?_eq_getElem (l := array.elements m₁) (i := lo) (by omega)
  rcases @partitionLoop_spec M α σ array compare _ lo positive bound bound (lo + 1) last m₁
    isPivot (by omega) enough (by omega) (by omega) (by omega) s with
    ⟨m₂, split, s', looped, divided⟩
  have laterLength := divided.rearranged.length
  have splitTo := divided.split_le
  rcases array.swap_eq positive m₂ lo split (by omega) (by omega) with
    ⟨m₃, swappedBack, exchangedBack⟩
  refine ⟨m₃, split, s', ?_, ?_⟩
  · have middle : (lo : Int) * array.siz + c * array.siz = (lo + c : Nat) * array.siz := by
      push_cast
      ring
    rw [partition, isOffset, middle, swapped, Option.bind_eq_bind, Option.bind_some, address_succ,
      looped, Option.bind_eq_bind, Option.bind_some]
    dsimp only
    rw [swappedBack]
    rfl
  · rw [exchangedBack]
    exact (divided.partitioned isPivot (by omega)).after first

end PhpRuntime.Sort
