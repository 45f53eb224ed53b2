import Mathlib.Data.List.Range

/-! # Binary heaps in an array

The parent of place `k` is place `(k - 1) / 2`. An element that is on its way through the heap
has a place of its own, and moving it is an exchange with a neighbour.
-/

namespace PhpRuntime.BinaryHeap

variable {α : Type*} {f : Nat → α} {n i j : Nat}

/-- The first `n` elements of an array. -/
def contents (f : Nat → α) (n : Nat) : List α := (List.range n).map f

/-- The array with two places exchanged. -/
def exchanged (f : Nat → α) (i j : Nat) : Nat → α :=
  Function.update (Function.update f i (f j)) j (f i)

theorem exchanged_apply (k : Nat) :
    exchanged f i j k = if k = j then f i else if k = i then f j else f k := by
  simp only [exchanged, Function.update_apply]

theorem contents_succ (f : Nat → α) (n : Nat) : contents f (n + 1) = contents f n ++ [f n] := by
  simp [contents, List.range_succ]

theorem contents_congr {g : Nat → α} (same : ∀ k < n, f k = g k) : contents f n = contents g n :=
  List.map_congr_left fun k member => same k (List.mem_range.mp member)

theorem mem_contents {x : α} : x ∈ contents f n ↔ ∃ k < n, f k = x := by
  simp [contents]

theorem length_contents : (contents f n).length = n := by simp [contents]

/-- Writing a place takes one element out and puts another in. -/
theorem update_perm (inside : i < n) (x : α) :
    (f i :: contents (Function.update f i x) n).Perm (x :: contents f n) := by
  induction n with
  | zero => omega
  | succ n induction =>
      rw [contents_succ, contents_succ]
      by_cases last : i = n
      · subst last
        have same : contents (Function.update f i x) i = contents f i :=
          contents_congr fun k less => Function.update_of_ne (by omega) _ _
        rw [same, Function.update_self, ← List.cons_append, ← List.cons_append]
        exact (List.perm_append_singleton _ _).trans
          (List.Perm.trans (.swap ..) (List.perm_append_singleton _ _).symm)
      · rw [Function.update_of_ne (Ne.symm last), ← List.cons_append, ← List.cons_append]
        exact (induction (by omega)).append_right _

theorem exchanged_perm (iInside : i < n) (jInside : j < n) :
    (contents (exchanged f i j) n).Perm (contents f n) := by
  have first := @update_perm _ f n i iInside (f j)
  have second := @update_perm _ (Function.update f i (f j)) n j jInside (f i)
  have value : Function.update f i (f j) j = f j := by
    by_cases same : j = i
    · rw [same, Function.update_self]
    · rw [Function.update_of_ne same]
  rw [value] at second
  exact (second.trans first).cons_inv

/-! ## The order -/

section Order

variable {le : α → α → Prop}

/-- No element exceeds its parent. -/
def Ordered (le : α → α → Prop) (n : Nat) (f : Nat → α) : Prop :=
  ∀ k, 0 < k → k < n → le (f k) (f ((k - 1) / 2))

/-- No element exceeds the one at the top. -/
theorem Ordered.le_top (ordered : Ordered le n f) (refl : ∀ x, le x x)
    (trans : ∀ x y z, le x y → le y z → le x z) {k : Nat} (inside : k < n) : le (f k) (f 0) := by
  induction k using Nat.strong_induction_on with
  | _ k induction =>
      by_cases root : k = 0
      · rw [root]
        exact refl _
      · exact trans _ _ _ (ordered k (by omega) inside)
          (induction ((k - 1) / 2) (by omega) (by omega))

/-- An element that has come up to place `i` may exceed its parent, and nothing else does. -/
structure Rising (le : α → α → Prop) (n i : Nat) (f : Nat → α) : Prop where
  others : ∀ k, 0 < k → k < n → k ≠ i → le (f k) (f ((k - 1) / 2))
  children : ∀ k, 0 < i → k < n → 0 < k → (k - 1) / 2 = i → le (f k) (f ((i - 1) / 2))

theorem Ordered.rising (ordered : Ordered le n f) (x : α) :
    Rising le (n + 1) n (Function.update f n x) where
  others k positive less other := by
    rw [Function.update_of_ne other, Function.update_of_ne (by omega)]
    exact ordered k positive (by omega)
  children k _ less positive isChild := by omega

theorem Rising.exchange (rising : Rising le n i f) (trans : ∀ x y z, le x y → le y z → le x z)
    (positive : 0 < i) (inside : i < n) (exceeds : le (f ((i - 1) / 2)) (f i)) :
    Rising le n ((i - 1) / 2) (exchanged f i ((i - 1) / 2)) where
  others k kPositive less other := by
    rw [exchanged_apply, exchanged_apply, if_neg other]
    by_cases moved : k = i
    · rw [if_pos moved, moved, if_pos rfl]
      exact exceeds
    · rw [if_neg moved]
      by_cases sibling : (k - 1) / 2 = (i - 1) / 2
      · rw [if_pos sibling]
        exact trans _ _ _ (sibling ▸ rising.others k kPositive less moved) exceeds
      · rw [if_neg sibling]
        by_cases below : (k - 1) / 2 = i
        · rw [if_pos below]
          exact rising.children k positive less kPositive below
        · rw [if_neg below]
          exact rising.others k kPositive less moved
  children k parentPositive less kPositive isChild := by
    have above : (i - 1) / 2 ≠ i := by omega
    have up := rising.others _ parentPositive (by omega) above
    have parent : exchanged f i ((i - 1) / 2) (((i - 1) / 2 - 1) / 2)
        = f (((i - 1) / 2 - 1) / 2) := by
      rw [exchanged_apply, if_neg (by omega), if_neg (by omega)]
    rw [parent, exchanged_apply, if_neg (by omega)]
    by_cases moved : k = i
    · rw [if_pos moved]
      exact up
    · rw [if_neg moved]
      exact trans _ _ _ (isChild ▸ rising.others k kPositive less moved) up

theorem Rising.ordered (rising : Rising le n i f) (stays : 0 < i → le (f i) (f ((i - 1) / 2))) :
    Ordered le n f := by
  intro k positive less
  by_cases here : k = i
  · rw [here] at positive ⊢
    exact stays positive
  · exact rising.others k positive less here

/-- An element that has gone down to place `i` may be exceeded by its children, and nothing
else is. -/
structure Sinking (le : α → α → Prop) (n i : Nat) (f : Nat → α) : Prop where
  others : ∀ k, 0 < k → k < n → (k - 1) / 2 ≠ i → le (f k) (f ((k - 1) / 2))
  children : ∀ k, 0 < i → k < n → 0 < k → (k - 1) / 2 = i → le (f k) (f ((i - 1) / 2))

theorem Ordered.sinking {m : Nat} (ordered : Ordered le n f) (fewer : m ≤ n) (x : α) :
    Sinking le m 0 (Function.update f 0 x) where
  others k positive less other := by
    rw [Function.update_of_ne (by omega), Function.update_of_ne other]
    exact ordered k positive (by omega)
  children k impossible := by omega

/-- The larger child goes up. -/
theorem Sinking.exchange (sinking : Sinking le n i f) (inside : j < n) (positive : 0 < j)
    (isChild : (j - 1) / 2 = i) (exceeds : le (f i) (f j))
    (largest : ∀ k, k < n → 0 < k → (k - 1) / 2 = i → le (f k) (f j)) :
    Sinking le n j (exchanged f i j) where
  others k kPositive less other := by
    rw [exchanged_apply, exchanged_apply, if_neg other]
    by_cases moved : k = j
    · rw [if_pos moved, moved, if_pos isChild]
      exact exceeds
    · rw [if_neg moved]
      by_cases sibling : (k - 1) / 2 = i
      · rw [if_pos sibling, if_neg (by omega)]
        exact largest k less kPositive sibling
      · rw [if_neg sibling]
        by_cases above : k = i
        · rw [if_pos above, above]
          exact sinking.children j (by omega) inside positive isChild
        · rw [if_neg above]
          exact sinking.others k kPositive less sibling
  children k _ less kPositive below := by
    rw [exchanged_apply, exchanged_apply, if_neg (by omega), if_neg (by omega), if_neg (by omega),
      if_pos isChild]
    exact below ▸ sinking.others k kPositive less (by omega)

theorem Sinking.ordered (sinking : Sinking le n i f)
    (stays : ∀ k, k < n → 0 < k → (k - 1) / 2 = i → le (f k) (f i)) : Ordered le n f := by
  intro k positive less
  by_cases child : (k - 1) / 2 = i
  · rw [child]
    exact stays k less positive child
  · exact sinking.others k positive less child

end Order

end PhpRuntime.BinaryHeap
