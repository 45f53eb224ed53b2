import Mathlib.Data.List.Basic

/-! # Buckets of a sorted list

The elements of a list that is sorted by a key stand in buckets, one for each key. A bucket starts
behind the elements with smaller keys.
-/

namespace PhpRuntime.Buckets

variable {α : Type} (key : α → Nat)

/-- The number of elements with a key below `h`. -/
def below (list : List α) (h : Nat) : Nat := list.countP fun x => decide (key x < h)

def SortedBy (list : List α) : Prop := list.Pairwise fun x y => key x ≤ key y

variable {key} {list : List α}

theorem below_cons (x : α) (list : List α) (h : Nat) :
    below key (x :: list) h = below key list h + if key x < h then 1 else 0 := by
  simp [below, List.countP_cons]

theorem below_succ {h : Nat} (missing : ∀ x ∈ list, key x ≠ h) :
    below key list (h + 1) = below key list h := by
  apply List.countP_congr
  intro x member
  have other := missing x member
  simp only [decide_eq_true_eq]
  omega

theorem below_eq_zero {h : Nat} (above : ∀ x ∈ list, h ≤ key x) : below key list h = 0 := by
  rw [below, List.countP_eq_zero]
  intro x member
  have bound := above x member
  simp only [decide_eq_true_eq]
  omega

theorem below_of_all {h : Nat} (all : ∀ x ∈ list, key x < h) :
    below key list h = list.length := by
  rw [below, List.countP_eq_length]
  intro x member
  exact decide_eq_true (all x member)

/-- An element stands in the bucket of its key. -/
theorem SortedBy.place {x : α} {i : Nat} (sorted : SortedBy key list)
    (here : list[i]? = some x) : below key list (key x) ≤ i ∧ i < below key list (key x + 1) := by
  induction list generalizing i with
  | nil => simp at here
  | cons first list induction =>
      obtain ⟨least, later⟩ := List.pairwise_cons.mp sorted
      rw [below_cons, below_cons]
      cases i with
      | zero =>
          obtain rfl : first = x := by simpa using here
          have none := below_eq_zero least
          rw [none, if_neg (Nat.lt_irrefl _), if_pos (Nat.lt_succ_self _)]
          omega
      | succ i =>
          rw [List.getElem?_cons_succ] at here
          have bound := least x (List.mem_of_getElem? here)
          have place := induction later here
          rw [if_pos (Nat.lt_succ_of_le bound)]
          split <;> omega

end PhpRuntime.Buckets
