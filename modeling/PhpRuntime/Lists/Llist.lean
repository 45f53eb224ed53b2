import PhpRuntime.Foundation.Linked
import PhpRuntime.Sort.Sorted

/-! The doubly linked lists of `Zend/zend_llist.c`.

An element is an address, and its fields are maps from addresses. Addresses below `brk`
have been handed out by `pemalloc`. -/

namespace PhpRuntime.Lists

open Function (update)
open PhpRuntime.Linked
open PhpRuntime.Exchange
open PhpRuntime.Sort

structure Llist (α : Type) where
  head : Option Nat
  tail : Option Nat
  count : Nat
  next : Nat → Option Nat
  prev : Nat → Option Nat
  data : Nat → α
  brk : Nat

namespace Llist

/-- `zend_llist_init`, on memory that holds anything. -/
def zendLlistInit (l : Llist α) : Llist α := { l with head := none, tail := none, count := 0 }

def zendLlistAddElement (l : Llist α) (element : α) : Llist α :=
  let tmp := l.brk
  { l with
    prev := update l.prev tmp l.tail
    next := assign (update l.next tmp none) l.tail (some tmp)
    head := if l.tail.isSome then l.head else some tmp
    tail := some tmp
    data := update l.data tmp element
    count := l.count + 1
    brk := l.brk + 1 }

def zendLlistPrependElement (l : Llist α) (element : α) : Llist α :=
  let tmp := l.brk
  { l with
    next := update l.next tmp l.head
    prev := assign (update l.prev tmp none) l.head (some tmp)
    tail := if l.head.isSome then l.tail else some tmp
    head := some tmp
    data := update l.data tmp element
    count := l.count + 1
    brk := l.brk + 1 }

/-- `DEL_LLIST_ELEMENT`. -/
def delLlistElement (l : Llist α) (current : Nat) : Llist α :=
  { l with
    next := assign l.next (l.prev current) (l.next current)
    head := if (l.prev current).isSome then l.head else l.next current
    prev := assign l.prev (l.next current) (l.prev current)
    tail := if (l.next current).isSome then l.tail else l.prev current
    count := l.count - 1 }

/-- The comparison is with the element to delete. -/
def zendLlistDelElement (l : Llist α) (compare : α → Bool) : Option (Llist α) := do
  match ← search l.next (fun current => compare (l.data current)) l.brk l.head with
  | some current => some (l.delLlistElement current)
  | none => some l

def zendLlistRemoveTail (l : Llist α) : Llist α :=
  match l.tail with
  | some oldTail =>
      { l with
        next := assign l.next (l.prev oldTail) none
        head := if (l.prev oldTail).isSome then l.head else none
        tail := l.prev oldTail
        count := l.count - 1 }
  | none => l

def zendLlistClean (l : Llist α) : Llist α := { l with head := none, tail := none, count := 0 }

/-- The loop from `i = 1` on that links each element to the one before, and what follows
it. -/
def relink (l : Llist α) (before : Nat) : List Nat → Llist α
  | [] => { l with next := update l.next before none, tail := some before }
  | element :: rest =>
      relink
        { l with
          prev := update l.prev element (some before)
          next := update l.next before (some element) }
        element rest

/-- `zend_llist_sort`; the array has `count` places, and it is filled from the list. -/
def zendLlistSort (l : Llist α) (compFunc : Nat → Nat → Int) : Option (Llist α) :=
  if l.count = 0 then
    some l
  else do
    let elements ← follow l.next l.brk l.head
    if elements.length ≠ l.count then
      none
    else
      match ← zendQsort (listArray Nat 8) compFunc elements l.count with
      | [] => none
      | first :: rest =>
          some ({ l with head := some first, prev := update l.prev first none }.relink first rest)

/-! ### Lists that hold together -/

/-- The elements from `head` to `tail`, linked in both directions, and their number. -/
structure Linear (l : Llist α) (order : List Nat) : Prop where
  nodup : order.Nodup
  allocated : ∀ p ∈ order, p < l.brk
  linked : Segment l.next l.prev none order none
  head : l.head = order.head?
  tail : l.tail = order.getLast?
  count : l.count = order.length

variable {l : Llist α} {order : List Nat}

theorem zendLlistInit_linear (l : Llist α) : Linear l.zendLlistInit [] where
  nodup := List.nodup_nil
  allocated := by simp
  linked := trivial
  head := rfl
  tail := rfl
  count := rfl

theorem Linear.brk_notMem (linear : Linear l order) : l.brk ∉ order :=
  fun member => Nat.lt_irrefl _ (linear.allocated _ member)

theorem Linear.nodup_append (linear : Linear l order) : (order ++ [l.brk]).Nodup := by
  apply List.nodup_append.mpr
  refine ⟨linear.nodup, List.nodup_singleton _, ?_⟩
  intro p member q isNew equal
  rw [List.mem_singleton.mp isNew] at equal
  exact linear.brk_notMem (equal ▸ member)

theorem zendLlistAddElement_linear (linear : Linear l order) (element : α) :
    Linear (l.zendLlistAddElement element) (order ++ [l.brk]) where
  nodup := linear.nodup_append
  allocated := by
    intro p member
    rcases List.mem_append.mp member with old | isNew
    · exact Nat.lt_succ_of_lt (linear.allocated p old)
    · rw [List.mem_singleton.mp isNew]
      exact Nat.lt_succ_self _
  linked := by
    have inserted := Segment.insert l.brk linear.linked (segment_nil l.next l.prev none none)
      linear.nodup_append
    simpa [zendLlistAddElement, linear.tail] using inserted
  head := by
    simp only [zendLlistAddElement, linear.tail, linear.head]
    cases order <;> simp
  tail := by simp [zendLlistAddElement]
  count := by simp [zendLlistAddElement, linear.count]

theorem zendLlistPrependElement_linear (linear : Linear l order) (element : α) :
    Linear (l.zendLlistPrependElement element) (l.brk :: order) where
  nodup := List.nodup_cons.mpr ⟨linear.brk_notMem, linear.nodup⟩
  allocated := by
    intro p member
    rcases List.mem_cons.mp member with isNew | old
    · rw [isNew]
      exact Nat.lt_succ_self _
    · exact Nat.lt_succ_of_lt (linear.allocated p old)
  linked := by
    have nodup : ([] ++ l.brk :: order).Nodup :=
      List.nodup_cons.mpr ⟨linear.brk_notMem, linear.nodup⟩
    have inserted := Segment.insert l.brk (segment_nil l.next l.prev none none) linear.linked nodup
    simpa [zendLlistPrependElement, linear.head] using inserted
  head := rfl
  tail := by
    simp only [zendLlistPrependElement, linear.tail, linear.head]
    cases order <;> simp [List.getLast?_cons]
  count := by simp [zendLlistPrependElement, linear.count]

theorem delLlistElement_linear {front back : List Nat} {current : Nat}
    (linear : Linear l (front ++ current :: back)) :
    Linear (l.delLlistElement current) (front ++ back) where
  nodup := linear.nodup.sublist (List.Sublist.append_left (List.sublist_cons_self _ _) _)
  allocated := by
    intro p member
    apply linear.allocated p
    simp only [List.mem_append, List.mem_cons] at member ⊢
    tauto
  linked := linear.linked.unlink linear.nodup
  head := by
    simp only [delLlistElement, linear.linked.prev_eq, linear.linked.next_eq, linear.head]
    cases front <;> simp [List.getLast?_cons]
  tail := by
    simp only [delLlistElement, linear.linked.prev_eq, linear.linked.next_eq, linear.tail]
    cases back <;> simp [List.getLast?_cons]
  count := by
    simp only [delLlistElement, linear.count, List.length_append, List.length_cons]
    omega

theorem Linear.length_le (linear : Linear l order) : order.length ≤ l.brk :=
  length_le_of_lt linear.nodup linear.allocated

theorem zendLlistDelElement_linear (linear : Linear l order) (compare : α → Bool) :
    ∃ l' order', l.zendLlistDelElement compare = some l' ∧ Linear l' order' ∧
      order'.length ≤ order.length := by
  have searched := search_eq_find? linear.linked (fun current => compare (l.data current))
    linear.length_le
  rw [← linear.head] at searched
  simp only [zendLlistDelElement, searched, Option.bind_eq_bind, Option.bind_some]
  cases found : order.find? fun current => compare (l.data current) with
  | none => exact ⟨l, order, rfl, linear, Nat.le_refl _⟩
  | some current =>
      rcases List.append_of_mem (List.mem_of_find?_eq_some found) with ⟨front, back, rfl⟩
      exact ⟨_, _, rfl, delLlistElement_linear linear, by simp⟩

theorem zendLlistRemoveTail_linear (linear : Linear l order) :
    Linear l.zendLlistRemoveTail order.dropLast := by
  rcases List.eq_nil_or_concat order with empty | ⟨front, last, isConcat⟩
  · subst empty
    have same : l.zendLlistRemoveTail = l := by simp [zendLlistRemoveTail, linear.tail]
    rw [same]
    exact linear
  · rw [List.concat_eq_append] at isConcat
    subst isConcat
    have deleted := delLlistElement_linear linear
    have same : l.zendLlistRemoveTail = l.delLlistElement last := by
      have next := linear.linked.next_eq
      simp only [List.head?_nil] at next
      simp [zendLlistRemoveTail, delLlistElement, linear.tail, next]
    rw [same, List.dropLast_concat]
    simpa using deleted

/-! ### Sorting -/

/-- The loop makes a list of the elements in the order of the array. -/
theorem relink_linked (rest : List Nat) (before : Nat) (l : Llist α)
    (nodup : (before :: rest).Nodup) :
    ∃ next prev, l.relink before rest =
        { l with next, prev, tail := (before :: rest).getLast? } ∧
      Segment next prev (l.prev before) (before :: rest) none ∧
      ∀ p, p ∉ before :: rest → next p = l.next p ∧ prev p = l.prev p := by
  induction rest generalizing before l with
  | nil =>
      refine ⟨_, l.prev, rfl, ⟨rfl, by simp, trivial⟩, fun p absent => ⟨?_, rfl⟩⟩
      exact Function.update_of_ne (by simpa using absent) _ _
  | cons element rest induction =>
      rcases List.nodup_cons.mp nodup with ⟨notLater, nodup⟩
      rcases induction element { l with
          prev := update l.prev element (some before)
          next := update l.next before (some element) } nodup with
        ⟨next, prev, equal, segment, outside⟩
      have different : before ≠ element := fun same => notLater (same ▸ List.mem_cons_self)
      refine ⟨next, prev, ?_, ⟨?_, ?_, ?_⟩, ?_⟩
      · rw [relink, equal]
        simp [List.getLast?_cons]
      · simpa [Function.update_of_ne different] using (outside before notLater).2
      · simpa using (outside before notLater).1
      · simpa using segment
      · intro p absent
        rw [List.mem_cons, not_or] at absent
        have others := outside p absent.2
        have notElement : p ≠ element := fun same => absent.2 (same ▸ List.mem_cons_self)
        simpa [Function.update_of_ne absent.1, Function.update_of_ne notElement] using others

/-- Whatever the comparison answers, the list is linked in the order of the array. -/
theorem zendLlistSort_linear (linear : Linear l order) (few : order.length < 2 ^ 64)
    (compFunc : Nat → Nat → Int) :
    ∃ l' sorted, l.zendLlistSort compFunc = some l' ∧ Linear l' sorted ∧
      zendQsort (listArray Nat 8) compFunc order order.length = some sorted ∧
      sorted.Perm order ∧ l'.data = l.data := by
  have listed := Linked.follow_eq linear.linked linear.length_le
  rw [← linear.head] at listed
  rcases zendQsort_perm compFunc (by decide : 0 < 8) few with ⟨sorted, isSorted, perm⟩
  by_cases empty : l.count = 0
  · have isNil : order = [] := List.length_eq_zero_iff.mp (linear.count ▸ empty)
    subst isNil
    rw [perm.eq_nil] at isSorted
    exact ⟨l, [], if_pos empty, linear, isSorted, .refl _, rfl⟩
  · have nodup : sorted.Nodup := perm.nodup_iff.mpr linear.nodup
    have counted : zendQsort (listArray Nat 8) compFunc order l.count = some sorted := by
      rw [linear.count, isSorted]
    rw [zendLlistSort, if_neg empty, listed, Option.bind_eq_bind, Option.bind_some,
      if_neg (not_not_intro linear.count.symm), counted, Option.bind_some]
    cases sorted with
    | nil =>
        rw [linear.count, ← perm.length_eq] at empty
        exact absurd rfl empty
    | cons first rest =>
        rcases relink_linked rest first { l with
          head := some first, prev := update l.prev first none } nodup with
          ⟨next, prev, equal, segment, _⟩
        refine ⟨_, first :: rest, rfl, ?_, isSorted, perm, by rw [equal]⟩
        rw [equal]
        exact {
          nodup
          allocated := fun p member => linear.allocated p (perm.mem_iff.mp member)
          linked := by simpa using segment
          head := rfl
          tail := rfl
          count := linear.count.trans perm.length_eq.symm }

/-- The elements of the list, in the order of the comparison. -/
theorem zendLlistSort_sorts (linear : Linear l order) (few : order.length < 2 ^ 64)
    {compFunc : Nat → Nat → Int} (preorder : TotalPreorder compFunc) :
    ∃ l' sorted, l.zendLlistSort compFunc = some l' ∧ Linear l' sorted ∧
      SortedFrom compFunc order sorted ∧ l'.data = l.data := by
  rcases zendLlistSort_linear linear few compFunc with
    ⟨l', sorted, equal, linear', isSorted, _, data⟩
  rcases zendQsort_list preorder (by decide : 0 < 8) few with ⟨same, isSame, sortedFrom⟩
  cases isSorted.symm.trans isSame
  exact ⟨l', sorted, equal, linear', sortedFrom, data⟩

/-! ### Runs -/

/-- The lists that the functions build, as long as they fit into the address space. -/
inductive Built : Llist α → Prop
  | init (memory : Llist α) : Built memory.zendLlistInit
  | add {l : Llist α} (before : Built l) (room : l.count + 1 < 2 ^ 64) (element : α) :
      Built (l.zendLlistAddElement element)
  | prepend {l : Llist α} (before : Built l) (room : l.count + 1 < 2 ^ 64) (element : α) :
      Built (l.zendLlistPrependElement element)
  | delete {l l' : Llist α} (before : Built l) (compare : α → Bool)
      (deleted : l.zendLlistDelElement compare = some l') : Built l'
  | removeTail {l : Llist α} (before : Built l) : Built l.zendLlistRemoveTail
  | clean {l : Llist α} (before : Built l) : Built l.zendLlistClean
  | sort {l l' : Llist α} (before : Built l) (compFunc : Nat → Nat → Int)
      (sorted : l.zendLlistSort compFunc = some l') : Built l'

/-- Every list that the functions build holds together. -/
theorem linear_of_built (built : Built l) : ∃ order, Linear l order ∧ order.length < 2 ^ 64 := by
  induction built with
  | init memory => exact ⟨[], zendLlistInit_linear memory, by decide⟩
  | add _ room element induction =>
      rcases induction with ⟨order, linear, _⟩
      rw [linear.count] at room
      exact ⟨_, zendLlistAddElement_linear linear element, by simpa using room⟩
  | prepend _ room element induction =>
      rcases induction with ⟨order, linear, _⟩
      rw [linear.count] at room
      exact ⟨_, zendLlistPrependElement_linear linear element, by simpa using room⟩
  | delete _ compare deleted induction =>
      rcases induction with ⟨order, linear, few⟩
      rcases zendLlistDelElement_linear linear compare with ⟨l', order', equal, linear', fewer⟩
      cases deleted.symm.trans equal
      exact ⟨order', linear', by omega⟩
  | removeTail _ induction =>
      rcases induction with ⟨order, linear, few⟩
      refine ⟨_, zendLlistRemoveTail_linear linear, ?_⟩
      rw [List.length_dropLast]
      omega
  | clean _ _ => exact ⟨[], zendLlistInit_linear _, by decide⟩
  | sort _ compFunc sorted induction =>
      rcases induction with ⟨order, linear, few⟩
      rcases zendLlistSort_linear linear few compFunc with
        ⟨l', order', equal, linear', _, perm, _⟩
      cases sorted.symm.trans equal
      exact ⟨order', linear', by rwa [perm.length_eq]⟩

theorem linear_of_built_three :
    let memory : Llist Nat := ⟨none, none, 9, fun _ => none, fun _ => none, fun _ => 0, 4⟩
    ∃ order, Linear (((memory.zendLlistInit.zendLlistAddElement 5).zendLlistPrependElement
      7).zendLlistAddElement 6) order ∧ order.length < 2 ^ 64 :=
  linear_of_built (.add (.prepend (.add (.init _) (by decide) 5) (by decide) 7) (by decide) 6)

end Llist

end PhpRuntime.Lists
