import PhpRuntime.Foundation.BinaryHeap
import PhpRuntime.Foundation.Integers
import PhpRuntime.Sort.Sorted

/-! # Heaps

`ext/spl/spl_heap.c`. The elements are at the first `count` places of an array, which grows as
it has to; a call has no result if the size of the array would be no `int`. A comparison can
throw an exception, which stays pending while the function that has called it goes on.
-/

namespace PhpRuntime.Spl

open BinaryHeap Integers
open PhpRuntime.Sort (TotalPreorder)

/-! ## Comparisons -/

/-- How many calls of `compare` there have been, and `EG(exception)`. -/
structure World where
  calls : Nat := 0
  exception : Bool := false

/-- `spl_ptr_heap_cmp_func` -/
abbrev CmpFunc (α : Type) := α → α → World → Int × World

/-- The comparison of a heap object: its own `compare` method, whose answers may depend on what
has been asked before and which throws an exception if there is none, or that of its class. -/
structure HeapObject (β : Type) where
  fptrCmp : Option (Nat → β → β → Option Int)
  compareFunction : β → β → Int

/-- The functions below: `key` is what is compared of an element, and `builtin` the comparison
without a method. The answer is a `long`, and an `int` is returned. -/
def zvalCmp {α β : Type} (object : HeapObject β) (key : α → β) (builtin : β → β → Int) :
    CmpFunc α := fun a b w =>
  if w.exception then
    (0, w)
  else
    match object.fptrCmp with
    | some compare =>
        match compare w.calls (key a) (key b) with
        | none => (0, { calls := w.calls + 1, exception := true })
        | some lval => (int lval, { w with calls := w.calls + 1 })
    | none => (int (builtin (key a) (key b)), w)

def splPtrHeapZvalMaxCmp {β : Type} (object : HeapObject β) : CmpFunc β :=
  zvalCmp object id object.compareFunction

def splPtrHeapZvalMinCmp {β : Type} (object : HeapObject β) : CmpFunc β :=
  zvalCmp object id fun a b => object.compareFunction b a

/-- An element of a priority queue has data and a priority. -/
def splPtrPqueueZvalCmp {γ β : Type} (object : HeapObject β) : CmpFunc (γ × β) :=
  zvalCmp object Prod.snd object.compareFunction

/-! ## Heaps -/

/-- `spl_ptr_heap`, with the flag `SPL_HEAP_CORRUPTED` -/
structure PtrHeap (α : Type) where
  elements : Nat → α
  count : Nat
  maxSize : Nat
  corrupted : Bool

section Heap

variable {α : Type} (cmp : CmpFunc α)

/-- Sifting up. There are not more than `fuel` rounds, where `i` is at most `fuel`. -/
def siftUp (elem : α) : Nat → Nat → (Nat → α) → World → Nat × (Nat → α) × World
  | 0, i, elements, w => (i, elements, w)
  | fuel + 1, i, elements, w =>
      if i > 0 then
        let (result, w) := cmp (elements ((i - 1) / 2)) elem w
        if result < 0 then
          siftUp elem fuel ((i - 1) / 2) (Function.update elements i (elements ((i - 1) / 2))) w
        else
          (i, elements, w)
      else
        (i, elements, w)

/-- `max_size` with room for one element more. -/
def PtrHeap.grown (heap : PtrHeap α) : Option Nat :=
  if heap.count + 1 > heap.maxSize then counted (heap.maxSize * 2) else some heap.maxSize

/-- What `spl_ptr_heap_insert` does when there is room. -/
def PtrHeap.insert (heap : PtrHeap α) (maxSize : Nat) (elem : α) (w : World) : PtrHeap α × World :=
  let (i, elements, w) := siftUp cmp elem heap.count heap.count heap.elements w
  ({ elements := Function.update elements i elem
     count := heap.count + 1
     maxSize
     corrupted := heap.corrupted || w.exception }, w)

def splPtrHeapInsert (heap : PtrHeap α) (elem : α) (w : World) : Option (PtrHeap α × World) :=
  heap.grown.map fun maxSize => heap.insert cmp maxSize elem w

def splPtrHeapTop (heap : PtrHeap α) : Option α :=
  if heap.count = 0 then none else some (heap.elements 0)

/-- The child of place `i` that goes up. -/
def nextChild (count i : Nat) (elements : Nat → α) (w : World) : Nat × World :=
  let j := i * 2 + 1
  if j ≠ count then
    let (result, w) := cmp (elements (j + 1)) (elements j) w
    (if result > 0 then j + 1 else j, w)
  else
    (j, w)

/-- The loop of `spl_ptr_heap_delete_top`, behind the decrement of `count` -/
def siftDown (bottom : α) (limit count : Nat) :
    Nat → Nat → (Nat → α) → World → Nat × (Nat → α) × World
  | 0, i, elements, w => (i, elements, w)
  | fuel + 1, i, elements, w =>
      if i < limit then
        let (j, w) := nextChild cmp count i elements w
        let (result, w) := cmp bottom (elements j) w
        if result < 0 then
          siftDown bottom limit count fuel j (Function.update elements i (elements j)) w
        else
          (i, elements, w)
      else
        (i, elements, w)

def splPtrHeapDeleteTop (heap : PtrHeap α) (w : World) : Option α × PtrHeap α × World :=
  let limit := (heap.count - 1) / 2
  if heap.count = 0 then
    (none, heap, w)
  else
    let top := heap.elements 0
    let count := heap.count - 1
    let bottom := heap.elements count
    let (i, elements, w) := siftDown cmp bottom limit count limit 0 heap.elements w
    (some top, { elements := Function.update elements i bottom
                 count := count
                 maxSize := heap.maxSize
                 corrupted := heap.corrupted || w.exception }, w)

/-! ## Methods -/

/-- `SplHeap::insert`, `SplHeap::extract` and `SplHeap::next`; the last one does not look at the
flag. -/
inductive Op (α : Type) where
  | insert (value : α)
  | extract
  | next

/-- A heap, and what has been inserted and extracted so far. -/
structure Session (α : Type) where
  heap : PtrHeap α
  calls : Nat := 0
  inserted : List α := []
  extracted : List α := []

def Session.deleteTop (s : Session α) : Session α :=
  let (top, heap, w) := splPtrHeapDeleteTop cmp s.heap { calls := s.calls }
  { s with heap, calls := w.calls, extracted := s.extracted ++ top.toList }

/-- A call of a method. A corrupted heap throws an exception; one that has been thrown by a
comparison is caught before the next call. -/
def Session.call (s : Session α) : Op α → Option (Session α)
  | .insert value =>
      if s.heap.corrupted then some s
      else
        (splPtrHeapInsert cmp s.heap value { calls := s.calls }).map fun (heap, w) =>
          { s with heap, calls := w.calls, inserted := s.inserted ++ [value] }
  | .extract => some (if s.heap.corrupted then s else s.deleteTop cmp)
  | .next => some (s.deleteTop cmp)

/-- `PTR_HEAP_BLOCK_SIZE` -/
def ptrHeapBlockSize : Nat := 64

/-- `spl_ptr_heap_init`; what the array holds does not matter. -/
def Session.start (elements : Nat → α) : Session α :=
  { heap := { elements, count := 0, maxSize := ptrHeapBlockSize, corrupted := false } }

def Session.run (s : Session α) (ops : List (Op α)) : Option (Session α) :=
  ops.foldlM (Session.call cmp) s

/-- Each element that is inserted finds fewer than `2 ^ 30` others. -/
def Session.Fits : Session α → List (Op α) → Prop
  | _, [] => True
  | s, op :: ops =>
      (∀ value, op = .insert value → s.heap.corrupted = false → s.heap.count < 2 ^ 30)
        ∧ ∀ s', s.call cmp op = some s' → s'.Fits ops

end Heap

/-- The elements of a heap. -/
def PtrHeap.contents {α : Type} (heap : PtrHeap α) : List α :=
  BinaryHeap.contents heap.elements heap.count

/-! ## Elements are neither lost nor doubled -/

section Elements

variable {α : Type} {cmp : CmpFunc α} {elements : Nat → α} {n i count : Nat} {w : World}

/-- Moving the parent down is an exchange with the element that goes up. -/
theorem update_eq_exchanged {x : α} {j : Nat} (other : j ≠ i) :
    Function.update (Function.update elements i (elements j)) j x
      = exchanged (Function.update elements i x) i j := by
  rw [exchanged, Function.update_self, Function.update_of_ne other, Function.update_idem]

theorem siftUp_perm {elem : α} {fuel : Nat} (inside : i < n) :
    (siftUp cmp elem fuel i elements w).1 < n
    ∧ (contents (Function.update (siftUp cmp elem fuel i elements w).2.1
      (siftUp cmp elem fuel i elements w).1 elem) n).Perm
      (contents (Function.update elements i elem) n) := by
  induction fuel generalizing i elements w with
  | zero => exact ⟨inside, .refl _⟩
  | succ fuel induction =>
      rw [siftUp]
      rcases cmp (elements ((i - 1) / 2)) elem w with ⟨result, w'⟩
      dsimp only
      split_ifs with positive less
      · have rest := @induction (Function.update elements i (elements ((i - 1) / 2)))
          ((i - 1) / 2) w' (by omega)
        refine ⟨rest.1, rest.2.trans ?_⟩
        rw [update_eq_exchanged (by omega)]
        exact exchanged_perm inside (by omega)
      · exact ⟨inside, .refl _⟩
      · exact ⟨inside, .refl _⟩

theorem insert_perm (heap : PtrHeap α) (maxSize : Nat) (elem : α) (w : World) :
    (heap.insert cmp maxSize elem w).1.contents.Perm (elem :: heap.contents) := by
  have sifted := @siftUp_perm _ cmp heap.elements (heap.count + 1) heap.count w elem heap.count
    (Nat.lt_succ_self _)
  have same : contents (Function.update heap.elements heap.count elem) heap.count
      = contents heap.elements heap.count :=
    contents_congr fun k less => Function.update_of_ne (by omega) _ _
  refine sifted.2.trans ?_
  rw [contents_succ, Function.update_self, same]
  exact List.perm_append_singleton _ _

theorem nextChild_cases :
    (nextChild cmp count i elements w).1 = i * 2 + 1
      ∨ (nextChild cmp count i elements w).1 = i * 2 + 2 := by
  simp only [nextChild]
  split
  · split
    · exact .inr rfl
    · exact .inl rfl
  · exact .inl rfl

/-- The slot behind the end can be reached only if it is larger than itself, and then the element
that is moved has been put down already. -/
theorem siftDown_perm {bottom : α} {fuel limit : Nat} (half : limit = count / 2)
    (slot : elements count = bottom) (inside : i ≤ count) :
    (contents (Function.update (siftDown cmp bottom limit count fuel i elements w).2.1
      (siftDown cmp bottom limit count fuel i elements w).1 bottom) count).Perm
      (contents (Function.update elements i bottom) count) := by
  induction fuel generalizing i elements w with
  | zero => exact .refl _
  | succ fuel induction =>
      have children := @nextChild_cases _ cmp elements i count w
      rw [siftDown]
      generalize nextChild cmp count i elements w = child at children ⊢
      obtain ⟨j, w'⟩ := child
      dsimp only at children ⊢
      rcases cmp bottom (elements j) w' with ⟨result, w''⟩
      dsimp only
      split_ifs with below less
      · have kept : Function.update elements i (elements j) count = bottom := by
          rw [Function.update_of_ne (by omega), slot]
        refine (induction kept (by omega)).trans ?_
        by_cases last : j = count
        · rw [contents_congr fun k less => Function.update_of_ne (show k ≠ j by omega) _ _, last,
            slot]
        · rw [update_eq_exchanged (by omega)]
          exact exchanged_perm (by omega) (by omega)
      · exact .refl _
      · exact .refl _

theorem deleteTop_perm (heap : PtrHeap α) (w : World) :
    ((splPtrHeapDeleteTop cmp heap w).1.toList
      ++ (splPtrHeapDeleteTop cmp heap w).2.1.contents).Perm heap.contents := by
  rw [splPtrHeapDeleteTop]
  split_ifs with none
  · exact .refl _
  · obtain ⟨count, isCount⟩ : ∃ count, heap.count = count + 1 := ⟨heap.count - 1, by omega⟩
    have sifted := @siftDown_perm _ cmp heap.elements 0 count w (heap.elements count)
      (count / 2) (count / 2) rfl rfl (Nat.zero_le _)
    rw [isCount, Nat.add_sub_cancel]
    refine (sifted.cons (heap.elements 0)).trans ?_
    rw [PtrHeap.contents, isCount, contents_succ]
    refine .trans ?_ (List.perm_append_singleton _ _).symm
    cases count with
    | zero => exact .refl _
    | succ count => exact update_perm (Nat.succ_pos _) _

/-- What a call does to the heap and to the two lists, if it does anything. -/
theorem Session.call_cases {P : Session α → Prop} {s s' : Session α} {op : Op α}
    (called : s.call cmp op = some s') (same : P s)
    (inserts : ∀ value maxSize calls, s.heap.corrupted = false →
      P { s with
        heap := (s.heap.insert cmp maxSize value { calls := s.calls }).1, calls
        inserted := s.inserted ++ [value] })
    (deletes : P (s.deleteTop cmp)) : P s' := by
  cases op with
  | insert value =>
      rw [Session.call] at called
      split at called
      · rw [← Option.some.inj called]
        exact same
      · rename_i sound
        rw [splPtrHeapInsert, Option.map_map] at called
        obtain ⟨maxSize, _, rfl⟩ := Option.map_eq_some_iff.mp called
        exact inserts value maxSize _ (Bool.eq_false_iff.mpr sound)
  | extract =>
      rw [Session.call] at called
      rw [← Option.some.inj called]
      split
      · exact same
      · exact deletes
  | next =>
      rw [Session.call] at called
      rw [← Option.some.inj called]
      exact deletes

theorem Session.run_cons {s : Session α} {op : Op α} {ops : List (Op α)} :
    s.run cmp (op :: ops) = (s.call cmp op).bind fun s' => s'.run cmp ops := rfl

/-- What the calls keep, a run keeps. -/
theorem Session.run_keeps {P : Session α → Prop}
    (call : ∀ s op s', P s → s.call cmp op = some s' → P s') {s s' : Session α} (start : P s)
    {ops : List (Op α)} (runs : s.run cmp ops = some s') : P s' := by
  induction ops generalizing s with
  | nil => exact Option.some.inj runs ▸ start
  | cons op ops induction =>
      rw [Session.run_cons] at runs
      obtain ⟨next, called, runs⟩ := Option.bind_eq_some_iff.mp runs
      exact induction (call s op next start called) runs

/-- What has been inserted is what has been extracted and what is there. -/
def Session.Balanced (s : Session α) : Prop := (s.extracted ++ s.heap.contents).Perm s.inserted

theorem Session.Balanced.deleteTop {s : Session α} (balanced : s.Balanced) (cmp : CmpFunc α) :
    (s.deleteTop cmp).Balanced := by
  have moved := @deleteTop_perm _ cmp s.heap { calls := s.calls }
  rw [Balanced, Session.deleteTop, List.append_assoc]
  exact (moved.append_left _).trans balanced

theorem Session.Balanced.call {s s' : Session α} (balanced : s.Balanced) {op : Op α}
    (called : s.call cmp op = some s') : s'.Balanced := by
  refine Session.call_cases called balanced (fun value maxSize _ _ => ?_) (balanced.deleteTop cmp)
  have added := @insert_perm _ cmp s.heap maxSize value { calls := s.calls }
  rw [Balanced]
  refine (added.append_left s.extracted).trans ?_
  refine List.perm_middle.trans ?_
  exact (balanced.cons value).trans (List.perm_append_singleton _ _).symm

theorem balanced_run {ops : List (Op α)} {s : Session α}
    (runs : (Session.start elements).run cmp ops = some s) : s.Balanced := by
  have start : (Session.start elements).Balanced := .refl _
  exact Session.run_keeps (fun _ _ _ balanced called => balanced.call called) start runs

end Elements

/-! ## The size -/

section Size

variable {α : Type} {cmp : CmpFunc α}

/-- The size has been doubled a number of times, and the elements have their places. -/
def PtrHeap.Sized (heap : PtrHeap α) : Prop :=
  ∃ k, k ≤ 30 ∧ heap.maxSize = 2 ^ k ∧ heap.count ≤ heap.maxSize

/-- There is room for one element more, unless there are `2 ^ 30`. -/
theorem PtrHeap.Sized.grown {heap : PtrHeap α} (sized : heap.Sized) :
    if heap.count < 2 ^ 30 then ∃ maxSize, heap.grown = some maxSize
      ∧ ∃ k, k ≤ 30 ∧ maxSize = 2 ^ k ∧ heap.count + 1 ≤ maxSize
    else heap.grown = none := by
  obtain ⟨k, small, isSize, inside⟩ := sized
  have atMost : 2 ^ k ≤ 2 ^ 30 := Nat.pow_le_pow_right (by decide) small
  rw [PtrHeap.grown, isSize]
  rw [isSize] at inside
  by_cases full : heap.count + 1 > 2 ^ k
  · obtain isCount : heap.count = 2 ^ k := by omega
    rw [if_pos full, isCount, ← Nat.pow_succ]
    rcases Nat.lt_or_eq_of_le small with less | rfl
    · have below : 2 ^ (k + 1) ≤ 2 ^ 30 := Nat.pow_le_pow_right (by decide) less
      have positive : 0 < 2 ^ k := Nat.two_pow_pos k
      rw [if_pos (by omega), counted_eq (by omega)]
      exact ⟨_, rfl, k + 1, less, rfl, by omega⟩
    · rw [if_neg (by decide), counted_eq_none (by decide)]
  · rw [if_neg full, if_pos (by omega)]
    exact ⟨_, rfl, k, small, rfl, by omega⟩

theorem deleteTop_sized {heap : PtrHeap α} (sized : heap.Sized) (w : World) :
    (splPtrHeapDeleteTop cmp heap w).2.1.Sized := by
  rw [splPtrHeapDeleteTop]
  split_ifs
  · exact sized
  · obtain ⟨k, small, isSize, inside⟩ := sized
    exact ⟨k, small, isSize, Nat.le_trans (Nat.sub_le _ _) inside⟩

/-- A call returns exactly if the element that it inserts finds fewer than `2 ^ 30` others. -/
theorem Session.call_returns_iff {s : Session α} (sized : s.heap.Sized) (op : Op α) :
    ((∃ s', s.call cmp op = some s')
      ↔ ∀ value, op = .insert value → s.heap.corrupted = false → s.heap.count < 2 ^ 30)
    ∧ ∀ s', s.call cmp op = some s' → s'.heap.Sized := by
  have returned {next : Session α} (sized' : next.heap.Sized) :
      ∀ s', some next = some s' → s'.heap.Sized := fun _ same => Option.some.inj same ▸ sized'
  cases op with
  | insert value =>
      rw [Session.call]
      by_cases corrupted : s.heap.corrupted = true
      · rw [if_pos corrupted]
        exact ⟨iff_of_true ⟨s, rfl⟩ fun _ _ sound => absurd corrupted (by simp [sound]),
          returned sized⟩
      · have room := sized.grown
        rw [if_neg corrupted, splPtrHeapInsert]
        split_ifs at room with fewer
        · obtain ⟨maxSize, grown, sized'⟩ := room
          rw [grown]
          exact ⟨iff_of_true ⟨_, rfl⟩ fun _ _ _ => fewer, returned sized'⟩
        · rw [room]
          exact ⟨iff_of_false (fun ⟨_, returns⟩ => nomatch returns)
            fun fits => fewer (fits value rfl (Bool.eq_false_iff.mpr corrupted)), nofun⟩
  | extract =>
      refine ⟨iff_of_true ⟨_, rfl⟩ nofun, returned ?_⟩
      split
      · exact sized
      · exact deleteTop_sized sized _
  | next => exact ⟨iff_of_true ⟨_, rfl⟩ nofun, returned (deleteTop_sized sized _)⟩

theorem Session.run_returns_iff {s : Session α} (sized : s.heap.Sized) (ops : List (Op α)) :
    (∃ s', s.run cmp ops = some s') ↔ s.Fits cmp ops := by
  induction ops generalizing s with
  | nil => exact iff_of_true ⟨s, rfl⟩ trivial
  | cons op ops induction =>
      obtain ⟨returns, keeps⟩ := @Session.call_returns_iff _ cmp s sized op
      rw [Session.Fits, ← returns, Session.run_cons]
      constructor
      · rintro ⟨last, runs⟩
        obtain ⟨next, called, runs⟩ := Option.bind_eq_some_iff.mp runs
        refine ⟨⟨next, called⟩, fun s' same => ?_⟩
        obtain rfl := Option.some.inj (called.symm.trans same)
        exact (induction (keeps _ called)).mp ⟨last, runs⟩
      · rintro ⟨⟨next, called⟩, fits⟩
        rw [called]
        exact (induction (keeps _ called)).mpr (fits next called)

theorem Session.start_sized (elements : Nat → α) : (Session.start elements).heap.Sized :=
  ⟨6, by decide, rfl, Nat.zero_le _⟩

end Size

/-! ## The order -/

/-- Unless an exception is pending, the answers of a comparison have the signs of `r`. -/
def Compares {α : Type} (cmp : CmpFunc α) (r : α → α → Int) : Prop :=
  ∀ a b w, (cmp a b w).2.exception = false →
    w.exception = false ∧ (cmp a b w).1.sign = (r a b).sign

section Order

variable {α : Type} {cmp : CmpFunc α} {r : α → α → Int} {elements : Nat → α} {n i count : Nat}
  {w : World}

theorem Compares.neg_iff (compares : Compares cmp r) {a b : α}
    (calm : (cmp a b w).2.exception = false) : (cmp a b w).1 < 0 ↔ r a b < 0 := by
  rw [← Int.sign_eq_neg_one_iff_neg, (compares a b w calm).2, Int.sign_eq_neg_one_iff_neg]

theorem Compares.pos_iff (compares : Compares cmp r) {a b : α}
    (calm : (cmp a b w).2.exception = false) : (cmp a b w).1 > 0 ↔ r a b > 0 := by
  rw [gt_iff_lt, gt_iff_lt, ← Int.sign_eq_one_iff_pos, (compares a b w calm).2,
    Int.sign_eq_one_iff_pos]

/-- If no exception is pending in the end, none has been thrown and the heap is ordered. -/
theorem siftUp_ordered (order : TotalPreorder r) (compares : Compares cmp r) {elem : α}
    {fuel : Nat} (enough : i ≤ fuel) (inside : i < n)
    (calm : (siftUp cmp elem fuel i elements w).2.2.exception = false) :
    w.exception = false
    ∧ (Rising (fun a b => r a b ≤ 0) n i (Function.update elements i elem) →
      Ordered (fun a b => r a b ≤ 0) n (Function.update (siftUp cmp elem fuel i elements w).2.1
        (siftUp cmp elem fuel i elements w).1 elem)) := by
  induction fuel generalizing i elements w with
  | zero =>
      obtain rfl : i = 0 := by omega
      exact ⟨calm, fun rising => rising.ordered nofun⟩
  | succ fuel induction =>
      rw [siftUp] at calm ⊢
      by_cases positive : i > 0
      · rw [if_pos positive] at calm ⊢
        dsimp only at calm ⊢
        have parent : Function.update elements i elem ((i - 1) / 2) = elements ((i - 1) / 2) :=
          Function.update_of_ne (by omega) _ _
        split_ifs at calm ⊢ with less
        · obtain ⟨earlier, rest⟩ := induction (by omega) (by omega) calm
          refine ⟨(compares _ _ _ earlier).1, fun rising => rest ?_⟩
          rw [update_eq_exchanged (by omega)]
          refine rising.exchange order.transitive positive inside ?_
          rw [Function.update_self, parent]
          exact Int.le_of_lt ((compares.neg_iff earlier).mp less)
        · refine ⟨(compares _ _ _ calm).1, fun rising => rising.ordered fun _ => ?_⟩
          rw [Function.update_self, parent]
          exact order.le_of_not_lt (mt (compares.neg_iff calm).mpr less)
      · rw [if_neg positive] at calm ⊢
        exact ⟨calm, fun rising => rising.ordered fun some_ => absurd some_ positive⟩

theorem nextChild_largest (order : TotalPreorder r) (compares : Compares cmp r)
    (inside : i * 2 + 1 < count) (calm : (nextChild cmp count i elements w).2.exception = false) :
    w.exception = false ∧ ∀ k, (k = i * 2 + 1 ∨ k = i * 2 + 2) →
      r (elements k) (elements (nextChild cmp count i elements w).1) ≤ 0 := by
  rw [nextChild] at calm ⊢
  dsimp only at calm ⊢
  rw [if_pos (by omega)] at calm ⊢
  refine ⟨(compares _ _ _ calm).1, ?_⟩
  have larger := compares.pos_iff calm
  rintro k (rfl | rfl)
  · split_ifs with greater
    · exact order.le_of_not_lt (Int.not_lt.mpr (Int.le_of_lt (larger.mp greater)))
    · exact order.refl _
  · split_ifs with greater
    · exact order.refl _
    · exact Int.not_lt.mp (mt larger.mpr greater)

theorem siftDown_ordered (order : TotalPreorder r) (compares : Compares cmp r) {bottom : α}
    {fuel limit : Nat} (half : limit = count / 2) (slot : elements count = bottom)
    (enough : limit ≤ fuel + i)
    (calm : (siftDown cmp bottom limit count fuel i elements w).2.2.exception = false) :
    w.exception = false
    ∧ (Sinking (fun a b => r a b ≤ 0) count i (Function.update elements i bottom) →
      Ordered (fun a b => r a b ≤ 0) count (Function.update
        (siftDown cmp bottom limit count fuel i elements w).2.1
        (siftDown cmp bottom limit count fuel i elements w).1 bottom)) := by
  have childless (leaf : limit ≤ i) (k : Nat) (less : k < count) (positive : 0 < k) :
      (k - 1) / 2 ≠ i := by omega
  induction fuel generalizing i elements w with
  | zero =>
      refine ⟨calm, fun sinking => sinking.ordered fun k less positive isChild => ?_⟩
      exact absurd isChild (childless (by omega) k less positive)
  | succ fuel induction =>
      have children := @nextChild_cases _ cmp elements i count w
      rw [siftDown] at calm ⊢
      by_cases below : i < limit
      · rw [if_pos below] at calm ⊢
        have largest := @nextChild_largest _ cmp r elements i count w order compares (by omega)
        generalize nextChild cmp count i elements w = child at children largest calm ⊢
        obtain ⟨j, w'⟩ := child
        dsimp only at children largest calm ⊢
        have kept (k : Nat) (other : k ≠ i) : Function.update elements i bottom k = elements k :=
          Function.update_of_ne other _ _
        split_ifs at calm ⊢ with less
        · have stays : Function.update elements i (elements j) count = bottom := by
            rw [Function.update_of_ne (by omega), slot]
          obtain ⟨earlier, rest⟩ := induction stays (by omega) calm
            (fun leaf k less positive => by omega)
          obtain ⟨before, largest'⟩ := largest (compares _ _ _ earlier).1
          refine ⟨before, fun sinking => rest ?_⟩
          have exceeds := (compares.neg_iff earlier).mp less
          have inner : j ≠ count := by
            rintro rfl
            rw [slot] at exceeds
            have same := order.antisymmetric bottom bottom
            omega
          rw [update_eq_exchanged (by omega)]
          refine sinking.exchange (by omega) (by omega) (by omega) ?_ ?_
          · rw [Function.update_self, kept j (by omega)]
            exact Int.le_of_lt exceeds
          · intro k inside positive isChild
            rw [kept k (by omega), kept j (by omega)]
            exact largest' k (by omega)
        · obtain ⟨before, largest'⟩ := largest (compares _ _ _ calm).1
          refine ⟨before, fun sinking => sinking.ordered fun k inside positive isChild => ?_⟩
          rw [Function.update_self, kept k (by omega)]
          exact order.transitive _ _ _ (largest' k (by omega))
            (order.le_of_not_lt (mt (compares.neg_iff calm).mpr less))
      · rw [if_neg below] at calm ⊢
        refine ⟨calm, fun sinking => sinking.ordered fun k less positive isChild => ?_⟩
        exact absurd isChild (childless (by omega) k less positive)

/-- Every element but the first is at most its parent. -/
def PtrHeap.Ordered (r : α → α → Int) (heap : PtrHeap α) : Prop :=
  BinaryHeap.Ordered (fun a b => r a b ≤ 0) heap.count heap.elements

theorem insert_ordered (order : TotalPreorder r) (compares : Compares cmp r) {heap : PtrHeap α}
    (ordered : heap.corrupted = false → heap.Ordered r) (maxSize : Nat) (elem : α)
    (sound : (heap.insert cmp maxSize elem w).1.corrupted = false) :
    (heap.insert cmp maxSize elem w).1.Ordered r := by
  obtain ⟨before, calm⟩ := (Bool.or_eq_false_iff).mp sound
  have rising := (ordered before).rising elem
  exact (siftUp_ordered order compares le_rfl (Nat.lt_succ_self _) calm).2 rising

theorem deleteTop_ordered (order : TotalPreorder r) (compares : Compares cmp r) {heap : PtrHeap α}
    (ordered : heap.corrupted = false → heap.Ordered r)
    (sound : (splPtrHeapDeleteTop cmp heap w).2.1.corrupted = false) :
    (splPtrHeapDeleteTop cmp heap w).2.1.Ordered r := by
  rw [splPtrHeapDeleteTop] at sound ⊢
  split_ifs at sound ⊢ with none
  · exact ordered sound
  · obtain ⟨before, calm⟩ := (Bool.or_eq_false_iff).mp sound
    have sinking := (ordered before).sinking (Nat.sub_le heap.count 1)
      (heap.elements (heap.count - 1))
    exact (siftDown_ordered order compares rfl rfl le_rfl calm).2 sinking

/-- The heap is in order unless it is marked as corrupted. -/
def Session.Orderly (r : α → α → Int) (s : Session α) : Prop :=
  s.heap.corrupted = false → s.heap.Ordered r

theorem Session.Orderly.call (order : TotalPreorder r) (compares : Compares cmp r)
    {s s' : Session α} (orderly : s.Orderly r) {op : Op α} (called : s.call cmp op = some s') :
    s'.Orderly r :=
  Session.call_cases called orderly
    (fun value maxSize _ _ => insert_ordered order compares orderly maxSize value)
    (deleteTop_ordered order compares orderly)

theorem orderly_run (order : TotalPreorder r) (compares : Compares cmp r) {ops : List (Op α)}
    {s : Session α} (runs : (Session.start elements).run cmp ops = some s) : s.Orderly r := by
  have start : (Session.start elements).Orderly r := fun _ k _ less => absurd less (Nat.not_lt_zero k)
  exact Session.run_keeps (fun _ _ _ orderly called => orderly.call order compares called) start runs

end Order

/-! ## Comparisons that throw no exceptions -/

section Quiet

variable {α : Type} {cmp : CmpFunc α}

def Quiet (cmp : CmpFunc α) : Prop :=
  ∀ a b w, w.exception = false → (cmp a b w).2.exception = false

/-- Extracts elements until none is left. -/
def drain (cmp : CmpFunc α) : Nat → PtrHeap α → List α
  | 0, _ => []
  | fuel + 1, heap =>
      let (top, heap, _) := splPtrHeapDeleteTop cmp heap {}
      top.toList ++ drain cmp fuel heap

variable {r : α → α → Int} {heap : PtrHeap α} {w : World}

theorem Quiet.siftUp (quiet : Quiet cmp) {elem : α} {fuel i : Nat} {elements : Nat → α}
    (calm : w.exception = false) : (siftUp cmp elem fuel i elements w).2.2.exception = false := by
  induction fuel generalizing i elements w with
  | zero => exact calm
  | succ fuel induction =>
      rw [Spl.siftUp]
      split
      · have next := quiet (elements ((i - 1) / 2)) elem w calm
        dsimp only
        split
        · exact induction next
        · exact next
      · exact calm

theorem Quiet.siftDown (quiet : Quiet cmp) {bottom : α} {fuel i limit count : Nat}
    {elements : Nat → α} (calm : w.exception = false) :
    (siftDown cmp bottom limit count fuel i elements w).2.2.exception = false := by
  induction fuel generalizing i elements w with
  | zero => exact calm
  | succ fuel induction =>
      have child : (nextChild cmp count i elements w).2.exception = false := by
        rw [nextChild]
        dsimp only
        split
        · exact quiet _ _ w calm
        · exact calm
      rw [Spl.siftDown]
      split
      · have next := quiet bottom (elements (nextChild cmp count i elements w).1) _ child
        dsimp only
        split
        · exact induction next
        · exact next
      · exact calm

theorem Quiet.deleteTop (quiet : Quiet cmp) (calm : w.exception = false)
    (sound : heap.corrupted = false) :
    (splPtrHeapDeleteTop cmp heap w).2.1.corrupted = false := by
  rw [splPtrHeapDeleteTop]
  split_ifs with none
  · exact sound
  · exact (Bool.or_eq_false_iff).mpr ⟨sound, quiet.siftDown calm⟩

theorem Quiet.call (quiet : Quiet cmp) {s s' : Session α} {op : Op α}
    (sound : s.heap.corrupted = false) (called : s.call cmp op = some s') :
    s'.heap.corrupted = false :=
  @Session.call_cases _ cmp (fun s => s.heap.corrupted = false) s s' op called sound
    (fun _ _ _ _ => (Bool.or_eq_false_iff).mpr ⟨sound, quiet.siftUp rfl⟩)
    (quiet.deleteTop rfl sound)

theorem deleteTop_top :
    (splPtrHeapDeleteTop cmp heap w).1 = splPtrHeapTop heap := by
  rw [splPtrHeapDeleteTop, splPtrHeapTop]
  split_ifs
  · rfl
  · rfl

theorem PtrHeap.Ordered.top (order : TotalPreorder r) (ordered : heap.Ordered r)
    (some_ : heap.contents ≠ []) :
    ∃ top, splPtrHeapTop heap = some top ∧ ∀ x ∈ heap.contents, r x top ≤ 0 := by
  have positive : heap.count ≠ 0 := by
    intro zero
    rw [PtrHeap.contents, zero] at some_
    exact some_ rfl
  refine ⟨heap.elements 0, if_neg positive, fun x member => ?_⟩
  obtain ⟨k, less, rfl⟩ := mem_contents.mp member
  exact BinaryHeap.Ordered.le_top ordered order.refl order.transitive less

/-- Extracting all elements sorts them. -/
theorem drain_sorted (order : TotalPreorder r) (compares : Compares cmp r) (quiet : Quiet cmp)
    (sound : heap.corrupted = false) (ordered : heap.Ordered r) {fuel : Nat}
    (isCount : heap.contents.length = fuel) :
    (drain cmp fuel heap).Perm heap.contents
    ∧ (drain cmp fuel heap).Pairwise fun a b => r b a ≤ 0 := by
  induction fuel generalizing heap with
  | zero =>
      rw [List.length_eq_zero_iff.mp isCount]
      exact ⟨.refl _, .nil⟩
  | succ fuel induction =>
      obtain ⟨top, isTop, largest⟩ := ordered.top order (List.ne_nil_of_length_eq_add_one isCount)
      have moved := @deleteTop_perm _ cmp heap {}
      have sound' := @Quiet.deleteTop _ cmp heap {} quiet rfl sound
      have ordered' := deleteTop_ordered order compares (fun _ => ordered) sound'
      rw [deleteTop_top, isTop] at moved
      rw [drain]
      dsimp only
      rw [deleteTop_top, isTop]
      have length := moved.length_eq
      rw [isCount] at length
      obtain ⟨same, sorted⟩ := induction sound' ordered' (Nat.succ.inj (by simpa using length))
      refine ⟨(same.cons top).trans moved, .cons (fun x member => ?_) sorted⟩
      exact largest x (moved.subset (.tail _ (same.subset member)))

end Quiet

/-! ## Comparisons of objects -/

section Objects

variable {α β : Type}

/-- What a comparison can answer. -/
def HeapObject.Answers (object : HeapObject β) (builtin : β → β → Int) (a b : β) (answer : Int) :
    Prop :=
  match object.fptrCmp with
  | some compare => ∃ calls, compare calls a b = some answer
  | none => answer = builtin a b

/-- The answers are those of a total preorder, and keep their signs as an `int`. -/
structure HeapObject.Follows (object : HeapObject β) (builtin r : β → β → Int) : Prop where
  order : TotalPreorder r
  sign : ∀ a b answer, object.Answers builtin a b answer → answer.sign = (r a b).sign
  kept : ∀ a b answer, object.Answers builtin a b answer → (int answer).sign = answer.sign

/-- The method throws no exceptions. -/
def HeapObject.NeverThrows (object : HeapObject β) : Prop :=
  ∀ compare, object.fptrCmp = some compare → ∀ calls a b, compare calls a b ≠ none

theorem HeapObject.Follows.compares {object : HeapObject β} {builtin r : β → β → Int}
    (follows : object.Follows builtin r) (key : α → β) :
    Compares (zvalCmp object key builtin) fun a b => r (key a) (key b) := by
  intro a b w calm
  rw [zvalCmp] at calm ⊢
  by_cases pending : w.exception = true
  · rw [if_pos pending] at calm
    rw [pending] at calm
    exact absurd calm (by decide)
  · rw [if_neg pending] at calm ⊢
    refine ⟨Bool.eq_false_iff.mpr pending, ?_⟩
    cases method : object.fptrCmp with
    | none =>
        have answers : object.Answers builtin (key a) (key b) (builtin (key a) (key b)) := by
          rw [HeapObject.Answers, method]
        dsimp only
        rw [follows.kept _ _ _ answers, follows.sign _ _ _ answers]
    | some compare =>
        rw [method] at calm
        cases result : compare w.calls (key a) (key b) with
        | none =>
            simp only [result] at calm
            exact absurd calm (by decide)
        | some answer =>
            have answers : object.Answers builtin (key a) (key b) answer := by
              rw [HeapObject.Answers, method]
              exact ⟨w.calls, result⟩
            simp only [result]
            rw [follows.kept _ _ _ answers, follows.sign _ _ _ answers]

theorem HeapObject.NeverThrows.quiet {object : HeapObject β} (never : object.NeverThrows)
    (key : α → β) (builtin : β → β → Int) : Quiet (zvalCmp object key builtin) := by
  intro a b w calm
  rw [zvalCmp, if_neg (Bool.eq_false_iff.mp calm)]
  cases method : object.fptrCmp with
  | none => exact calm
  | some compare =>
      cases result : compare w.calls (key a) (key b) with
      | none => exact absurd result (never compare method _ _ _)
      | some answer =>
          simp only [result]
          exact calm

theorem HeapObject.Follows.preorder {object : HeapObject β} {builtin r : β → β → Int}
    (follows : object.Follows builtin r) (key : α → β) :
    TotalPreorder fun a b : α => r (key a) (key b) where
  antisymmetric a b := follows.order.antisymmetric (key a) (key b)
  transitive a b c := follows.order.transitive (key a) (key b) (key c)

/-- A heap is a priority queue, if its comparison throws no exceptions and its answers are those
of a total preorder that keep their signs, exactly as long as there is room. -/
theorem heap_is_priority_queue (object : HeapObject β) (key : α → β) (builtin r : β → β → Int)
    (follows : object.Follows builtin r) (never : object.NeverThrows) (ops : List (Op α))
    (elements : Nat → α) :
    let cmp := zvalCmp object key builtin
    (∃ s, (Session.start elements).run cmp ops = some s
      ∧ (s.extracted ++ s.heap.contents).Perm s.inserted
      ∧ (s.heap.contents ≠ [] → ∃ top, splPtrHeapTop s.heap = some top
        ∧ (splPtrHeapDeleteTop cmp s.heap {}).1 = some top
        ∧ ∀ x ∈ s.heap.contents, r (key x) (key top) ≤ 0)
      ∧ (drain cmp s.heap.count s.heap).Perm s.heap.contents
      ∧ (drain cmp s.heap.count s.heap).Pairwise fun a b => r (key b) (key a) ≤ 0)
    ↔ (Session.start elements).Fits cmp ops := by
  intro cmp
  have quiet : Quiet cmp := never.quiet key builtin
  have order := @HeapObject.Follows.preorder α _ _ _ _ follows key
  rw [← Session.run_returns_iff (Session.start_sized elements)]
  refine ⟨fun ⟨s, runs, _⟩ => ⟨s, runs⟩, fun ⟨s, runs⟩ => ⟨s, runs, balanced_run runs, ?_⟩⟩
  have sound : s.heap.corrupted = false :=
    @Session.run_keeps _ cmp (fun s => s.heap.corrupted = false)
      (fun _ _ _ sound called => quiet.call sound called) _ _ rfl _ runs
  have ordered := orderly_run order (follows.compares key) runs sound
  refine ⟨fun some_ => ?_,
    drain_sorted order (follows.compares key) quiet sound ordered length_contents⟩
  obtain ⟨top, isTop, largest⟩ := ordered.top order some_
  exact ⟨top, isTop, deleteTop_top.trans isTop, largest⟩

/-- A method that answers with the sign of a difference, and throws an exception at one call. -/
def signMethod (failing : Option Nat) : HeapObject Int where
  fptrCmp := some fun calls a b => if failing = some calls then none else some (a - b).sign
  compareFunction _ _ := 0

theorem signMethod_answers {failing : Option Nat} {a b answer : Int}
    (answers : (signMethod failing).Answers (fun _ _ => 0) a b answer) :
    answer = (a - b).sign := by
  obtain ⟨calls, result⟩ := answers
  dsimp only at result
  split at result
  · exact absurd result nofun
  · exact (Option.some_inj.mp result).symm

theorem signMethod_follows (failing : Option Nat) :
    (signMethod failing).Follows (fun _ _ => 0) fun a b => a - b where
  order := ⟨fun a b => by omega, fun a b c first second => by omega⟩
  sign a b answer answers := by rw [signMethod_answers answers, Int.sign_sign]
  kept a b answer answers := by
    rw [signMethod_answers answers]
    rcases Int.sign_trichotomy (a - b) with one | zero | minus
    · rw [one]
      rfl
    · rw [zero]
      rfl
    · rw [minus]
      rfl

theorem heap_is_priority_queue_numbers :
    let cmp := zvalCmp (signMethod none) id fun _ _ => 0
    ∃ s, (Session.start fun _ => 0).run cmp
        [.insert 2, .insert 5, .extract, .insert 3, .insert 4] = some s
      ∧ (s.extracted ++ s.heap.contents).Perm s.inserted
      ∧ (s.heap.contents ≠ [] → ∃ top, splPtrHeapTop s.heap = some top
        ∧ (splPtrHeapDeleteTop cmp s.heap {}).1 = some top
        ∧ ∀ x ∈ s.heap.contents, x - top ≤ 0)
      ∧ (drain cmp s.heap.count s.heap).Perm s.heap.contents
      ∧ (drain cmp s.heap.count s.heap).Pairwise fun a b => b - a ≤ 0 := by
  have never : (signMethod none).NeverThrows := by
    rintro _ ⟨⟩ calls a b
    exact nofun
  exact (heap_is_priority_queue (signMethod none) id _ _ (signMethod_follows none) never _ _).mpr
    ((Session.run_returns_iff (Session.start_sized _) _).mp ⟨_, rfl⟩)

/-- Whatever a comparison answers, no element is lost or doubled, exactly as long as there is
room; and if its answers that are no exceptions are those of a total preorder and keep their
signs, a heap out of order is marked as corrupted. -/
theorem heap_survives_comparisons (object : HeapObject β) (key : α → β) (builtin : β → β → Int)
    (ops : List (Op α)) (elements : Nat → α) :
    let cmp := zvalCmp object key builtin
    (∃ s, (Session.start elements).run cmp ops = some s
      ∧ (s.extracted ++ s.heap.contents).Perm s.inserted
      ∧ ∀ r, object.Follows builtin r → s.heap.corrupted = false →
        s.heap.Ordered fun a b => r (key a) (key b))
    ↔ (Session.start elements).Fits cmp ops := by
  intro cmp
  rw [← Session.run_returns_iff (Session.start_sized elements)]
  refine ⟨fun ⟨s, runs, _⟩ => ⟨s, runs⟩, fun ⟨s, runs⟩ => ⟨s, runs, balanced_run runs, ?_⟩⟩
  exact fun r follows => orderly_run (follows.preorder key) (follows.compares key) runs

theorem heap_survives_exception :
    let cmp := zvalCmp (signMethod (some 2)) id fun _ _ => 0
    ∃ s, (Session.start fun _ => 0).run cmp
        [.insert 1, .insert 2, .insert 3, .insert 4, .extract] = some s
      ∧ (s.extracted ++ s.heap.contents).Perm s.inserted
      ∧ ∀ r, (signMethod (some 2)).Follows (fun _ _ => 0) r → s.heap.corrupted = false →
        s.heap.Ordered fun a b => r (id a) (id b) :=
  (heap_survives_comparisons (signMethod (some 2)) id _ _ _).mpr
    ((Session.run_returns_iff (Session.start_sized _) _).mp ⟨_, rfl⟩)

/-- The answers are multiples of `2 ^ 32`. -/
def distance (a b : Bool) : Int := (a.toNat - b.toNat) * 2 ^ 32

theorem distance_preorder : TotalPreorder distance := ⟨by decide, by decide⟩

def distantMethod : HeapObject Bool where
  fptrCmp := some fun _ a b => some (distance a b)
  compareFunction _ _ := 0

theorem distantMethod_answers (a b : Bool) (answer : Int) :
    distantMethod.Answers distantMethod.compareFunction a b answer ↔ answer = distance a b :=
  ⟨fun ⟨_, result⟩ => (Option.some_inj.mp result).symm, fun same => ⟨0, by rw [same]⟩⟩

/-- As an `int` each of the answers is zero, and the smaller element stays on top. -/
theorem heap_top_exceeded :
    TotalPreorder distance ∧ distantMethod.NeverThrows
    ∧ (∀ a b answer, distantMethod.Answers distantMethod.compareFunction a b answer ↔
      answer = distance a b)
    ∧ ∃ s, (Session.start fun _ => false).run (splPtrHeapZvalMaxCmp distantMethod)
        [.insert false, .insert true] = some s
      ∧ splPtrHeapTop s.heap = some false ∧ true ∈ s.heap.contents ∧ 0 < distance true false := by
  refine ⟨distance_preorder, ?_, distantMethod_answers, _, rfl, by decide, by decide, by decide⟩
  rintro _ ⟨⟩ calls a b
  exact nofun

/-- The heap is not marked as corrupted. -/
theorem heap_out_of_order :
    TotalPreorder distance
    ∧ (∀ a b answer, distantMethod.Answers distantMethod.compareFunction a b answer ↔
      answer = distance a b)
    ∧ ∃ s, (Session.start fun _ => false).run (splPtrHeapZvalMaxCmp distantMethod)
        [.insert false, .insert true] = some s
      ∧ s.heap.corrupted = false ∧ s.heap.contents = [false, true]
      ∧ ¬s.heap.Ordered distance := by
  refine ⟨distance_preorder, distantMethod_answers, _, rfl, by decide, by decide,
    fun ordered => ?_⟩
  exact absurd (ordered 1 (by decide) (by decide)) (by decide)

end Objects

end PhpRuntime.Spl
