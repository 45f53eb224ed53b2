import PhpRuntime.Foundation.Integers
import PhpRuntime.Foundation.Linked

/-! # Doubly linked lists

`ext/spl/spl_dllist.c`. An element is an address, and its fields are maps from addresses; those
below `brk` have been handed out by `emalloc`, and none of them is handed out again. So the
references to an element, which say when it is freed, need not be counted.
-/

namespace PhpRuntime.Spl.Dllist

open Function (update)
open Integers Linked

/-- `spl_ptr_llist`, and the fields of its elements -/
structure PtrLlist (α : Type) where
  head : Option Nat := none
  tail : Option Nat := none
  count : Int := 0
  next : Nat → Option Nat := fun _ => none
  prev : Nat → Option Nat := fun _ => none
  data : Nat → Option α := fun _ => none
  brk : Nat := 0

/-- What a method returns. -/
inductive Answer (α : Type) where
  | null
  | bool (value : Bool)
  | value (value : α)
  | exception (message : String)
deriving DecidableEq

namespace PtrLlist

variable {α : Type}

/-- The loop of `spl_ptr_llist_offset`, from `pos` to `offset` -/
def walk (link : Nat → Option Nat) : Nat → Option Nat → Option Nat
  | 0, current => current
  | _ + 1, none => none
  | more + 1, some element => walk link more (link element)

def splPtrLlistOffset (l : PtrLlist α) (offset : Int) (backward : Bool) : Option Nat :=
  if backward then walk l.prev offset.toNat l.tail else walk l.next offset.toNat l.head

def splPtrLlistUnshift (l : PtrLlist α) (data : α) : PtrLlist α :=
  let elem := l.brk
  { head := some elem
    tail := if l.head.isSome then l.tail else some elem
    count := int (l.count + 1)
    next := update l.next elem l.head
    prev := assign (update l.prev elem none) l.head (some elem)
    data := update l.data elem (some data)
    brk := l.brk + 1 }

def splPtrLlistPush (l : PtrLlist α) (data : α) : PtrLlist α :=
  let elem := l.brk
  { head := if l.tail.isSome then l.head else some elem
    tail := some elem
    count := int (l.count + 1)
    next := assign (update l.next elem none) l.tail (some elem)
    prev := update l.prev elem l.tail
    data := update l.data elem (some data)
    brk := l.brk + 1 }

def splPtrLlistPop (l : PtrLlist α) : PtrLlist α × Option α :=
  match l.tail with
  | none => (l, none)
  | some tail =>
      ({ l with
          head := if (l.prev tail).isSome then l.head else none
          tail := l.prev tail
          count := int (l.count - 1)
          next := assign l.next (l.prev tail) none
          data := update l.data tail none }, l.data tail)

def splPtrLlistShift (l : PtrLlist α) : PtrLlist α × Option α :=
  match l.head with
  | none => (l, none)
  | some head =>
      ({ l with
          head := l.next head
          tail := if (l.next head).isSome then l.tail else none
          count := int (l.count - 1)
          prev := assign l.prev (l.next head) none
          data := update l.data head none }, l.data head)

/-! ## Methods -/

/-- The checks in front of the access to an element. -/
def elementAt (l : PtrLlist α) (lifo : Bool) (index : Int) (message : String) :
    Except String Nat :=
  if index < 0 ∨ index ≥ l.count then
    .error message
  else
    match l.splPtrLlistOffset index lifo with
    | none => .error "Offset invalid"
    | some element => .ok element

/-- What `offsetUnset` does with the element it has found. -/
def unlink (l : PtrLlist α) (element : Nat) : PtrLlist α :=
  let next := assign l.next (l.prev element) (l.next element)
  let prev := assign l.prev (next element) (l.prev element)
  { l with
    head := if some element = l.head then next element else l.head
    tail := if some element = l.tail then prev element else l.tail
    count := int (l.count - 1)
    next, prev
    data := update l.data element none }

/-- What `add` does with the element to insert before. -/
def insertBefore (l : PtrLlist α) (element : Nat) (value : α) : PtrLlist α :=
  let elem := l.brk
  { head := if (l.prev element).isSome then l.head else some elem
    tail := l.tail
    count := int (l.count + 1)
    next := assign (update l.next elem (some element)) (l.prev element) (some elem)
    prev := update (update l.prev elem (l.prev element)) element (some elem)
    data := update l.data elem (some value)
    brk := l.brk + 1 }

def pop (l : PtrLlist α) : PtrLlist α × Answer α :=
  match l.splPtrLlistPop with
  | (l, none) => (l, .exception "Can't pop from an empty datastructure")
  | (l, some value) => (l, .value value)

def shift (l : PtrLlist α) : PtrLlist α × Answer α :=
  match l.splPtrLlistShift with
  | (l, none) => (l, .exception "Can't shift from an empty datastructure")
  | (l, some value) => (l, .value value)

def offsetExists (l : PtrLlist α) (index : Int) : PtrLlist α × Answer α :=
  (l, .bool (decide (index ≥ 0 ∧ index < l.count)))

def offsetGet (l : PtrLlist α) (lifo : Bool) (index : Int) : PtrLlist α × Answer α :=
  match l.elementAt lifo index "Offset invalid or out of range" with
  | .error message => (l, .exception message)
  | .ok element => (l, (l.data element).elim .null .value)

/-- The index is `none` for `$obj[] = ...`. -/
def offsetSet (l : PtrLlist α) (lifo : Bool) (index : Option Int) (value : α) :
    PtrLlist α × Answer α :=
  match index with
  | none => (l.splPtrLlistPush value, .null)
  | some index =>
      match l.elementAt lifo index "Offset invalid or out of range" with
      | .error message => (l, .exception message)
      | .ok element => ({ l with data := update l.data element (some value) }, .null)

def offsetUnset (l : PtrLlist α) (lifo : Bool) (index : Int) : PtrLlist α × Answer α :=
  match l.elementAt lifo index "Offset out of range" with
  | .error message => (l, .exception message)
  | .ok element => (l.unlink element, .null)

/-- There is an element to insert before if the index is not the last one. -/
def add (l : PtrLlist α) (lifo : Bool) (index : Int) (value : α) : PtrLlist α × Answer α :=
  if index < 0 ∨ index > l.count then
    (l, .exception "Offset invalid or out of range")
  else if index = l.count then
    (l.splPtrLlistPush value, .null)
  else
    match l.splPtrLlistOffset index lifo with
    | none => (l, .null)
    | some element => (l.insertBefore element value, .null)

end PtrLlist

inductive Op (α : Type) where
  | push (value : α)
  | pop
  | shift
  | unshift (value : α)
  | offsetExists (index : Int)
  | offsetGet (index : Int)
  | offsetSet (index : Option Int) (value : α)
  | offsetUnset (index : Int)
  | add (index : Int) (value : α)

variable {α : Type}

def PtrLlist.call (lifo : Bool) (l : PtrLlist α) : Op α → PtrLlist α × Answer α
  | .push value => (l.splPtrLlistPush value, .bool true)
  | .pop => l.pop
  | .shift => l.shift
  | .unshift value => (l.splPtrLlistUnshift value, .bool true)
  | .offsetExists index => l.offsetExists index
  | .offsetGet index => l.offsetGet lifo index
  | .offsetSet index value => l.offsetSet lifo index value
  | .offsetUnset index => l.offsetUnset lifo index
  | .add index value => l.add lifo index value

/-! ## Lists that hold together -/

/-- The elements from `head` to `tail`, linked in both directions, and their number. -/
structure Linear (l : PtrLlist α) (order : List Nat) : Prop where
  nodup : order.Nodup
  allocated : ∀ p ∈ order, p < l.brk
  linked : Segment l.next l.prev none order none
  head : l.head = order.head?
  tail : l.tail = order.getLast?
  count : l.count = int order.length

/-- A new element with a value is between others. -/
structure Inserted (l l' : PtrLlist α) (front back : List Nat) (value : α) : Prop where
  linear : Linear l' (front ++ l.brk :: back)
  data : l'.data = update l.data l.brk (some value)
  brk : l'.brk = l.brk + 1
  frame : ∀ p, p ≠ l.brk → p ∉ front ++ back → l'.next p = l.next p ∧ l'.prev p = l.prev p

/-- An element has been taken out; its own links stay. -/
structure Removed (l l' : PtrLlist α) (front : List Nat) (element : Nat) (back : List Nat) :
    Prop where
  linear : Linear l' (front ++ back)
  data : l'.data = update l.data element none
  brk : l'.brk = l.brk
  frame : ∀ p, p ∉ front ++ back → l'.next p = l.next p ∧ l'.prev p = l.prev p

variable {l : PtrLlist α} {order front back : List Nat} {element : Nat}

theorem linear_init : Linear ({} : PtrLlist α) [] where
  nodup := .nil
  allocated _ member := absurd member List.not_mem_nil
  linked := trivial
  head := rfl
  tail := rfl
  count := rfl

/-- The links say nothing about values. -/
theorem Linear.frame (linear : Linear l order) (data : Nat → Option α) :
    Linear { l with data } order :=
  ⟨linear.nodup, linear.allocated, linear.linked, linear.head, linear.tail, linear.count⟩

theorem Linear.brk_notMem (linear : Linear l order) : l.brk ∉ order :=
  fun member => Nat.lt_irrefl _ (linear.allocated _ member)

/-- The links that `push`, `unshift` and `add` set are those of a new element. -/
theorem Linear.inserted (linear : Linear l (front ++ back)) {l' : PtrLlist α} {value : α}
    (next : l'.next = assign (update l.next l.brk back.head?) front.getLast? (some l.brk))
    (prev : l'.prev = assign (update l.prev l.brk front.getLast?) back.head? (some l.brk))
    (head : l'.head = (front ++ l.brk :: back).head?)
    (tail : l'.tail = (front ++ l.brk :: back).getLast?) (count : l'.count = int (l.count + 1))
    (data : l'.data = update l.data l.brk (some value)) (brk : l'.brk = l.brk + 1) :
    Inserted l l' front back value := by
  have parts := segment_append.mp linear.linked
  have nodup : (front ++ l.brk :: back).Nodup :=
    List.nodup_middle.mpr (List.nodup_cons.mpr ⟨linear.brk_notMem, linear.nodup⟩)
  refine ⟨⟨nodup, fun p member => ?_, ?_, head, tail, ?_⟩, data, brk, fun p new outside => ?_⟩
  · rw [brk]
    rcases List.mem_cons.mp (List.perm_middle.mem_iff.mp member) with rfl | old
    · exact Nat.lt_succ_self _
    · exact Nat.lt_succ_of_lt (linear.allocated p old)
  · rw [next, prev]
    exact Segment.insert l.brk parts.1 parts.2 nodup
  · rw [count, linear.count, int_int_add, List.perm_middle.length_eq, List.length_cons,
      Int.natCast_succ]
  · have isLast : front.getLast? ≠ some p := fun same =>
      outside (List.mem_append_left _ (List.mem_of_getLast? same))
    have isFirst : back.head? ≠ some p := fun same =>
      outside (List.mem_append_right _ (List.mem_of_head? same))
    rw [next, prev, assign_other isLast, assign_other isFirst, Function.update_of_ne new,
      Function.update_of_ne new]
    exact ⟨rfl, rfl⟩

theorem push_inserted (linear : Linear l order) (value : α) :
    Inserted l (l.splPtrLlistPush value) order [] value := by
  have parts : Linear l (order ++ []) := by rwa [List.append_nil]
  refine parts.inserted ?_ ?_ ?_ ?_ rfl rfl rfl
  · rw [PtrLlist.splPtrLlistPush, linear.tail]
    rfl
  · rw [PtrLlist.splPtrLlistPush, linear.tail]
    rfl
  · simp only [PtrLlist.splPtrLlistPush, linear.tail, linear.head]
    cases order with
    | nil => rfl
    | cons first rest => simp
  · simp [PtrLlist.splPtrLlistPush]

theorem unshift_inserted (linear : Linear l order) (value : α) :
    Inserted l (l.splPtrLlistUnshift value) [] order value := by
  refine Linear.inserted linear ?_ ?_ rfl ?_ rfl rfl rfl
  · rw [PtrLlist.splPtrLlistUnshift, linear.head]
    rfl
  · rw [PtrLlist.splPtrLlistUnshift, linear.head]
    rfl
  · simp only [PtrLlist.splPtrLlistUnshift, linear.tail, linear.head]
    cases order with
    | nil => rfl
    | cons first rest => simp [List.getLast?_cons]

theorem insertBefore_inserted (linear : Linear l (front ++ element :: back)) (value : α) :
    Inserted l (l.insertBefore element value) front (element :: back) value := by
  have prev := linear.linked.prev_eq
  refine linear.inserted ?_ ?_ ?_ ?_ rfl rfl rfl
  · rw [PtrLlist.insertBefore, prev]
    rfl
  · rw [PtrLlist.insertBefore, prev]
    rfl
  · simp only [PtrLlist.insertBefore, prev, linear.head]
    cases front with
    | nil => rfl
    | cons first rest => simp [List.getLast?_cons]
  · simp [PtrLlist.insertBefore, linear.tail]

theorem Linear.absent (linear : Linear l (front ++ element :: back)) : element ∉ front ++ back :=
  (List.nodup_cons.mp (List.nodup_middle.mp linear.nodup)).1

theorem Linear.prev_ne (linear : Linear l (front ++ element :: back)) {p : Nat}
    (outside : p ∉ front ++ back) : l.prev element ≠ some p := by
  rw [linear.linked.prev_eq]
  exact fun same => outside (List.mem_append_left _ (List.mem_of_getLast? same))

theorem Linear.next_ne (linear : Linear l (front ++ element :: back)) {p : Nat}
    (outside : p ∉ front ++ back) : l.next element ≠ some p := by
  rw [linear.linked.next_eq]
  exact fun same => outside (List.mem_append_right _ (List.mem_of_head? same))

/-- `head` and `tail` change if the element is the first or the last one. -/
theorem unlink_eq (linear : Linear l (front ++ element :: back)) :
    l.unlink element =
      { l with
        head := (front ++ back).head?
        tail := (front ++ back).getLast?
        count := int (l.count - 1)
        next := assign l.next (l.prev element) (l.next element)
        prev := assign l.prev (l.next element) (l.prev element)
        data := update l.data element none } := by
  have absent := linear.absent
  rw [PtrLlist.unlink, assign_other (linear.prev_ne absent), assign_other (linear.next_ne absent),
    linear.head, linear.tail, linear.linked.prev_eq, linear.linked.next_eq]
  congr 1
  · cases front with
    | nil => simp
    | cons first rest =>
        have other : element ≠ first := by
          rintro rfl
          exact absent List.mem_cons_self
        simp [other]
  · rcases List.eq_nil_or_concat back with rfl | ⟨rest, last, rfl⟩
    · simp
    · have other : element ≠ last := by
        rintro rfl
        exact absent (by simp)
      simp [List.getLast?_cons, other]

theorem unlink_removed (linear : Linear l (front ++ element :: back)) :
    Removed l (l.unlink element) front element back := by
  rw [unlink_eq linear]
  refine ⟨⟨?_, fun p member => ?_, linear.linked.unlink linear.nodup, rfl, rfl, ?_⟩, rfl, rfl,
    fun p outside =>
      ⟨assign_other (linear.prev_ne outside), assign_other (linear.next_ne outside)⟩⟩
  · exact (List.nodup_cons.mp (List.nodup_middle.mp linear.nodup)).2
  · exact linear.allocated p (List.perm_middle.mem_iff.mpr (.tail _ member))
  · have length : ((front ++ element :: back).length : Int) + -1 = (front ++ back).length := by
      simp only [List.length_append, List.length_cons]
      omega
    simp only [linear.count]
    rw [Int.sub_eq_add_neg, int_int_add, length]

theorem pop_fst : l.pop.1 = l.splPtrLlistPop.1 := by
  rw [PtrLlist.pop]
  rcases l.splPtrLlistPop with ⟨l', _ | value⟩
  · rfl
  · rfl

theorem shift_fst : l.shift.1 = l.splPtrLlistShift.1 := by
  rw [PtrLlist.shift]
  rcases l.splPtrLlistShift with ⟨l', _ | value⟩
  · rfl
  · rfl

theorem splPtrLlistPop_eq (linear : Linear l (front ++ [element])) :
    l.splPtrLlistPop = (l.unlink element, l.data element) := by
  have isTail : l.tail = some element := by rw [linear.tail, List.getLast?_concat]
  have next : l.next element = none := linear.linked.next_eq
  rw [PtrLlist.splPtrLlistPop, isTail, unlink_eq linear, next, List.append_nil, linear.head]
  dsimp only
  rw [linear.linked.prev_eq]
  cases front with
  | nil => rfl
  | cons first rest => simp [List.getLast?_cons]

theorem splPtrLlistShift_eq (linear : Linear l (element :: back)) :
    l.splPtrLlistShift = (l.unlink element, l.data element) := by
  have isHead : l.head = some element := by rw [linear.head, List.head?_cons]
  have parts : Linear l ([] ++ element :: back) := linear
  have prev : l.prev element = none := parts.linked.prev_eq
  rw [PtrLlist.splPtrLlistShift, isHead, unlink_eq parts, prev, linear.tail]
  dsimp only
  rw [parts.linked.next_eq]
  cases back with
  | nil => rfl
  | cons second rest => simp [List.getLast?_cons]

/-! ## Offsets -/

/-- The values, in the order of their offsets. -/
def view {β : Type} (lifo : Bool) (list : List β) : List β := if lifo then list.reverse else list

theorem walk_eq {next prev : Nat → Option Nat} {before : Option Nat} {nodes : List Nat}
    (segment : Segment next prev before nodes none) (steps : Nat) :
    PtrLlist.walk next steps nodes.head? = nodes[steps]? := by
  induction steps generalizing before nodes with
  | zero => rw [PtrLlist.walk, List.head?_eq_getElem?]
  | succ steps induction =>
      cases nodes with
      | nil => rfl
      | cons node nodes =>
          obtain ⟨-, isNext, rest⟩ := segment
          rw [List.head?_cons, PtrLlist.walk, isNext, Option.or_none, induction rest,
            List.getElem?_cons_succ]

theorem splPtrLlistOffset_eq (linear : Linear l order) (lifo : Bool) (offset : Int) :
    l.splPtrLlistOffset offset lifo = (view lifo order)[offset.toNat]? := by
  cases lifo with
  | false =>
      rw [PtrLlist.splPtrLlistOffset, if_neg Bool.false_ne_true, linear.head]
      exact walk_eq linear.linked _
  | true =>
      rw [PtrLlist.splPtrLlistOffset, if_pos rfl, linear.tail, ← List.head?_reverse]
      exact walk_eq linear.linked.reverse _

/-- The place of an offset in a list: what comes before it in the order of the offsets has as many
elements as the offset says. -/
theorem exists_split {β : Type} {lifo : Bool} {list : List β} {index : Nat}
    (inside : index < list.length) :
    ∃ front x back, list = front ++ x :: back ∧ (if lifo then back else front).length = index := by
  have parts (k : Nat) (less : k < list.length) :
      list = list.take k ++ list[k] :: list.drop (k + 1) := by
    rw [List.getElem_cons_drop, List.take_append_drop]
  cases lifo with
  | false =>
      exact ⟨_, _, _, parts index inside, List.length_take_of_le (Nat.le_of_lt inside)⟩
  | true =>
      refine ⟨_, _, _, parts (list.length - 1 - index) (by omega), ?_⟩
      simp only [if_true, List.length_drop]
      omega

section Split

variable {β : Type} {lifo : Bool} {front back : List β} {x : β} {index : Nat}

theorem view_split (place : (if lifo then back else front).length = index) :
    (view lifo (front ++ x :: back))[index]? = some x := by
  cases lifo with
  | false => simp [view, ← place]
  | true => simp [view, ← place]

theorem set_split (place : (if lifo then back else front).length = index) (y : β) :
    view lifo ((view lifo (front ++ x :: back)).set index y) = front ++ y :: back := by
  cases lifo with
  | false => simp [view, ← place]
  | true => simp [view, ← place]

theorem erase_split (place : (if lifo then back else front).length = index) :
    view lifo ((view lifo (front ++ x :: back)).eraseIdx index) = front ++ back := by
  cases lifo with
  | false => simp [view, ← place, List.eraseIdx_append_of_length_le]
  | true => simp [view, ← place, List.eraseIdx_append_of_length_le]

theorem insert_split (place : front.length = index) (y : β) :
    (front ++ back).insertIdx index y = front ++ y :: back := by
  subst place
  induction front with
  | nil => rfl
  | cons first rest induction => exact congrArg (List.cons first) induction

end Split

/-! ## The list -/

/-- What the methods do with a list. -/
def Op.act (lifo : Bool) (list : List α) : Op α → List α × Answer α
  | .push value => (list ++ [value], .bool true)
  | .pop =>
      match list.getLast? with
      | none => (list, .exception "Can't pop from an empty datastructure")
      | some value => (list.dropLast, .value value)
  | .shift =>
      match list with
      | [] => (list, .exception "Can't shift from an empty datastructure")
      | value :: list => (list, .value value)
  | .unshift value => (value :: list, .bool true)
  | .offsetExists index => (list, .bool (decide (0 ≤ index ∧ index < list.length)))
  | .offsetGet index =>
      if 0 ≤ index ∧ index < list.length then
        (list, ((view lifo list)[index.toNat]?).elim .null .value)
      else
        (list, .exception "Offset invalid or out of range")
  | .offsetSet none value => (list ++ [value], .null)
  | .offsetSet (some index) value =>
      if 0 ≤ index ∧ index < list.length then
        (view lifo ((view lifo list).set index.toNat value), .null)
      else
        (list, .exception "Offset invalid or out of range")
  | .offsetUnset index =>
      if 0 ≤ index ∧ index < list.length then
        (view lifo ((view lifo list).eraseIdx index.toNat), .null)
      else
        (list, .exception "Offset out of range")
  | .add index value =>
      if 0 ≤ index ∧ index ≤ list.length then
        (view lifo ((view lifo list).insertIdx index.toNat value), .null)
      else
        (list, .exception "Offset invalid or out of range")

/-- The elements have the values of a list. -/
structure Represents (l : PtrLlist α) (order : List Nat) (list : List α) : Prop where
  linear : Linear l order
  values : order.map l.data = list.map some

variable {list : List α} {lifo : Bool}

theorem Represents.length_eq (represents : Represents l order list) :
    order.length = list.length := by
  have lengths := congrArg List.length represents.values
  rwa [List.length_map, List.length_map] at lengths

theorem Represents.count (represents : Represents l order list) (short : list.length < 2 ^ 31) :
    l.count = list.length := by
  rw [represents.linear.count, represents.length_eq, int_of_lt short]

/-- A place among the values is one among the elements. -/
theorem Represents.split {first last : List α} {x : α}
    (represents : Represents l order (first ++ x :: last)) :
    ∃ front element back, order = front ++ element :: back ∧ l.data element = some x
      ∧ front.map l.data = first.map some ∧ back.map l.data = last.map some := by
  have values := represents.values
  rw [List.map_append, List.map_cons, List.map_eq_append_iff] at values
  obtain ⟨front, rest, rfl, isFirst, isRest⟩ := values
  obtain ⟨element, back, rfl, isValue, isLast⟩ := List.map_eq_cons_iff.mp isRest
  exact ⟨front, element, back, rfl, isValue, isFirst, isLast⟩

/-- Writing the data of one element leaves those of others. -/
theorem map_update {data : Nat → Option α} {value : Option α} (absent : element ∉ order) :
    order.map (update data element value) = order.map data := by
  refine List.map_congr_left fun p member => Function.update_of_ne ?_ _ _
  rintro rfl
  exact absent member

theorem Represents.inserted {first last : List α} {value : α} {l' : PtrLlist α}
    (inserted : Inserted l l' front back value) (isFirst : front.map l.data = first.map some)
    (isLast : back.map l.data = last.map some) :
    Represents l' (front ++ l.brk :: back) (first ++ value :: last) where
  linear := inserted.linear
  values := by
    have absent := inserted.linear.absent
    rw [List.mem_append, not_or] at absent
    rw [List.map_append, List.map_cons, inserted.data, map_update absent.1, map_update absent.2,
      Function.update_self, isFirst, isLast, List.map_append, List.map_cons]

theorem Represents.removed {first last : List α} {l' : PtrLlist α}
    (removed : Removed l l' front element back) (absent : element ∉ front ++ back)
    (isFirst : front.map l.data = first.map some) (isLast : back.map l.data = last.map some) :
    Represents l' (front ++ back) (first ++ last) where
  linear := removed.linear
  values := by
    rw [List.mem_append, not_or] at absent
    rw [List.map_append, removed.data, map_update absent.1, map_update absent.2, isFirst, isLast,
      List.map_append]

/-- The checks find the element at an offset. -/
theorem elementAt_eq {index : Int} {message : String} (represents : Represents l order list)
    (short : list.length < 2 ^ 31) (inside : 0 ≤ index ∧ index < list.length) :
    ∃ first x last front element back, list = first ++ x :: last
      ∧ (if lifo then last else first).length = index.toNat
      ∧ order = front ++ element :: back ∧ l.data element = some x
      ∧ front.map l.data = first.map some ∧ back.map l.data = last.map some
      ∧ l.splPtrLlistOffset index lifo = some element
      ∧ l.elementAt lifo index message = .ok element := by
  have isCount := represents.count short
  obtain ⟨first, x, last, rfl, place⟩ :=
    @exists_split _ lifo list index.toNat (by omega)
  obtain ⟨front, element, back, rfl, isValue, isFirst, isLast⟩ := represents.split
  have frontLength := congrArg List.length isFirst
  have backLength := congrArg List.length isLast
  rw [List.length_map, List.length_map] at frontLength backLength
  have same : (if lifo then back else front).length = index.toNat := by
    cases lifo with
    | false => exact frontLength.trans place
    | true => exact backLength.trans place
  have found : l.splPtrLlistOffset index lifo = some element :=
    (splPtrLlistOffset_eq represents.linear lifo index).trans (view_split same)
  refine ⟨first, x, last, front, element, back, rfl, place, rfl, isValue, isFirst, isLast, found,
    ?_⟩
  rw [PtrLlist.elementAt, if_neg (by omega), found]

theorem elementAt_error {index : Int} {message : String} (represents : Represents l order list)
    (short : list.length < 2 ^ 31) (outside : ¬(0 ≤ index ∧ index < list.length)) :
    l.elementAt lifo index message = .error message := by
  rw [PtrLlist.elementAt, if_pos (by rw [represents.count short]; omega)]

/-- A call does to the list what it should, and answers so. -/
def Refines (lifo : Bool) (list : List α) (op : Op α) (result : PtrLlist α × Answer α) : Prop :=
  (∃ order, Represents result.1 order (op.act lifo list).1) ∧ result.2 = (op.act lifo list).2

section Methods

variable (represents : Represents l order list) (short : list.length < 2 ^ 31)
include represents

theorem push_refines (value : α) :
    ∃ order', Represents (l.splPtrLlistPush value) order' (list ++ [value]) :=
  ⟨_, .inserted (push_inserted represents.linear value) represents.values rfl⟩

theorem pop_refines : Refines lifo list .pop l.pop := by
  rcases List.eq_nil_or_concat list with rfl | ⟨first, x, rfl⟩
  · have isNil : order = [] := List.map_eq_nil_iff.mp represents.values
    have none : l.splPtrLlistPop = (l, none) := by
      rw [PtrLlist.splPtrLlistPop, represents.linear.tail, isNil, List.getLast?_nil]
    rw [PtrLlist.pop, none]
    exact ⟨⟨order, represents⟩, rfl⟩
  · rw [List.concat_eq_append] at represents ⊢
    obtain ⟨front, element, back, rfl, isValue, isFirst, isLast⟩ := represents.split
    obtain rfl : back = [] := List.map_eq_nil_iff.mp isLast
    have linear := represents.linear
    rw [PtrLlist.pop, splPtrLlistPop_eq linear, isValue]
    rw [Refines, Op.act, List.getLast?_concat, List.dropLast_concat]
    have rest := Represents.removed (unlink_removed linear) linear.absent isFirst isLast
    rw [List.append_nil, List.append_nil] at rest
    exact ⟨⟨_, rest⟩, rfl⟩

theorem shift_refines : Refines lifo list .shift l.shift := by
  cases list with
  | nil =>
      have isNil : order = [] := List.map_eq_nil_iff.mp represents.values
      have none : l.splPtrLlistShift = (l, none) := by
        rw [PtrLlist.splPtrLlistShift, represents.linear.head, isNil, List.head?_nil]
      rw [PtrLlist.shift, none]
      exact ⟨⟨order, represents⟩, rfl⟩
  | cons x last =>
      obtain ⟨front, element, back, rfl, isValue, isFirst, isLast⟩ :=
        @Represents.split _ _ _ [] last x represents
      obtain rfl : front = [] := List.map_eq_nil_iff.mp isFirst
      have linear := represents.linear
      rw [PtrLlist.shift, splPtrLlistShift_eq linear, isValue]
      exact ⟨⟨_, .removed (unlink_removed linear) linear.absent isFirst isLast⟩, rfl⟩

include short in
theorem offsetGet_refines (index : Int) :
    Refines lifo list (.offsetGet index) (l.offsetGet lifo index) := by
  rw [Refines, Op.act, PtrLlist.offsetGet]
  by_cases inside : 0 ≤ index ∧ index < list.length
  · obtain ⟨first, x, last, front, element, back, rfl, place, -, isValue, -, -, -, found⟩ :=
      @elementAt_eq _ _ _ _ lifo index "Offset invalid or out of range" represents short inside
    rw [if_pos inside, found, view_split place]
    dsimp only
    rw [isValue]
    exact ⟨⟨order, represents⟩, rfl⟩
  · rw [if_neg inside, elementAt_error represents short inside]
    exact ⟨⟨order, represents⟩, rfl⟩

include short in
theorem offsetSet_refines (index : Option Int) (value : α) :
    Refines lifo list (.offsetSet index value) (l.offsetSet lifo index value) := by
  cases index with
  | none => exact ⟨push_refines represents value, rfl⟩
  | some index =>
      rw [Refines, Op.act, PtrLlist.offsetSet]
      by_cases inside : 0 ≤ index ∧ index < list.length
      · obtain ⟨first, x, last, front, element, back, rfl, place, rfl, -, isFirst, isLast, -,
            found⟩ :=
          @elementAt_eq _ _ _ _ lifo index "Offset invalid or out of range" represents short inside
        have linear := represents.linear
        have absent := linear.absent
        rw [List.mem_append, not_or] at absent
        rw [if_pos inside, set_split place]
        dsimp only
        rw [found]
        dsimp only
        refine ⟨⟨front ++ element :: back, linear.frame _, ?_⟩, rfl⟩
        dsimp only
        rw [List.map_append, List.map_cons, map_update absent.1, map_update absent.2,
          Function.update_self, isFirst, isLast, List.map_append, List.map_cons]
      · rw [if_neg inside]
        dsimp only
        rw [elementAt_error represents short inside]
        exact ⟨⟨order, represents⟩, rfl⟩

include short in
theorem offsetUnset_refines (index : Int) :
    Refines lifo list (.offsetUnset index) (l.offsetUnset lifo index) := by
  rw [Refines, Op.act, PtrLlist.offsetUnset]
  by_cases inside : 0 ≤ index ∧ index < list.length
  · obtain ⟨first, x, last, front, element, back, rfl, place, rfl, -, isFirst, isLast, -,
        found⟩ := @elementAt_eq _ _ _ _ lifo index "Offset out of range" represents short inside
    have linear := represents.linear
    rw [if_pos inside, found, erase_split place]
    exact ⟨⟨_, .removed (unlink_removed linear) linear.absent isFirst isLast⟩, rfl⟩
  · rw [if_neg inside, elementAt_error represents short inside]
    exact ⟨⟨order, represents⟩, rfl⟩

include short in
/-- In the order from the head an element goes before the one that has had its offset. -/
theorem add_refines (index : Int) (value : α) :
    Refines false list (.add index value) (l.add false index value) := by
  rw [Refines, Op.act, PtrLlist.add, represents.count short]
  by_cases inside : 0 ≤ index ∧ index ≤ list.length
  · rw [if_pos inside, if_neg (by omega)]
    by_cases atEnd : index = list.length
    · have appended := @insert_split _ list [] index.toNat (by omega) value
      rw [List.append_nil] at appended
      rw [if_pos atEnd]
      dsimp only [view]
      rw [if_neg Bool.false_ne_true, if_neg Bool.false_ne_true, appended]
      exact ⟨push_refines represents value, rfl⟩
    · obtain ⟨first, x, last, front, element, back, rfl, place, rfl, isValue, isFirst, isLast,
          found, -⟩ := @elementAt_eq _ _ _ _ false index "" represents short (by omega)
      rw [if_neg atEnd, found]
      have inserted := insertBefore_inserted represents.linear value
      have values : (element :: back).map l.data = (x :: last).map some := by
        rw [List.map_cons, List.map_cons, isValue, isLast]
      dsimp only [view]
      rw [if_neg Bool.false_ne_true] at place ⊢
      rw [if_neg Bool.false_ne_true, insert_split place]
      exact ⟨⟨_, .inserted inserted isFirst values⟩, rfl⟩
  · rw [if_neg inside, if_pos (by omega)]
    exact ⟨⟨order, represents⟩, rfl⟩

include short in
theorem call_refines (op : Op α) (fifo : lifo = true → ∀ index value, op ≠ .add index value) :
    Refines lifo list op (l.call lifo op) := by
  cases op with
  | push value => exact ⟨push_refines represents value, rfl⟩
  | pop => exact pop_refines represents
  | shift => exact shift_refines represents
  | unshift value =>
      have inserted := unshift_inserted represents.linear value
      exact ⟨⟨_, @Represents.inserted _ _ _ _ [] _ _ _ inserted rfl represents.values⟩, rfl⟩
  | offsetExists index =>
      refine ⟨⟨order, represents⟩, ?_⟩
      rw [PtrLlist.call, PtrLlist.offsetExists, represents.count short]
      rfl
  | offsetGet index => exact offsetGet_refines represents short index
  | offsetSet index value => exact offsetSet_refines represents short index value
  | offsetUnset index => exact offsetUnset_refines represents short index
  | add index value =>
      cases lifo with
      | false => exact add_refines represents short index value
      | true => exact absurd rfl (fifo rfl index value)

end Methods

/-! ## Runs -/

/-- The answers of a sequence of calls, with what is there in the end. -/
def run {σ : Type} (call : σ → Op α → σ × Answer α) (state : σ) :
    List (Op α) → σ × List (Answer α)
  | [] => (state, [])
  | op :: ops =>
      let (state, answer) := call state op
      let (state, answers) := run call state ops
      (state, answer :: answers)

/-- No list of a sequence of calls has `2 ^ 31` elements. -/
def Short (lifo : Bool) (list : List α) : List (Op α) → Prop
  | [] => list.length < 2 ^ 31
  | op :: ops => list.length < 2 ^ 31 ∧ Short lifo (op.act lifo list).1 ops

theorem run_refines {lifo : Bool} {ops : List (Op α)} {l : PtrLlist α} {list : List α}
    (fifo : lifo = true → ∀ index value, .add index value ∉ ops) (short : Short lifo list ops)
    (start : ∃ order, Represents l order list) :
    (∃ order, Represents (run (PtrLlist.call lifo) l ops).1 order (run (Op.act lifo) list ops).1)
    ∧ (run (PtrLlist.call lifo) l ops).1.count = (run (Op.act lifo) list ops).1.length
    ∧ (run (PtrLlist.call lifo) l ops).2 = (run (Op.act lifo) list ops).2 := by
  induction ops generalizing l list with
  | nil =>
      obtain ⟨order, represents⟩ := start
      exact ⟨⟨order, represents⟩, represents.count short, rfl⟩
  | cons op ops induction =>
      obtain ⟨order, represents⟩ := start
      obtain ⟨next, answer⟩ := call_refines represents short.1 op fun isLifo index value same =>
        fifo isLifo index value (same ▸ List.mem_cons_self)
      obtain ⟨final, count, answers⟩ := induction
        (fun isLifo index value member => fifo isLifo index value (.tail _ member)) short.2 next
      exact ⟨final, count, congrArg₂ List.cons answer answers⟩

/-- The links, `head`, `tail` and `count` represent one list, on which the methods act, as long as
the list has fewer than `2 ^ 31` elements; for `add` the order has to be that from the head. -/
theorem dllist_is_list (lifo : Bool) (ops : List (Op α))
    (fifo : lifo = true → ∀ index value, .add index value ∉ ops) (short : Short lifo [] ops) :
    (∃ order, Represents (run (PtrLlist.call lifo) {} ops).1 order (run (Op.act lifo) [] ops).1)
    ∧ (run (PtrLlist.call lifo) {} ops).1.count = (run (Op.act lifo) [] ops).1.length
    ∧ (run (PtrLlist.call lifo) {} ops).2 = (run (Op.act lifo) [] ops).2 :=
  run_refines fifo short ⟨[], linear_init, rfl⟩

theorem dllist_is_list_stack :
    (true = true →
      ∀ index value, Op.add index value ∉ [.push 1, .push 2, .offsetUnset 0, .offsetGet 0])
    ∧ (run (PtrLlist.call true) {} [.push 1, .push 2, .offsetUnset 0, .offsetGet 0]).2
      = [.bool true, .bool true, .null, .value 1] :=
  ⟨by simp, (dllist_is_list true [.push 1, .push 2, .offsetUnset 0, .offsetGet 0] (by simp)
    ⟨by decide, by decide, by decide, by decide, by rw [Short]; decide⟩).2.2⟩

/-- From the tail, the new element comes after the one that has had its offset; at the last offset
it becomes the first one. -/
theorem add_lifo :
    (run (PtrLlist.call true) {} [.push 1, .push 2, .add 1 3, .offsetGet 1]).2
      = [.bool true, .bool true, .null, .value 1]
    ∧ (run (Op.act true) [] [.push 1, .push 2, .add 1 3, .offsetGet 1]).2
      = [.bool true, .bool true, .null, .value 3]
    ∧ (run (PtrLlist.call true) {} [.push 1, .add 1 3, .offsetGet 1]).2
      = [.bool true, .null, .value 1] := by
  decide

end PhpRuntime.Spl.Dllist
