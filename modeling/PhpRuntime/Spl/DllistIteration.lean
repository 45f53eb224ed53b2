import PhpRuntime.Spl.Dllist

/-! # Iteration over doubly linked lists

The iterators of `ext/spl/spl_dllist.c`: an object has one of its own, and each `foreach` loop makes
another one. An element that is removed keeps its links while an iterator is on it.
-/

namespace PhpRuntime.Spl.Dllist

open Function (update)
open Integers Linked

/-- `traverse_pointer` and `traverse_position` -/
structure Cursor where
  pointer : Option Nat := none
  position : Int := 0

variable {α : Type}

namespace PtrLlist

def splDllistItHelperRewind (l : PtrLlist α) (lifo : Bool) : Cursor :=
  if lifo then ⟨l.tail, int (l.count - 1)⟩ else ⟨l.head, 0⟩

/-- `delete` is the flag `SPL_DLLIST_IT_DELETE`. -/
def splDllistItHelperMoveForward (l : PtrLlist α) (cursor : Cursor) (lifo delete : Bool) :
    PtrLlist α × Cursor :=
  match cursor.pointer with
  | none => (l, cursor)
  | some old =>
      if lifo then
        (if delete then l.splPtrLlistPop.1 else l, ⟨l.prev old, int (cursor.position - 1)⟩)
      else if delete then
        (l.splPtrLlistShift.1, ⟨l.next old, cursor.position⟩)
      else
        (l, ⟨l.next old, int (cursor.position + 1)⟩)

/-- The element that a method takes out of the list. -/
def removes (l : PtrLlist α) (lifo : Bool) : Op α → Option Nat
  | .pop => l.tail
  | .shift => l.head
  | .offsetUnset index => (l.elementAt lifo index "Offset out of range").toOption
  | _ => none

end PtrLlist

/-- A list with iterators, of which the first one is that of the object. `stray` says that an
element has been removed to which another removed element still points while an iterator is
on it. -/
structure Iteration (α : Type) where
  list : PtrLlist α := {}
  cursors : List Cursor := [{}]
  stray : Bool := false

inductive Event (α : Type) where
  | call (op : Op α)
  | getIterator
  | dtor (id : Nat)
  | rewind (id : Nat)
  | move (id : Nat) (backward : Bool)

/-- A step of an iterator. -/
def Event.Moves (event : Event α) (id : Nat) : Prop :=
  event = .rewind id ∨ ∃ backward, event = .move id backward

namespace Iteration

def pointedAt (s : Iteration α) (element : Nat) : Bool :=
  s.cursors.any fun cursor => cursor.pointer.any fun p =>
    (s.list.data p).isNone && (s.list.next p == some element || s.list.prev p == some element)

/-- `offsetUnset` takes the iterator of the object off the element. -/
def unsetOwn (s : Iteration α) (op : Op α) (element : Option Nat) : Iteration α :=
  match op, s.cursors with
  | .offsetUnset _, own :: cursors =>
      if element.isSome ∧ own.pointer = element then
        { s with cursors := { own with pointer := none } :: cursors }
      else s
  | _, _ => s

/-- A method is called, or an iterator is made, destroyed or moved. A list that is not in delete
mode keeps its elements. -/
def step (lifo : Bool) (s : Iteration α) : Event α → Iteration α
  | .call op =>
      let element := s.list.removes lifo op
      { s with
        list := (s.list.call lifo op).1
        stray := s.stray || element.any s.pointedAt }.unsetOwn op element
  | .getIterator =>
      match s.cursors with
      | [] => s
      | own :: _ =>
          { s with cursors := s.cursors ++ [own] }
  | .dtor id => { s with cursors := s.cursors.set id {} }
  | .rewind id => { s with cursors := s.cursors.set id (s.list.splDllistItHelperRewind lifo) }
  | .move id backward =>
      match s.cursors[id]? with
      | none => s
      | some cursor =>
          let (list, cursor) := s.list.splDllistItHelperMoveForward cursor backward false
          { s with list, cursors := s.cursors.set id cursor }

def run (lifo : Bool) (s : Iteration α) (events : List (Event α)) : Iteration α :=
  events.foldl (step lifo) s

end Iteration

/-! ## Where iterators are -/

/-- An element is in the list; or it has been removed, and its links lead into the list. -/
def Anchored (l : PtrLlist α) (order : List Nat) (p : Nat) : Prop :=
  p ∈ order
  ∨ p < l.brk ∧ l.data p = none ∧ ∀ q, l.next p = some q ∨ l.prev p = some q → q ∈ order

/-- The elements in the list have values, and iterators are on elements that are anchored. -/
structure Sound (l : PtrLlist α) (cursors : List Cursor) (order : List Nat) : Prop where
  linear : Linear l order
  filled : ∀ p ∈ order, l.data p ≠ none
  cursors : ∀ cursor ∈ cursors, ∀ p, cursor.pointer = some p → Anchored l order p

variable {l : PtrLlist α} {cursors : List Cursor} {order front back : List Nat} {lifo : Bool}

theorem Sound.setCursors (sound : Sound l cursors order) {others : List Cursor}
    (anchored : ∀ cursor ∈ others, cursor ∈ cursors
      ∨ ∀ p, cursor.pointer = some p → Anchored l order p) :
    Sound l others order := by
  refine ⟨sound.linear, sound.filled, fun cursor member p isPointer => ?_⟩
  rcases anchored cursor member with old | new
  · exact sound.cursors cursor old p isPointer
  · exact new p isPointer

/-- Whoever is at an anchored element moves into the list. -/
theorem Sound.neighbour (sound : Sound l cursors order) {p q : Nat} (anchored : Anchored l order p)
    (link : l.next p = some q ∨ l.prev p = some q) : q ∈ order := by
  rcases anchored with member | ⟨-, -, links⟩
  · rcases link with next | prev
    · exact sound.linear.linked.next_mem member next
    · exact sound.linear.linked.prev_mem member prev
  · exact links q link

theorem Sound.inserted (sound : Sound l cursors (front ++ back)) {l' : PtrLlist α} {value : α}
    (inserted : Inserted l l' front back value) : Sound l' cursors (front ++ l.brk :: back) := by
  have grows {p : Nat} (member : p ∈ front ++ back) : p ∈ front ++ l.brk :: back :=
    List.perm_middle.mem_iff.mpr (.tail _ member)
  refine ⟨inserted.linear, fun p member => ?_, fun cursor member p isPointer => ?_⟩
  · rw [inserted.data]
    rcases List.mem_cons.mp (List.perm_middle.mem_iff.mp member) with rfl | old
    · rw [Function.update_self]
      exact Option.some_ne_none value
    · rw [Function.update_of_ne (Nat.ne_of_lt (sound.linear.allocated p old))]
      exact sound.filled p old
  · by_cases inside : p ∈ front ++ back
    · exact .inl (grows inside)
    · rcases sound.cursors cursor member p isPointer with absurd_ | ⟨less, gone, links⟩
      · exact absurd absurd_ inside
      · have frame := inserted.frame p (Nat.ne_of_lt less) inside
        refine .inr ⟨?_, ?_, fun q link => grows (links q ?_)⟩
        · rw [inserted.brk]
          exact Nat.lt_succ_of_lt less
        · rw [inserted.data, Function.update_of_ne (Nat.ne_of_lt less), gone]
        · rwa [frame.1, frame.2] at link

/-- Nothing that has been removed points at the element that is removed now. -/
theorem Sound.removed {element : Nat} (sound : Sound l cursors (front ++ element :: back))
    {l' : PtrLlist α} (removed : Removed l l' front element back)
    (apart : ∀ cursor ∈ cursors, ∀ p, cursor.pointer = some p → l.data p = none →
      l.next p ≠ some element ∧ l.prev p ≠ some element) :
    Sound l' cursors (front ++ back) := by
  have absent := sound.linear.absent
  have rest {p : Nat} (member : p ∈ front ++ element :: back) (other : p ≠ element) :
      p ∈ front ++ back :=
    (List.mem_cons.mp (List.perm_middle.mem_iff.mp member)).resolve_left other
  refine ⟨removed.linear, fun p member => ?_, fun cursor member p isPointer => ?_⟩
  · rw [removed.data, Function.update_of_ne]
    · exact sound.filled p (List.perm_middle.mem_iff.mpr (.tail _ member))
    · rintro rfl
      exact absent member
  · by_cases inside : p ∈ front ++ back
    · exact .inl inside
    · have frame := removed.frame p inside
      have anchored := sound.cursors cursor member p isPointer
      have gone : l'.data p = none ∧ l.next p ≠ some element ∧ l.prev p ≠ some element := by
        rw [removed.data]
        by_cases same : p = element
        · rw [same, Function.update_self]
          exact ⟨rfl, sound.linear.next_ne absent, sound.linear.prev_ne absent⟩
        · rw [Function.update_of_ne same]
          rcases anchored with old | ⟨-, gone, -⟩
          · exact absurd (rest old same) inside
          · exact ⟨gone, apart cursor member p isPointer gone⟩
      refine .inr ⟨?_, gone.1, fun q link => ?_⟩
      · rw [removed.brk]
        exact anchored.elim (sound.linear.allocated p) fun detached => detached.1
      · rw [frame.1, frame.2] at link
        refine rest (sound.neighbour anchored link) ?_
        rintro rfl
        exact link.elim gone.2.1 gone.2.2

theorem Sound.rewritten (sound : Sound l cursors order) {element : Nat} (member : element ∈ order)
    (value : α) : Sound { l with data := update l.data element (some value) } cursors order := by
  refine ⟨sound.linear.frame _, fun p inside => ?_, fun cursor among p isPointer => ?_⟩
  · by_cases same : p = element
    · simp [same]
    · simpa [Function.update_of_ne same] using sound.filled p inside
  · by_cases inside : p ∈ order
    · exact .inl inside
    · rcases sound.cursors cursor among p isPointer with old | ⟨less, gone, links⟩
      · exact absurd old inside
      · refine .inr ⟨less, ?_, links⟩
        have other : p ≠ element := by
          rintro rfl
          exact inside member
        simpa [Function.update_of_ne other] using gone

/-! ## Runs -/

theorem splPtrLlistOffset_mem (linear : Linear l order) {index : Int} {element : Nat}
    (found : l.splPtrLlistOffset index lifo = some element) : element ∈ order := by
  rw [splPtrLlistOffset_eq linear] at found
  have member := List.mem_of_getElem? found
  cases lifo with
  | false => exact member
  | true => exact List.mem_reverse.mp member

theorem elementAt_mem (linear : Linear l order) {index : Int} {message : String} {element : Nat}
    (found : l.elementAt lifo index message = .ok element) : element ∈ order := by
  rw [PtrLlist.elementAt] at found
  split at found
  · contradiction
  · split at found
    · contradiction
    · rename_i isElement
      cases found
      exact splPtrLlistOffset_mem linear isElement

/-- No iterator is on a removed element that points at `element`. -/
def Apart (l : PtrLlist α) (cursors : List Cursor) (element : Nat) : Prop :=
  ∀ cursor ∈ cursors, ∀ p, cursor.pointer = some p → l.data p = none →
    l.next p ≠ some element ∧ l.prev p ≠ some element

theorem Sound.unlinked (sound : Sound l cursors order) {element : Nat} (member : element ∈ order)
    (apart : Apart l cursors element) : ∃ order', Sound (l.unlink element) cursors order' := by
  obtain ⟨front, back, rfl⟩ := List.append_of_mem member
  exact ⟨_, sound.removed (unlink_removed sound.linear) apart⟩

theorem Sound.pop (sound : Sound l cursors order)
    (apart : ∀ element, l.tail = some element → Apart l cursors element) :
    ∃ order', Sound l.pop.1 cursors order' := by
  have linear := sound.linear
  rw [pop_fst]
  rcases List.eq_nil_or_concat order with rfl | ⟨front, element, rfl⟩
  · rw [PtrLlist.splPtrLlistPop, linear.tail, List.getLast?_nil]
    exact ⟨[], sound⟩
  · rw [List.concat_eq_append] at linear sound
    rw [splPtrLlistPop_eq linear]
    refine sound.unlinked (List.mem_append_right _ List.mem_cons_self) (apart element ?_)
    rw [linear.tail, List.getLast?_concat]

theorem Sound.shift (sound : Sound l cursors order)
    (apart : ∀ element, l.head = some element → Apart l cursors element) :
    ∃ order', Sound l.shift.1 cursors order' := by
  have linear := sound.linear
  rw [shift_fst]
  cases order with
  | nil =>
      rw [PtrLlist.splPtrLlistShift, linear.head, List.head?_nil]
      exact ⟨[], sound⟩
  | cons element back =>
      rw [splPtrLlistShift_eq linear]
      refine sound.unlinked List.mem_cons_self (apart element ?_)
      rw [linear.head, List.head?_cons]

theorem Sound.push (sound : Sound l cursors order) (value : α) :
    ∃ order', Sound (l.splPtrLlistPush value) cursors order' := by
  have inserted := push_inserted sound.linear value
  rw [← List.append_nil order] at sound
  exact ⟨_, sound.inserted inserted⟩

/-- The calls keep iterators anchored, unless one removes an element that a removed one points
at. -/
theorem Sound.call (sound : Sound l cursors order) (op : Op α)
    (apart : ∀ element, l.removes lifo op = some element → Apart l cursors element) :
    ∃ order', Sound (l.call lifo op).1 cursors order' := by
  have linear := sound.linear
  cases op with
  | push value => exact sound.push value
  | pop => exact sound.pop apart
  | shift => exact sound.shift apart
  | unshift value =>
      have inserted := unshift_inserted linear value
      exact ⟨_, @Sound.inserted _ _ _ [] _ sound _ _ inserted⟩
  | offsetExists index => exact ⟨order, sound⟩
  | offsetGet index =>
      rw [PtrLlist.call, PtrLlist.offsetGet]
      split
      · exact ⟨order, sound⟩
      · exact ⟨order, sound⟩
  | offsetSet index value =>
      cases index with
      | none => exact sound.push value
      | some index =>
          rw [PtrLlist.call, PtrLlist.offsetSet]
          split
          · exact ⟨order, sound⟩
          · rename_i found
            exact ⟨order, sound.rewritten (elementAt_mem linear found) value⟩
  | offsetUnset index =>
      rw [PtrLlist.call, PtrLlist.offsetUnset]
      split
      · exact ⟨order, sound⟩
      · rename_i element found
        refine sound.unlinked (elementAt_mem linear found) (apart element ?_)
        rw [PtrLlist.removes, found]
        rfl
  | add index value =>
      rw [PtrLlist.call, PtrLlist.add]
      split_ifs
      · exact ⟨order, sound⟩
      · exact sound.push value
      · split
        · exact ⟨order, sound⟩
        · rename_i found
          obtain ⟨front, back, rfl⟩ := List.append_of_mem (splPtrLlistOffset_mem linear found)
          exact ⟨_, sound.inserted (insertBefore_inserted linear value)⟩

/-- The state of a run in which no iterator has been led astray. -/
def Iteration.Sound (s : Iteration α) : Prop :=
  s.stray = false → ∃ order, Dllist.Sound s.list s.cursors order

theorem apart_of_pointedAt {s : Iteration α} {element : Nat} (none : s.pointedAt element = false) :
    Apart s.list s.cursors element := by
  intro cursor member p isPointer gone
  have here := List.any_eq_false.mp none cursor member
  simpa [isPointer, gone] using here

theorem Iteration.Sound.unsetOwn {s : Iteration α} (sound : s.Sound) (op : Op α)
    (element : Option Nat) : (s.unsetOwn op element).Sound := by
  unfold Iteration.unsetOwn
  split
  · rename_i own cursors isCursors
    split
    · intro calm
      obtain ⟨order, held⟩ := sound calm
      refine ⟨order, held.setCursors fun cursor member => ?_⟩
      rcases List.mem_cons.mp member with rfl | old
      · exact .inr nofun
      · exact .inl (isCursors ▸ .tail _ old)
    · exact sound
  · exact sound

/-- An iterator moves to an element of the list. -/
theorem Sound.moveForward (sound : Sound l cursors order) {cursor : Cursor}
    (member : cursor ∈ cursors) (backward : Bool) :
    Sound (l.splDllistItHelperMoveForward cursor backward false).1 cursors order
    ∧ ∀ p, (l.splDllistItHelperMoveForward cursor backward false).2.pointer = some p →
      p ∈ order := by
  rw [PtrLlist.splDllistItHelperMoveForward]
  cases isPointer : cursor.pointer with
  | none =>
      refine ⟨sound, fun p moved => ?_⟩
      rw [isPointer] at moved
      exact absurd moved nofun
  | some old =>
      have anchored := sound.cursors cursor member old isPointer
      cases backward with
      | false => exact ⟨sound, fun p moved => sound.neighbour anchored (.inl moved)⟩
      | true => exact ⟨sound, fun p moved => sound.neighbour anchored (.inr moved)⟩

theorem Sound.rewind (sound : Sound l cursors order) {p : Nat}
    (moved : (l.splDllistItHelperRewind lifo).pointer = some p) : p ∈ order := by
  cases lifo with
  | false => exact List.mem_of_head? (sound.linear.head ▸ moved)
  | true => exact List.mem_of_getLast? (sound.linear.tail ▸ moved)

/-- After an iterator has been put on an element of the list. -/
theorem Sound.set (sound : Sound l cursors order) {cursor : Cursor} (id : Nat)
    (inside : ∀ p, cursor.pointer = some p → p ∈ order) :
    Sound l (cursors.set id cursor) order := by
  refine sound.setCursors fun other member => ?_
  rcases List.mem_or_eq_of_mem_set member with old | rfl
  · exact .inl old
  · exact .inr fun p isPointer => .inl (inside p isPointer)

/-- Where an iterator is. -/
def Iteration.pointer (s : Iteration α) (id : Nat) : Option Nat :=
  s.cursors[id]?.bind Cursor.pointer

/-- What `rewind` and `move` have in common: they put an iterator on an element of the list. -/
theorem Event.Moves.step_eq {event : Event α} {id : Nat} (moves : event.Moves id)
    (s : Iteration α) :
    (s.cursors[id]? = none ∧ s.step lifo event = s)
    ∨ ∃ list cursor, id < s.cursors.length
      ∧ s.step lifo event = { s with list, cursors := s.cursors.set id cursor }
      ∧ ∀ order, Sound s.list s.cursors order →
        Sound list s.cursors order ∧ ∀ p, cursor.pointer = some p → p ∈ order := by
  cases here : s.cursors[id]? with
  | none =>
      refine .inl ⟨rfl, ?_⟩
      rcases moves with rfl | ⟨backward, rfl⟩
      · rw [Iteration.step, List.set_eq_of_length_le (List.getElem?_eq_none_iff.mp here)]
      · rw [Iteration.step, here]
  | some cursor =>
      have inside := (List.getElem?_eq_some_iff.mp here).1
      rcases moves with rfl | ⟨backward, rfl⟩
      · exact .inr ⟨_, _, inside, rfl, fun order sound => ⟨sound, fun p => sound.rewind⟩⟩
      · rw [Iteration.step, here]
        exact .inr ⟨_, _, inside, rfl, fun order sound =>
          sound.moveForward (List.mem_of_getElem? here) backward⟩

theorem Iteration.Sound.moves {s : Iteration α} (sound : s.Sound) (calm : s.stray = false)
    {id : Nat} {event : Event α} (moves : event.Moves id) :
    ∃ order, Dllist.Sound (s.step lifo event).list (s.step lifo event).cursors order
      ∧ ∀ p, (s.step lifo event).pointer id = some p → p ∈ order := by
  obtain ⟨order, held⟩ := sound calm
  refine ⟨order, ?_⟩
  rcases moves.step_eq s with ⟨none, same⟩ | ⟨list, cursor, inside, same, moved⟩
  · rw [same, Iteration.pointer, none]
    exact ⟨held, nofun⟩
  · obtain ⟨held', onList⟩ := moved order held
    rw [same, Iteration.pointer, List.getElem?_set_self inside]
    exact ⟨held'.set id onList, onList⟩

theorem step_stray {s : Iteration α} {id : Nat} {event : Event α} (moves : event.Moves id) :
    (s.step lifo event).stray = s.stray := by
  rcases moves.step_eq s with ⟨-, same⟩ | ⟨list, cursor, -, same, -⟩
  · rw [same]
  · rw [same]

theorem Iteration.Sound.step_moves {s : Iteration α} (sound : s.Sound) {id : Nat}
    {event : Event α} (moves : event.Moves id) : (s.step lifo event).Sound := by
  intro calm
  rw [step_stray moves] at calm
  obtain ⟨order, held, -⟩ := sound.moves calm moves
  exact ⟨order, held⟩

theorem Iteration.Sound.step {s : Iteration α} (sound : s.Sound) (event : Event α) :
    (s.step lifo event).Sound := by
  cases event with
  | call op =>
      refine unsetOwn (fun calm => ?_) op _
      obtain ⟨before, none⟩ := Bool.or_eq_false_iff.mp calm
      obtain ⟨order, held⟩ := sound before
      refine held.call op fun element removed => apart_of_pointedAt ?_
      simpa [removed] using none
  | getIterator =>
      rw [Iteration.step]
      split
      · exact sound
      · rename_i own cursors isCursors
        intro calm
        obtain ⟨order, held⟩ := sound calm
        refine ⟨order, held.setCursors fun cursor member => .inl ?_⟩
        rcases List.mem_append.mp member with old | new
        · exact old
        · rw [List.mem_singleton.mp new, isCursors]
          exact List.mem_cons_self
  | dtor id =>
      intro calm
      obtain ⟨order, held⟩ := sound calm
      exact ⟨order, held.set id nofun⟩
  | rewind id => exact sound.step_moves (.inl rfl)
  | move id backward => exact sound.step_moves (.inr ⟨backward, rfl⟩)

theorem Iteration.Sound.run {s : Iteration α} (sound : s.Sound) (events : List (Event α)) :
    (s.run lifo events).Sound := by
  induction events generalizing s with
  | nil => exact sound
  | cons event events induction => exact induction (sound.step event)

/-- Whatever happens between the steps of an iterator, it moves to elements of the list, if no
element is removed at which an element points that has been removed under an iterator. -/
theorem iterator_in_list (lifo : Bool) (events : List (Event α)) (id : Nat) (event : Event α)
    (moves : event.Moves id) (calm : (({} : Iteration α).run lifo events).stray = false) :
    let s := (({} : Iteration α).run lifo events).step lifo event
    ∃ order, Linear s.list order ∧ ∀ p, s.pointer id = some p → p ∈ order := by
  have start : ({} : Iteration α).Sound := by
    refine fun _ => ⟨[], linear_init, nofun, fun cursor member p isPointer => ?_⟩
    rw [List.mem_singleton.mp member] at isPointer
    exact absurd isPointer nofun
  obtain ⟨order, held, inside⟩ := (start.run events).moves calm moves
  exact ⟨order, held.linear, inside⟩

/-- The first element is removed while a `foreach` loop is at it. -/
theorem iterator_in_list_removed :
    let s := ({} : Iteration Nat).run false
      [.call (.push 1), .call (.push 2), .getIterator, .rewind 1, .call .shift]
    s.stray = false ∧ (s.step false (.move 1 false)).pointer 1 = some 1
    ∧ ∃ order, Linear (s.step false (.move 1 false)).list order
      ∧ ∀ p, (s.step false (.move 1 false)).pointer 1 = some p → p ∈ order :=
  ⟨by decide, by decide, iterator_in_list false _ 1 _ (.inr ⟨false, rfl⟩) (by decide)⟩

/-- The next one is removed after it: the loop goes on there, and not at the third one. -/
theorem iterator_astray :
    let s := (({} : Iteration Nat).run false [.call (.push 1), .call (.push 2), .call (.push 3),
      .getIterator, .rewind 1, .call .shift, .call .shift]).step false (.move 1 false)
    s.pointer 1 = some 1 ∧ s.list.data 1 = none ∧ follow s.list.next 3 s.list.head = some [2] := by
  decide

end PhpRuntime.Spl.Dllist
