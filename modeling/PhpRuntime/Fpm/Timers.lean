import PhpRuntime.Fpm.Master

/-! # The timer queue -/

namespace PhpRuntime.Fpm

open Function Linked

/-- The elements of the queue, in this order; no event has two of them. -/
structure Queue (queue : EventQueue) (elts : List Nat) : Prop where
  segment : Segment queue.next queue.prev none elts none
  head : queue.head = elts.head?
  nodup : elts.Nodup
  fresh : ∀ elt ∈ elts, elt < queue.allocated
  distinct : (elts.map queue.ev).Nodup

variable {queue : EventQueue} {elts : List Nat} {ev : TimerEvent}

theorem queue_empty : Queue emptyQueue [] where
  segment := trivial
  head := rfl
  nodup := List.nodup_nil
  fresh := by simp
  distinct := List.nodup_nil

theorem Queue.isset_eq (isQueue : Queue queue elts) (ev : TimerEvent) :
    queue.isset ev = .ok (decide (ev ∈ elts.map queue.ev)) := by
  have enough : elts.length ≤ queue.allocated := length_le_of_lt isQueue.nodup isQueue.fresh
  rw [EventQueue.isset, isQueue.head, search_eq_find? isQueue.segment _ enough]
  simp only [Except.ok.injEq, List.mem_map]
  rw [Bool.eq_iff_iff, decide_eq_true_eq, List.find?_isSome]
  simp

theorem Queue.push (isQueue : Queue queue elts) (absent : ev ∉ elts.map queue.ev) :
    Queue (queue.push ev) (queue.allocated :: elts) ∧
      (queue.allocated :: elts).map (queue.push ev).ev = ev :: elts.map queue.ev := by
  have isNew : queue.allocated ∉ elts := fun member =>
    Nat.lt_irrefl _ (isQueue.fresh _ member)
  have nodup : (queue.allocated :: elts).Nodup := List.nodup_cons.mpr ⟨isNew, isQueue.nodup⟩
  have events : (queue.allocated :: elts).map (queue.push ev).ev = ev :: elts.map queue.ev := by
    rw [List.map_cons]
    congr 1
    · exact update_self _ _ _
    · exact List.map_congr_left fun elt member =>
        update_of_ne (Nat.ne_of_lt (isQueue.fresh elt member)) _ _
  refine ⟨?_, events⟩
  constructor
  · have inserted := Segment.insert queue.allocated (segment_nil queue.next queue.prev none none)
      isQueue.segment nodup
    rw [← isQueue.head] at inserted
    exact inserted
  · rfl
  · exact nodup
  · intro elt member
    rcases List.mem_cons.mp member with equal | member
    · rw [equal]
      exact Nat.lt_succ_self _
    · exact Nat.lt_succ_of_lt (isQueue.fresh elt member)
  · rw [events]
    exact List.nodup_cons.mpr ⟨absent, isQueue.distinct⟩

/-- `fpm_event_queue_add` keeps what is queued; the event itself is queued unless there is no
memory for it. -/
theorem Queue.add (isQueue : Queue queue elts) (ev : TimerEvent) (memory : Bool) :
    ∃ queue' elts', queue.add ev memory = .ok queue' ∧ Queue queue' elts' ∧
      elts'.map queue'.ev =
        (if ev ∈ elts.map queue.ev ∨ memory = false then [] else [ev]) ++ elts.map queue.ev ∧
      (∀ elt ∈ elts, queue'.ev elt = queue.ev elt) ∧
      ∃ front, elts' = front ++ elts := by
  simp only [EventQueue.add, isQueue.isset_eq, bind, Except.bind]
  by_cases present : ev ∈ elts.map queue.ev
  · exact ⟨queue, elts, by simp [present]; rfl, isQueue, by simp [present], fun _ _ => rfl, [], rfl⟩
  · cases memory with
    | false =>
        exact ⟨queue, elts, by simp [present]; rfl, isQueue, by simp, fun _ _ => rfl, [], rfl⟩
    | true =>
        have pushed := isQueue.push present
        refine ⟨queue.push ev, queue.allocated :: elts, by simp [present]; rfl, pushed.1, ?_, ?_,
          [queue.allocated], rfl⟩
        · rw [pushed.2]
          simp [present]
        · exact fun elt member => update_of_ne (Nat.ne_of_lt (isQueue.fresh elt member)) _ _

theorem Queue.remove {front back : List Nat} {elt : Nat}
    (isQueue : Queue queue (front ++ elt :: back)) :
    Queue (queue.remove elt) (front ++ back) := by
  have nodup := isQueue.nodup
  have sublist : (front ++ back).Sublist (front ++ elt :: back) :=
    List.Sublist.append_left (List.sublist_cons_self _ _) _
  have unlinked := isQueue.segment.unlink nodup
  have isPrev := isQueue.segment.prev_eq
  have isNext := isQueue.segment.next_eq
  have atHead : queue.head = some elt ↔ front = [] := by
    rw [isQueue.head]
    cases front with
    | nil => simp
    | cons first front =>
        have different : first ≠ elt := by
          rintro rfl
          simp at nodup
        simp [different]
  constructor
  · change Segment _ (if _ then _ else _) _ _ _
    split
    · next first =>
      -- the element behind the first one gets no predecessor twice
      have nothing := atHead.mp first
      subst nothing
      have same : assign (assign queue.prev (queue.next elt) (queue.prev elt)) (queue.next elt) none =
          assign queue.prev (queue.next elt) (queue.prev elt) := by
        rw [isPrev]
        cases queue.next elt with
        | none => rfl
        | some following => exact update_idem _ _ _
      rw [same]
      exact unlinked
    · exact unlinked
  · change (if _ then _ else _) = _
    rw [isQueue.head, isNext]
    cases front with
    | nil => simp
    | cons first front =>
        have different : first ≠ elt := by
          rintro rfl
          simp at nodup
        simp [different]
  · exact nodup.sublist sublist
  · exact fun other member => isQueue.fresh other (sublist.subset member)
  · exact isQueue.distinct.sublist (sublist.map _)

end PhpRuntime.Fpm
