import Mathlib.Data.List.Nodup
import Mathlib.Data.List.Perm.Subperm

/-! Doubly linked lists in a heap whose link fields are maps from nodes.

`Segment next prev before nodes after` says that the nodes, in this order, are linked
to each other, that the first one points back to `before` and the last one on to
`after`. A list operation changes a few links at the border of one or two segments, so
the rules below cut a segment, replace a border and join the parts again. -/

namespace PhpRuntime.Linked

open Function (update)

/-- The guarded write `if (target) target->field = value`. -/
def assign [DecidableEq ν] (field : ν → β) (target : Option ν) (value : β) : ν → β :=
  match target with
  | none => field
  | some node => update field node value

@[simp] theorem assign_none [DecidableEq ν] (field : ν → β) (value : β) :
    assign field none value = field := rfl

@[simp] theorem assign_some [DecidableEq ν] (field : ν → β) (node : ν) (value : β) :
    assign field (some node) value = update field node value := rfl

theorem assign_other [DecidableEq ν] {field : ν → β} {target : Option ν} {value : β}
    {node : ν} (different : target ≠ some node) :
    assign field target value node = field node := by
  cases target with
  | none => rfl
  | some other =>
      apply Function.update_of_ne
      intro equal
      exact different (equal ▸ rfl)

/-! ### Segments -/

def Segment (next prev : ν → Option ν) : Option ν → List ν → Option ν → Prop
  | _, [], _ => True
  | before, node :: nodes, after =>
      prev node = before ∧ next node = nodes.head?.or after ∧
        Segment next prev (some node) nodes after

@[simp] theorem segment_nil (next prev : ν → Option ν) (before after : Option ν) :
    Segment next prev before [] after := trivial

theorem segment_cons {next prev : ν → Option ν} {before after : Option ν} {node : ν}
    {nodes : List ν} :
    Segment next prev before (node :: nodes) after ↔
      prev node = before ∧ next node = nodes.head?.or after ∧
        Segment next prev (some node) nodes after := Iff.rfl

theorem head?_append_or (front back : List ν) (after : Option ν) :
    (front ++ back).head?.or after = front.head?.or (back.head?.or after) := by
  cases front <;> simp

theorem segment_append {next prev : ν → Option ν} {before after : Option ν}
    {front back : List ν} :
    Segment next prev before (front ++ back) after ↔
      Segment next prev before front (back.head?.or after) ∧
        Segment next prev (front.getLast?.or before) back after := by
  induction front generalizing before with
  | nil => simp
  | cons node nodes induction =>
      have last : (node :: nodes).getLast?.or before =
          nodes.getLast?.or (some node) := by
        cases nodes with
        | nil => rfl
        | cons second rest => simp [List.getLast?_cons]
      rw [List.cons_append, segment_cons, segment_cons, induction, head?_append_or, last]
      simp only [and_assoc]

theorem Segment.congr {next prev next' prev' : ν → Option ν} {before after : Option ν}
    {nodes : List ν} (segment : Segment next prev before nodes after)
    (nextEqual : ∀ node ∈ nodes, next' node = next node)
    (prevEqual : ∀ node ∈ nodes, prev' node = prev node) :
    Segment next' prev' before nodes after := by
  induction nodes generalizing before with
  | nil => trivial
  | cons node nodes induction =>
      rcases segment with ⟨isPrev, isNext, rest⟩
      have inner := induction rest
        (fun other member => nextEqual other (List.mem_cons_of_mem _ member))
        (fun other member => prevEqual other (List.mem_cons_of_mem _ member))
      exact ⟨(prevEqual node List.mem_cons_self).trans isPrev,
        (nextEqual node List.mem_cons_self).trans isNext, inner⟩

/-! ### Borders

Only the last node's forward link depends on what follows a segment, and only the first
node's backward link on what precedes it. -/

theorem Segment.replaceAfter [DecidableEq ν] {next prev : ν → Option ν}
    {before after : Option ν} {nodes : List ν} (replacement : Option ν)
    (segment : Segment next prev before nodes after) (nodup : nodes.Nodup) :
    Segment (assign next nodes.getLast? replacement) prev before nodes replacement := by
  induction nodes generalizing before with
  | nil => trivial
  | cons node nodes induction =>
      rcases segment with ⟨isPrev, isNext, rest⟩
      have parts := List.nodup_cons.mp nodup
      cases nodes with
      | nil => exact ⟨isPrev, by simp, trivial⟩
      | cons second others =>
          have last : (node :: second :: others).getLast? =
              (second :: others).getLast? := by simp [List.getLast?_cons]
          have inner := induction rest parts.2
          rw [last]
          have different : (second :: others).getLast? ≠ some node := by
            intro equal
            exact parts.1 (List.mem_of_getLast? equal)
          exact ⟨isPrev, by rw [assign_other different, isNext]; rfl, inner⟩

theorem Segment.replaceBefore [DecidableEq ν] {next prev : ν → Option ν}
    {before after : Option ν} {nodes : List ν} (replacement : Option ν)
    (segment : Segment next prev before nodes after) (nodup : nodes.Nodup) :
    Segment next (assign prev nodes.head? replacement) replacement nodes after := by
  cases nodes with
  | nil => trivial
  | cons node nodes =>
      rcases segment with ⟨_, isNext, rest⟩
      have parts := List.nodup_cons.mp nodup
      refine ⟨by simp, isNext, rest.congr (fun _ _ => rfl) ?_⟩
      intro other member
      apply assign_other
      intro equal
      have same : node = other := by simpa using equal
      exact parts.1 (same ▸ member)

theorem Segment.assignNextOther [DecidableEq ν] {next prev : ν → Option ν}
    {before after target value : Option ν} {nodes : List ν}
    (segment : Segment next prev before nodes after)
    (outside : ∀ node ∈ nodes, target ≠ some node) :
    Segment (assign next target value) prev before nodes after :=
  segment.congr (fun node member => assign_other (outside node member)) fun _ _ => rfl

theorem Segment.assignPrevOther [DecidableEq ν] {next prev : ν → Option ν}
    {before after target value : Option ν} {nodes : List ν}
    (segment : Segment next prev before nodes after)
    (outside : ∀ node ∈ nodes, target ≠ some node) :
    Segment next (assign prev target value) before nodes after :=
  segment.congr (fun _ _ => rfl) fun node member => assign_other (outside node member)

/-- Two segments become one when the last node of the first and the first node of the
second are pointed at each other. -/
theorem Segment.join [DecidableEq ν] {next prev : ν → Option ν}
    {before after middle middle' : Option ν} {front back : List ν}
    (first : Segment next prev before front middle)
    (second : Segment next prev middle' back after)
    (nodup : (front ++ back).Nodup) :
    Segment (assign next front.getLast? (back.head?.or after))
      (assign prev back.head? (front.getLast?.or before)) before (front ++ back) after := by
  rcases List.nodup_append.mp nodup with ⟨frontNodup, backNodup, disjoint⟩
  apply segment_append.mpr
  constructor
  · apply (first.replaceAfter _ frontNodup).assignPrevOther
    intro node member equal
    exact disjoint node member node (List.mem_of_head? equal) rfl
  · apply (second.replaceBefore _ backNodup).assignNextOther
    intro node member equal
    exact disjoint node (List.mem_of_getLast? equal) node member rfl

/-- A list read backwards is a list with the two links exchanged. -/
theorem Segment.reverse {next prev : ν → Option ν} {before after : Option ν}
    {nodes : List ν} (segment : Segment next prev before nodes after) :
    Segment prev next after nodes.reverse before := by
  induction nodes generalizing before with
  | nil => trivial
  | cons node nodes induction =>
      rcases segment with ⟨isPrev, isNext, rest⟩
      rw [List.reverse_cons]
      apply segment_append.mpr
      constructor
      · simpa using induction rest
      · refine ⟨?_, by simpa using isPrev, trivial⟩
        simpa [List.getLast?_reverse] using isNext

/-! ### Nodes of a complete list -/

section Complete

variable {next prev : ν → Option ν} {front back nodes : List ν} {node : ν}

theorem Segment.next_eq (segment : Segment next prev none (front ++ node :: back) none) :
    next node = back.head? := by
  have tail := (segment_append.mp segment).2
  simpa using tail.2.1

theorem Segment.prev_eq (segment : Segment next prev none (front ++ node :: back) none) :
    prev node = front.getLast? := by
  have tail := (segment_append.mp segment).2
  simpa using tail.1

theorem Segment.next_mem (segment : Segment next prev none nodes none)
    (member : node ∈ nodes) {following : ν} (equal : next node = some following) :
    following ∈ nodes := by
  rcases List.append_of_mem member with ⟨front, back, rfl⟩
  rw [segment.next_eq] at equal
  have inBack := List.mem_of_head? equal
  simp [inBack]

theorem Segment.prev_mem (segment : Segment next prev none nodes none)
    (member : node ∈ nodes) {preceding : ν} (equal : prev node = some preceding) :
    preceding ∈ nodes := by
  rcases List.append_of_mem member with ⟨front, back, rfl⟩
  rw [segment.prev_eq] at equal
  have inFront := List.mem_of_getLast? equal
  simp [inFront]

/-- Taking a node out of a list: its neighbours are pointed at each other. -/
theorem Segment.unlink [DecidableEq ν]
    (segment : Segment next prev none (front ++ node :: back) none)
    (nodup : (front ++ node :: back).Nodup) :
    Segment (assign next (prev node) (next node)) (assign prev (next node) (prev node))
      none (front ++ back) none := by
  have parts := segment_append.mp segment
  have sublist : (front ++ back).Sublist (front ++ node :: back) :=
    List.Sublist.append_left (List.sublist_cons_self _ _) _
  have joined := parts.1.join parts.2.2.2 (nodup.sublist sublist)
  simpa [segment.next_eq, segment.prev_eq] using joined

/-- Putting a node between two segments, whatever stood between them before. -/
theorem Segment.insert [DecidableEq ν] {after before : Option ν} (node : ν)
    (first : Segment next prev none front after)
    (second : Segment next prev before back none)
    (nodup : (front ++ node :: back).Nodup) :
    Segment (assign (update next node back.head?) front.getLast? (some node))
      (assign (update prev node front.getLast?) back.head? (some node))
      none (front ++ node :: back) none := by
  rcases List.nodup_append.mp nodup with ⟨frontNodup, restNodup, disjoint⟩
  rcases List.nodup_cons.mp restNodup with ⟨notInBack, backNodup⟩
  have notInFront : node ∉ front := fun member =>
    disjoint node member node List.mem_cons_self rfl
  have keepNext {list : List ν} (absent : node ∉ list) :
      ∀ other ∈ list, update next node back.head? other = next other := by
    intro other member
    apply Function.update_of_ne
    rintro rfl
    exact absent member
  have keepPrev {list : List ν} (absent : node ∉ list) :
      ∀ other ∈ list, update prev node front.getLast? other = prev other := by
    intro other member
    apply Function.update_of_ne
    rintro rfl
    exact absent member
  have first' := (first.congr (keepNext notInFront) (keepPrev notInFront)).replaceAfter
    (some node) frontNodup
  have second' := (second.congr (keepNext notInBack) (keepPrev notInBack)).replaceBefore
    (some node) backNodup
  apply segment_append.mpr
  constructor
  · apply first'.assignPrevOther
    intro other member equal
    exact disjoint other member other
      (List.mem_cons_of_mem _ (List.mem_of_head? equal)) rfl
  · refine ⟨?_, ?_, ?_⟩
    · rw [assign_other (fun equal => notInBack (List.mem_of_head? equal))]
      simp
    · rw [assign_other (fun equal => notInFront (List.mem_of_getLast? equal))]
      simp
    · apply second'.assignNextOther
      intro other member equal
      exact disjoint other (List.mem_of_getLast? equal) other
        (List.mem_cons_of_mem _ member) rfl

end Complete

/-! ### Loops over a list

`search` is `while (p) { if (matches(p)) break; p = p->next; }` and `forEach` the
`for` loop over a list; both give `none` when the fuel does not reach the end. -/

def search (next : ν → Option ν) (accept : ν → Bool) : Nat → Option ν → Option (Option ν)
  | _, none => some none
  | 0, some _ => none
  | fuel + 1, some node =>
      if accept node then some (some node) else search next accept fuel (next node)

def follow (next : ν → Option ν) : Nat → Option ν → Option (List ν)
  | _, none => some []
  | 0, some _ => none
  | fuel + 1, some node => (follow next fuel (next node)).map (node :: ·)

def forEach (next : σ → ν → Option ν) (body : σ → ν → σ) :
    Nat → Option ν → σ → Option σ
  | _, none, state => some state
  | 0, some _, _ => none
  | fuel + 1, some node, state =>
      let state' := body state node
      forEach next body fuel (next state' node) state'

theorem search_eq_find? {next prev : ν → Option ν} {before : Option ν} {nodes : List ν}
    (segment : Segment next prev before nodes none) (accept : ν → Bool) {fuel : Nat}
    (enough : nodes.length ≤ fuel) :
    search next accept fuel nodes.head? = some (nodes.find? accept) := by
  induction nodes generalizing before fuel with
  | nil => cases fuel <;> rfl
  | cons node nodes induction =>
      rcases segment with ⟨_, isNext, rest⟩
      cases fuel with
      | zero => simp at enough
      | succ fuel =>
          have isHead : next node = nodes.head? := by simpa using isNext
          have inner := induction rest (Nat.le_of_succ_le_succ enough)
          cases accepted : accept node <;>
            simp [search, accepted, isHead, inner]

theorem follow_eq {next prev : ν → Option ν} {before : Option ν} {nodes : List ν}
    (segment : Segment next prev before nodes none) {fuel : Nat}
    (enough : nodes.length ≤ fuel) :
    follow next fuel nodes.head? = some nodes := by
  induction nodes generalizing before fuel with
  | nil => cases fuel <;> rfl
  | cons node nodes induction =>
      rcases segment with ⟨_, isNext, rest⟩
      cases fuel with
      | zero => simp at enough
      | succ fuel =>
          have isHead : next node = nodes.head? := by simpa using isNext
          simp [follow, isHead, induction rest (Nat.le_of_succ_le_succ enough)]

theorem eq_of_follow {next prev : ν → Option ν} {before : Option ν} {nodes seen : List ν}
    (segment : Segment next prev before nodes none) {fuel : Nat}
    (walked : follow next fuel nodes.head? = some seen) : seen = nodes := by
  induction nodes generalizing before fuel seen with
  | nil =>
      cases fuel <;> simpa [follow] using walked.symm
  | cons node nodes induction =>
      rcases segment with ⟨_, isNext, rest⟩
      cases fuel with
      | zero => simp [follow] at walked
      | succ fuel =>
          have isHead : next node = nodes.head? := by simpa using isNext
          rw [List.head?_cons, follow, isHead] at walked
          rcases Option.map_eq_some_iff.mp walked with ⟨others, isOthers, rfl⟩
          rw [induction rest isOthers]

/-- A loop whose body leaves the links alone is a fold over the nodes. -/
theorem forEach_eq_foldl (next : σ → ν → Option ν) (body : σ → ν → σ) (state : σ)
    {prev : ν → Option ν} (stable : ∀ state node, next (body state node) = next state)
    {before : Option ν} {nodes : List ν}
    (segment : Segment (next state) prev before nodes none) {fuel : Nat}
    (enough : nodes.length ≤ fuel) :
    forEach next body fuel nodes.head? state = some (nodes.foldl body state) := by
  induction nodes generalizing before fuel state with
  | nil => cases fuel <;> rfl
  | cons node nodes induction =>
      rcases segment with ⟨_, isNext, rest⟩
      cases fuel with
      | zero => simp at enough
      | succ fuel =>
          have isHead : next (body state node) node = nodes.head? := by
            rw [stable]
            simpa using isNext
          have inner := induction (body state node) ((stable state node).symm ▸ rest)
            (Nat.le_of_succ_le_succ enough)
          simpa [forEach, isHead] using inner

/-- What the body of a loop keeps, the loop keeps. -/
theorem forEach_keeps (observe : σ → τ) {next : σ → ν → Option ν} {body : σ → ν → σ}
    (keeps : ∀ state node, observe (body state node) = observe state) {fuel : Nat}
    {head : Option ν} {state final : σ} (ends : forEach next body fuel head state = some final) :
    observe final = observe state := by
  induction fuel generalizing head state with
  | zero =>
      cases head with
      | none =>
          cases ends
          rfl
      | some node => cases ends
  | succ fuel induction =>
      cases head with
      | none =>
          cases ends
          rfl
      | some node => exact (induction ends).trans (keeps state node)

theorem length_le_of_lt {nodes : List Nat} {bound : Nat} (nodup : nodes.Nodup)
    (below : ∀ node ∈ nodes, node < bound) : nodes.length ≤ bound := by
  have inside : nodes ⊆ List.range bound := fun node member =>
    List.mem_range.mpr (below node member)
  simpa using (nodup.subperm inside).length_le

end PhpRuntime.Linked
