import PhpRuntime.Foundation.Linked

/-! Separate chaining: a family of doubly linked lists, one for each index, that
together hold every member exactly once, each in the chain of its own slot. -/

namespace PhpRuntime.Chains

open Function (update)
open PhpRuntime.Linked

/-- `nodes` is the chain that starts at `head` and holds the members of slot `index`. -/
structure IsChain (next prev : ν → Option ν) (head : Option ν) (slot : ν → Nat)
    (member : ν → Prop) (index : Nat) (nodes : List ν) : Prop where
  nodup : nodes.Nodup
  linked : Segment next prev none nodes none
  head_eq : head = nodes.head?
  mem_iff : ∀ node, node ∈ nodes ↔ member node ∧ slot node = index

def Chained (next prev : ν → Option ν) (heads : Nat → Option ν) (slot : ν → Nat)
    (member : ν → Prop) : Prop :=
  ∀ index, ∃ nodes, IsChain next prev (heads index) slot member index nodes

/-- The head slots after a node with the given neighbours has left slot `index`. -/
def headsWithout (heads : Nat → Option ν) (prev : Option ν) (index : Nat)
    (next : Option ν) : Nat → Option ν :=
  match prev with
  | some _ => heads
  | none => update heads index next

theorem headsWithout_other {heads : Nat → Option ν} {prev next : Option ν}
    {index other : Nat} (different : other ≠ index) :
    headsWithout heads prev index next other = heads other := by
  cases prev with
  | some _ => rfl
  | none => exact Function.update_of_ne different _ _

variable {next prev : ν → Option ν} {heads : Nat → Option ν} {slot : ν → Nat}
  {member : ν → Prop}

theorem chained_empty (empty : ∀ index, heads index = none) (none_in : ∀ node, ¬ member node) :
    Chained next prev heads slot member := by
  intro index
  exact ⟨[], List.nodup_nil, trivial, empty index, by simp [none_in]⟩

theorem IsChain.congr {next' prev' : ν → Option ν} {head head' : Option ν}
    {slot' : ν → Nat} {member' : ν → Prop} {index : Nat} {nodes : List ν}
    (chain : IsChain next prev head slot member index nodes)
    (nextEqual : ∀ node ∈ nodes, next' node = next node)
    (prevEqual : ∀ node ∈ nodes, prev' node = prev node)
    (headEqual : head' = head)
    (same : ∀ node, (member' node ∧ slot' node = index) ↔ (member node ∧ slot node = index)) :
    IsChain next' prev' head' slot' member' index nodes where
  nodup := chain.nodup
  linked := chain.linked.congr nextEqual prevEqual
  head_eq := headEqual.trans chain.head_eq
  mem_iff node := (chain.mem_iff node).trans (same node).symm

theorem Chained.congr {next' prev' : ν → Option ν} {slot' : ν → Nat} {member' : ν → Prop}
    (chained : Chained next prev heads slot member)
    (nextEqual : ∀ node, member node → next' node = next node)
    (prevEqual : ∀ node, member node → prev' node = prev node)
    (slotEqual : ∀ node, member node → slot' node = slot node)
    (same : ∀ node, member' node ↔ member node) :
    Chained next' prev' heads slot' member' := by
  intro index
  rcases chained index with ⟨nodes, chain⟩
  have isMember : ∀ node ∈ nodes, member node := fun node inside =>
    ((chain.mem_iff node).mp inside).1
  refine ⟨nodes, chain.congr (fun node inside => nextEqual node (isMember node inside))
    (fun node inside => prevEqual node (isMember node inside)) rfl ?_⟩
  intro node
  rw [same]
  constructor
  · rintro ⟨inside, equal⟩
    exact ⟨inside, (slotEqual node inside) ▸ equal⟩
  · rintro ⟨inside, equal⟩
    exact ⟨inside, (slotEqual node inside).trans equal⟩

/-- Unlinking a member from its chain. -/
theorem Chained.remove [DecidableEq ν] (chained : Chained next prev heads slot member)
    {node : ν} (inside : member node) :
    Chained (assign next (prev node) (next node)) (assign prev (next node) (prev node))
      (headsWithout heads (prev node) (slot node) (next node)) slot
      (fun other => member other ∧ other ≠ node) := by
  rcases chained (slot node) with ⟨own, ownChain⟩
  have inOwn : node ∈ own := (ownChain.mem_iff node).mpr ⟨inside, rfl⟩
  intro index
  by_cases isOwn : index = slot node
  · subst isOwn
    rcases List.append_of_mem inOwn with ⟨front, back, rfl⟩
    have nodup := ownChain.nodup
    have absent : node ∉ front ++ back :=
      (List.nodup_cons.mp (List.nodup_middle.mp nodup)).1
    refine ⟨front ++ back, ?_, ownChain.linked.unlink nodup, ?_, ?_⟩
    · exact nodup.sublist (List.Sublist.append_left (List.sublist_cons_self _ _) _)
    · rw [ownChain.linked.prev_eq, ownChain.linked.next_eq]
      cases front with
      | nil => simp [headsWithout]
      | cons first rest =>
          have startsFirst := ownChain.head_eq
          have hasLast : ∃ last, (first :: rest).getLast? = some last :=
            ⟨_, List.getLast?_eq_some_getLast (List.cons_ne_nil _ _)⟩
          rcases hasLast with ⟨last, equal⟩
          rw [equal]
          simpa [headsWithout] using startsFirst
    · intro other
      have members := ownChain.mem_iff other
      constructor
      · intro inRest
        have different : other ≠ node := fun equal => absent (equal ▸ inRest)
        have inAll : other ∈ front ++ node :: back := by
          rcases List.mem_append.mp inRest with inFront | inBack
          · exact List.mem_append_left _ inFront
          · exact List.mem_append_right _ (List.mem_cons_of_mem _ inBack)
        exact ⟨⟨(members.mp inAll).1, different⟩, (members.mp inAll).2⟩
      · rintro ⟨⟨isMember, different⟩, inSlot⟩
        have inAll := members.mpr ⟨isMember, inSlot⟩
        simpa [different] using inAll
  · rcases chained index with ⟨nodes, chain⟩
    have apart : ∀ other ∈ nodes, other ∉ own := by
      intro other inNodes inOther
      have slotIndex := ((chain.mem_iff other).mp inNodes).2
      have slotOwn := ((ownChain.mem_iff other).mp inOther).2
      exact isOwn (slotIndex.symm.trans slotOwn)
    refine ⟨nodes, chain.congr ?_ ?_ (headsWithout_other isOwn) ?_⟩
    · intro other inNodes
      apply assign_other
      intro equal
      exact apart other inNodes (ownChain.linked.prev_mem inOwn equal)
    · intro other inNodes
      apply assign_other
      intro equal
      exact apart other inNodes (ownChain.linked.next_mem inOwn equal)
    · intro other
      constructor
      · rintro ⟨⟨isMember, _⟩, inSlot⟩
        exact ⟨isMember, inSlot⟩
      · rintro ⟨isMember, inSlot⟩
        refine ⟨⟨isMember, ?_⟩, inSlot⟩
        rintro rfl
        exact isOwn inSlot.symm

/-- Linking a new node in front of the chain of its slot. -/
theorem Chained.push [DecidableEq ν] (chained : Chained next prev heads slot member)
    {node : ν} (absent : ¬ member node) {slot' : ν → Nat} {index : Nat}
    (ownSlot : slot' node = index)
    (sameSlot : ∀ other, member other → slot' other = slot other) :
    Chained (update next node (heads index))
      (assign (update prev node none) (heads index) (some node))
      (update heads index (some node)) slot' (fun other => member other ∨ other = node) := by
  have kept : ∀ other : ν, member other → other ≠ node := by
    rintro other isMember rfl
    exact absent isMember
  rcases chained index with ⟨own, ownChain⟩
  have ownKept : ∀ other ∈ own, other ≠ node := fun other inOwn =>
    kept other ((ownChain.mem_iff other).mp inOwn).1
  have notOwn : node ∉ own := fun inOwn => ownKept node inOwn rfl
  intro position
  by_cases isOwn : position = index
  · subst isOwn
    have nodup : (node :: own).Nodup := List.nodup_cons.mpr ⟨notOwn, ownChain.nodup⟩
    have linked := Segment.insert node (segment_nil next prev none none) ownChain.linked
      (by simpa using nodup)
    refine ⟨node :: own, nodup, ?_, by simp, ?_⟩
    · rw [ownChain.head_eq]
      simpa using linked
    · intro other
      rw [List.mem_cons, ownChain.mem_iff]
      constructor
      · rintro (rfl | ⟨isMember, inSlot⟩)
        · exact ⟨Or.inr rfl, ownSlot⟩
        · exact ⟨Or.inl isMember, (sameSlot other isMember).trans inSlot⟩
      · rintro ⟨isMember | isNode, inSlot⟩
        · exact Or.inr ⟨isMember, (sameSlot other isMember).symm.trans inSlot⟩
        · exact Or.inl isNode
  · rcases chained position with ⟨nodes, chain⟩
    have different : ∀ other ∈ nodes, other ≠ node := fun other inNodes =>
      kept other ((chain.mem_iff other).mp inNodes).1
    refine ⟨nodes, chain.congr ?_ ?_ (Function.update_of_ne isOwn _ _) ?_⟩
    · intro other inNodes
      exact Function.update_of_ne (different other inNodes) _ _
    · intro other inNodes
      rw [assign_other, Function.update_of_ne (different other inNodes)]
      intro equal
      have inOwn : other ∈ own := List.mem_of_head? (ownChain.head_eq ▸ equal)
      have slotOwn := ((ownChain.mem_iff other).mp inOwn).2
      exact isOwn (((chain.mem_iff other).mp inNodes).2.symm.trans slotOwn)
    · intro other
      constructor
      · rintro ⟨isMember | rfl, inSlot⟩
        · exact ⟨isMember, (sameSlot other isMember).symm.trans inSlot⟩
        · exact absurd (inSlot.symm.trans ownSlot) isOwn
      · rintro ⟨isMember, inSlot⟩
        exact ⟨Or.inl isMember, (sameSlot other isMember).trans inSlot⟩

end PhpRuntime.Chains
