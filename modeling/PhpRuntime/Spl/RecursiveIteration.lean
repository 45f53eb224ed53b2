import Mathlib.Data.List.Basic

/-! # Recursive iteration

`RecursiveIteratorIterator` in `ext/spl/spl_iterators.c`, for a finite tree and methods that throw
no exceptions. Of the methods that a class can override, those that observe the iteration are
overridden.
-/

namespace PhpRuntime.Spl

/-- What a `RecursiveIterator` goes through. An element for which `hasChildren` is true may still
have none. -/
inductive Tree (α : Type) where
  | leaf (value : α)
  | branch (value : α) (children : List (Tree α))

def Tree.hasChildren {α : Type} : Tree α → Bool
  | .leaf _ => false
  | .branch _ _ => true

def Tree.getChildren {α : Type} : Tree α → List (Tree α)
  | .leaf _ => []
  | .branch _ children => children

/-- `RecursiveIteratorMode` -/
inductive RecursiveIteratorMode where
  | leavesOnly
  | selfFirst
  | childFirst
deriving DecidableEq

/-- The states `RS_NEXT`, `RS_TEST`, `RS_SELF`, `RS_CHILD` and `RS_START` -/
inductive RecursiveState where
  | next
  | test
  | self
  | child
  | start
deriving DecidableEq

/-- `spl_sub_iterator`: `elements` are those that `rewind` goes back to, and the first one of
`rest` is the current one. -/
structure SubIterator (α : Type) where
  elements : List (Tree α)
  rest : List (Tree α)
  state : RecursiveState

/-- `spl_recursive_it_object`: `top` is the iterator at `level`, and `below` are those at lower
levels. The `int` `level` is their number; a tree is taken to be less than `2 ^ 31` levels deep. -/
structure RecursiveIt (α : Type) where
  top : SubIterator α
  below : List (SubIterator α) := []
  inIteration : Bool := false

/-- The methods that are called, and the elements that a `foreach` loop sees. -/
inductive Event (α : Type) where
  | beginIteration
  | endIteration
  | beginChildren
  | endChildren
  | nextElement
  | visit (node : Tree α)

namespace RecursiveIt

variable {α : Type}

def level (object : RecursiveIt α) : Nat := object.below.length

/-- The node that the iterator at `level` is on. -/
def current (object : RecursiveIt α) : List (Tree α) := object.top.rest.take 1

def setState (object : RecursiveIt α) (state : RecursiveState) : RecursiveIt α :=
  { object with top := { object.top with state } }

end RecursiveIt

/-! ## Moving forward -/

/-- How the `switch` statement ends: the loop goes on, or the function returns. -/
inductive Pass (α : Type) where
  | goOn (events : List (Event α)) (object : RecursiveIt α)
  | returned (events : List (Event α)) (object : RecursiveIt α)

section MoveForward

variable {α : Type} (mode : RecursiveIteratorMode) (maxDepth : Int)

def noMoreElements (object : RecursiveIt α) : Pass α :=
  match object.below with
  | [] => .returned [] object
  | top :: below => .goOn [.endChildren] { object with top, below }

def caseTest (object : RecursiveIt α) : Pass α :=
  if object.current.any Tree.hasChildren then
    if maxDepth = -1 ∨ maxDepth > object.level then
      match mode with
      | .leavesOnly => .goOn [] (object.setState .child)
      | .childFirst => .goOn [] (object.setState .child)
      | .selfFirst => .goOn [] (object.setState .self)
    else if mode = .leavesOnly then
      .goOn [] (object.setState .next)
    else
      .returned [.nextElement] (object.setState .next)
  else
    .returned [.nextElement] (object.setState .next)

def caseStart (object : RecursiveIt α) : Pass α :=
  match object.top.rest with
  | [] => noMoreElements object
  | _ :: _ => caseTest mode maxDepth (object.setState .test)

def caseNext (object : RecursiveIt α) : Pass α :=
  caseStart mode maxDepth
    { object with top := { object.top with rest := object.top.rest.tail } }

def caseSelf (object : RecursiveIt α) : Pass α :=
  let called := if mode = .selfFirst ∨ mode = .childFirst then [Event.nextElement] else []
  if mode = .selfFirst then
    .returned called (object.setState .child)
  else
    .returned called (object.setState .next)

def caseChild (object : RecursiveIt α) : Pass α :=
  let child := object.current.flatMap Tree.getChildren
  let parent := object.setState (if mode = .childFirst then .self else .next)
  .goOn [.beginChildren]
    { object with
      top := { elements := child, rest := child, state := .start }
      below := parent.top :: parent.below }

/-- The `switch` statement, with what follows it. -/
def nextStep (object : RecursiveIt α) : Pass α :=
  match object.top.state with
  | .next => caseNext mode maxDepth object
  | .start => caseStart mode maxDepth object
  | .test => caseTest mode maxDepth object
  | .self => caseSelf mode object
  | .child => caseChild mode object

/-- The passes of the loop after the first one. -/
def moreSteps : Nat → Pass α → Option (List (Event α) × RecursiveIt α)
  | _, .returned events object => some (events, object)
  | 0, .goOn _ _ => none
  | fuel + 1, .goOn events object =>
      (moreSteps fuel (nextStep mode maxDepth object)).map fun (later, object) =>
        (events ++ later, object)

def splRecursiveItMoveForwardEx (fuel : Nat) (object : RecursiveIt α) :
    Option (List (Event α) × RecursiveIt α) :=
  moreSteps mode maxDepth fuel (nextStep mode maxDepth object)

/-- The iterator at some level is valid. -/
def anyValid (object : RecursiveIt α) : Bool :=
  (object.top :: object.below).any fun iterator => !iterator.rest.isEmpty

def splRecursiveItValidEx (object : RecursiveIt α) :
    Bool × List (Event α) × RecursiveIt α :=
  if anyValid object then
    (true, [], object)
  else
    (false, if object.inIteration then [.endIteration] else [],
      { object with inIteration := false })

/-- `iterators[0]` -/
def bottom (object : RecursiveIt α) : SubIterator α := object.below.getLastD object.top

def splRecursiveItRewindEx (fuel : Nat) (object : RecursiveIt α) :
    Option (List (Event α) × RecursiveIt α) :=
  let ended := List.replicate object.level Event.endChildren
  let iterator := { bottom object with rest := (bottom object).elements, state := .start }
  let begun := if object.inIteration then [] else [Event.beginIteration]
  (splRecursiveItMoveForwardEx mode maxDepth fuel { top := iterator, inIteration := true }).map
    fun (events, object) => (ended ++ begun ++ events, object)

/-- The rounds of a `foreach` loop. -/
def rounds (fuel : Nat) : Nat → RecursiveIt α → Option (List (Event α))
  | 0, _ => none
  | more + 1, object =>
      match splRecursiveItValidEx object with
      | (false, events, _) => some events
      | (true, events, object) => do
          let (moved, next) ← splRecursiveItMoveForwardEx mode maxDepth fuel object
          let later ← rounds fuel more next
          some (events ++ object.current.map .visit ++ moved ++ later)

/-- A `foreach` loop. -/
def foreach (fuel : Nat) (object : RecursiveIt α) : Option (List (Event α)) := do
  let (events, object) ← splRecursiveItRewindEx mode maxDepth fuel object
  let later ← rounds mode maxDepth fuel fuel object
  some (events ++ later)

end MoveForward

/-! ## The order of the nodes -/

section Order

variable {α : Type} (mode : RecursiveIteratorMode) (maxDepth : Int)

/-- Nodes at a level are within the maximal depth. -/
def Within (level : Nat) : Prop := maxDepth = -1 ∨ level ≤ maxDepth

instance (level : Nat) : Decidable (Within maxDepth level) :=
  inferInstanceAs (Decidable (maxDepth = -1 ∨ level ≤ maxDepth))

mutual

/-- What happens for a node: the calls around its children, and the visit. -/
def walkTree (level : Nat) : Tree α → List (Event α)
  | .leaf value => [.nextElement, .visit (.leaf value)]
  | .branch value children =>
      let self := [.nextElement, .visit (.branch value children)]
      if Within maxDepth (level + 1) then
        let inner := .beginChildren :: walkTrees (level + 1) children ++ [.endChildren]
        match mode with
        | .leavesOnly => inner
        | .selfFirst => self ++ inner
        | .childFirst => inner ++ self
      else if mode = .leavesOnly then [] else self

def walkTrees (level : Nat) : List (Tree α) → List (Event α)
  | [] => []
  | tree :: trees => walkTree level tree ++ walkTrees level trees

end

mutual

/-- The nodes down to the maximal depth, each before those below it. -/
def preOrder (level : Nat) : Tree α → List (Tree α)
  | .leaf value => if Within maxDepth level then [.leaf value] else []
  | .branch value children =>
      if Within maxDepth level then
        .branch value children :: preOrders (level + 1) children
      else
        []

def preOrders (level : Nat) : List (Tree α) → List (Tree α)
  | [] => []
  | tree :: trees => preOrder level tree ++ preOrders level trees

end

mutual

/-- The nodes down to the maximal depth, each after those below it. -/
def postOrder (level : Nat) : Tree α → List (Tree α)
  | .leaf value => if Within maxDepth level then [.leaf value] else []
  | .branch value children =>
      if Within maxDepth level then
        postOrders (level + 1) children ++ [.branch value children]
      else
        []

def postOrders (level : Nat) : List (Tree α) → List (Tree α)
  | [] => []
  | tree :: trees => postOrder level tree ++ postOrders level trees

end

/-- The nodes to visit, in their order. -/
def order (level : Nat) (trees : List (Tree α)) : List (Tree α) :=
  match mode with
  | .selfFirst => preOrders maxDepth level trees
  | .childFirst => postOrders maxDepth level trees
  | .leavesOnly => (preOrders maxDepth level trees).filter fun tree => !tree.hasChildren

def Event.visited : Event α → Option (Tree α)
  | .visit node => some node
  | _ => none

variable {mode maxDepth} {level : Nat}

theorem preOrders_beyond (beyond : ¬Within maxDepth level) (trees : List (Tree α)) :
    preOrders maxDepth level trees = [] := by
  induction trees with
  | nil => rw [preOrders]
  | cons tree trees induction =>
      cases tree with
      | leaf value => rw [preOrders, preOrder, if_neg beyond, induction, List.append_nil]
      | branch value children =>
          rw [preOrders, preOrder, if_neg beyond, induction, List.append_nil]

theorem postOrders_beyond (beyond : ¬Within maxDepth level) (trees : List (Tree α)) :
    postOrders maxDepth level trees = [] := by
  induction trees with
  | nil => rw [postOrders]
  | cons tree trees induction =>
      cases tree with
      | leaf value => rw [postOrders, postOrder, if_neg beyond, induction, List.append_nil]
      | branch value children =>
          rw [postOrders, postOrder, if_neg beyond, induction, List.append_nil]

theorem order_beyond (beyond : ¬Within maxDepth level) (trees : List (Tree α)) :
    order mode maxDepth level trees = [] := by
  cases mode with
  | leavesOnly => rw [order, preOrders_beyond beyond, List.filter_nil]
  | selfFirst => exact preOrders_beyond beyond trees
  | childFirst => exact postOrders_beyond beyond trees

theorem order_cons (tree : Tree α) (trees : List (Tree α)) :
    order mode maxDepth level (tree :: trees)
      = order mode maxDepth level [tree] ++ order mode maxDepth level trees := by
  cases mode with
  | leavesOnly => simp only [order, preOrders, List.append_nil, List.filter_append]
  | selfFirst => simp only [order, preOrders, List.append_nil]
  | childFirst => simp only [order, postOrders, List.append_nil]

theorem order_leaf (within : Within maxDepth level) (value : α) :
    order mode maxDepth level [.leaf value] = [.leaf value] := by
  cases mode with
  | leavesOnly => simp [order, preOrders, preOrder, within, Tree.hasChildren]
  | selfFirst => simp [order, preOrders, preOrder, within]
  | childFirst => simp [order, postOrders, postOrder, within]

theorem order_branch (within : Within maxDepth level) (value : α) (children : List (Tree α)) :
    order mode maxDepth level [.branch value children]
      = match mode with
        | .leavesOnly => order mode maxDepth (level + 1) children
        | .selfFirst => .branch value children :: order mode maxDepth (level + 1) children
        | .childFirst => order mode maxDepth (level + 1) children ++ [.branch value children] := by
  cases mode with
  | leavesOnly => simp [order, preOrders, preOrder, within, Tree.hasChildren]
  | selfFirst => simp [order, preOrders, preOrder, within]
  | childFirst => simp [order, postOrders, postOrder, within]

mutual

theorem visited_walkTree {level : Nat} (within : Within maxDepth level) (tree : Tree α) :
    (walkTree mode maxDepth level tree).filterMap Event.visited
      = order mode maxDepth level [tree] := by
  cases tree with
  | leaf value =>
      rw [walkTree, order_leaf within]
      rfl
  | branch value children =>
      rw [walkTree, order_branch within]
      by_cases deep : Within maxDepth (level + 1)
      · have inner : (Event.beginChildren :: walkTrees mode maxDepth (level + 1) children
            ++ [Event.endChildren]).filterMap Event.visited
            = order mode maxDepth (level + 1) children := by
          rw [List.filterMap_append, List.filterMap_cons_none rfl, visited_walkTrees deep,
            List.filterMap_cons_none rfl, List.filterMap_nil, List.append_nil]
        rw [if_pos deep]
        cases mode with
        | leavesOnly => exact inner
        | selfFirst =>
            rw [List.filterMap_append, inner]
            rfl
        | childFirst =>
            rw [List.filterMap_append, inner]
            rfl
      · rw [if_neg deep, order_beyond deep]
        cases mode with
        | leavesOnly => rfl
        | selfFirst => rfl
        | childFirst => rfl

theorem visited_walkTrees {level : Nat} (within : Within maxDepth level) (trees : List (Tree α)) :
    (walkTrees mode maxDepth level trees).filterMap Event.visited
      = order mode maxDepth level trees := by
  cases trees with
  | nil =>
      rw [walkTrees]
      cases mode with
      | leavesOnly => rfl
      | selfFirst => rfl
      | childFirst => rfl
  | cons tree trees =>
      rw [walkTrees, order_cons, List.filterMap_append, visited_walkTree within,
        visited_walkTrees within]

end

end Order

/-! ## The run of a loop -/

section Run

variable {α : Type} (mode : RecursiveIteratorMode) (maxDepth : Int)

/-- After a pass through `nextStep` the loop does what `events` says. -/
inductive Resumes : Pass α → List (Event α) → Prop
  | goOn {events later object} (rest : Resumes (nextStep mode maxDepth object) later) :
      Resumes (.goOn events object) (events ++ later)
  | visit {events later object} (valid : anyValid object = true)
      (rest : Resumes (nextStep mode maxDepth object) later) :
      Resumes (.returned events object) (events ++ (object.current.map .visit ++ later))
  | finish {events object} (ended : anyValid object = false) :
      Resumes (.returned events object)
        (events ++ if object.inIteration then [.endIteration] else [])

variable {mode maxDepth}

theorem moreSteps_returned (fuel : Nat) (events : List (Event α)) (object : RecursiveIt α) :
    moreSteps mode maxDepth fuel (.returned events object) = some (events, object) := by
  cases fuel with
  | zero => rfl
  | succ fuel => rfl

/-- With enough fuel the loop does so. -/
theorem Resumes.rounds {pass : Pass α} {events : List (Event α)}
    (resumes : Resumes mode maxDepth pass events) :
    ∃ moved object later enough, events = moved ++ later
      ∧ (∀ fuel ≥ enough, moreSteps mode maxDepth fuel pass = some (moved, object))
      ∧ ∀ fuel ≥ enough, ∀ more ≥ enough, rounds mode maxDepth fuel more object = some later := by
  induction resumes with
  | @goOn events _ _ _ induction =>
      obtain ⟨moved, object, later, enough, rfl, moves, loops⟩ := induction
      refine ⟨events ++ moved, object, later, enough + 1, by rw [List.append_assoc],
        fun fuel large => ?_, fun fuel large more many => loops fuel (by omega) more (by omega)⟩
      obtain ⟨fuel, rfl⟩ : ∃ less, fuel = less + 1 := ⟨fuel - 1, by omega⟩
      rw [moreSteps, moves fuel (by omega)]
      rfl
  | @visit events _ object valid _ induction =>
      obtain ⟨moved, next, later, enough, rfl, moves, loops⟩ := induction
      refine ⟨events, object, _, enough + 1, rfl,
        fun fuel _ => moreSteps_returned fuel events object, fun fuel large more many => ?_⟩
      obtain ⟨more, rfl⟩ : ∃ less, more = less + 1 := ⟨more - 1, by omega⟩
      rw [Spl.rounds, splRecursiveItValidEx, if_pos valid]
      simp only [splRecursiveItMoveForwardEx, moves fuel (by omega),
        loops fuel (by omega) more (by omega), Option.bind_eq_bind, Option.bind_some,
        List.nil_append, List.append_assoc]
  | @finish events object ended =>
      refine ⟨events, object, _, 1, rfl, fun fuel _ => moreSteps_returned fuel events object,
        fun fuel large more many => ?_⟩
      obtain ⟨more, rfl⟩ : ∃ less, more = less + 1 := ⟨more - 1, by omega⟩
      rw [Spl.rounds, splRecursiveItValidEx, if_neg (Bool.eq_false_iff.mp ended)]

variable {below : List (SubIterator α)} {inIteration : Bool}

/-- A node is visited when its iterator is at it. -/
theorem Resumes.visited {elements trees : List (Tree α)} {tree : Tree α} {state : RecursiveState}
    {later : List (Event α)}
    (rest : Resumes mode maxDepth
      (nextStep mode maxDepth ⟨⟨elements, tree :: trees, state⟩, below, inIteration⟩) later) :
    Resumes mode maxDepth
      (.returned [.nextElement] ⟨⟨elements, tree :: trees, state⟩, below, inIteration⟩)
      ([.nextElement, .visit tree] ++ later) :=
  .visit rfl rest

theorem within_succ {level : Nat} :
    Within maxDepth (level + 1) ↔ maxDepth = -1 ∨ maxDepth > level := by
  rw [Within]
  omega

section Branch

variable {elements children trees : List (Tree α)} {value : α}

theorem caseTest_deep (deep : Within maxDepth (below.length + 1)) :
    caseTest mode maxDepth ⟨⟨elements, .branch value children :: trees, .test⟩, below, inIteration⟩
      = .goOn [] ⟨⟨elements, .branch value children :: trees,
          if mode = .selfFirst then .self else .child⟩, below, inIteration⟩ := by
  unfold caseTest
  refine (if_pos rfl).trans ((if_pos (within_succ.mp deep)).trans ?_)
  cases mode with
  | leavesOnly => rfl
  | selfFirst => rfl
  | childFirst => rfl

theorem caseTest_flat (flat : ¬Within maxDepth (below.length + 1)) :
    caseTest mode maxDepth ⟨⟨elements, .branch value children :: trees, .test⟩, below, inIteration⟩
      = if mode = .leavesOnly then
          .goOn [] ⟨⟨elements, .branch value children :: trees, .next⟩, below, inIteration⟩
        else
          .returned [.nextElement]
            ⟨⟨elements, .branch value children :: trees, .next⟩, below, inIteration⟩ := by
  unfold caseTest
  exact (if_pos rfl).trans (if_neg (mt within_succ.mpr flat))

theorem caseChild_branch :
    caseChild mode ⟨⟨elements, .branch value children :: trees, .child⟩, below, inIteration⟩
      = .goOn [.beginChildren] ⟨⟨children, children, .start⟩,
          ⟨elements, .branch value children :: trees, if mode = .childFirst then .self else .next⟩
            :: below, inIteration⟩ := by
  rw [caseChild, RecursiveIt.current, List.take_succ_cons, List.take_zero, List.flatMap_singleton]
  rfl

end Branch

mutual

theorem walkTree_resumes (tree : Tree α) {elements trees : List (Tree α)}
    {below : List (SubIterator α)} {later : List (Event α)}
    (rest : Resumes mode maxDepth
      (caseStart mode maxDepth ⟨⟨elements, trees, .next⟩, below, inIteration⟩) later) :
    Resumes mode maxDepth
      (caseTest mode maxDepth ⟨⟨elements, tree :: trees, .test⟩, below, inIteration⟩)
      (walkTree mode maxDepth below.length tree ++ later) := by
  cases tree with
  | leaf value =>
      rw [walkTree]
      exact .visited rest
  | branch value children =>
      rw [walkTree]
      by_cases deep : Within maxDepth (below.length + 1)
      · rw [if_pos deep, caseTest_deep deep]
        have inner {after : List (Event α)}
            (resumed : Resumes mode maxDepth (nextStep mode maxDepth ⟨⟨elements,
              .branch value children :: trees, if mode = .childFirst then .self else .next⟩,
              below, inIteration⟩) after) :
            Resumes mode maxDepth (nextStep mode maxDepth
              ⟨⟨elements, .branch value children :: trees, .child⟩, below, inIteration⟩)
              (.beginChildren :: walkTrees mode maxDepth (below.length + 1) children
                ++ [.endChildren] ++ after) := by
          have back (state : RecursiveState) : Resumes mode maxDepth (noMoreElements
              ⟨⟨children, [], state⟩, ⟨elements, .branch value children :: trees,
                if mode = .childFirst then .self else .next⟩ :: below, inIteration⟩)
              ([.endChildren] ++ after) := .goOn resumed
          rw [nextStep, caseChild_branch, List.append_assoc]
          exact .goOn (walkTrees_resumes children back)
        cases mode with
        | leavesOnly => exact .goOn (inner rest)
        | selfFirst =>
            rw [List.append_assoc]
            exact .goOn (.visited (inner rest))
        | childFirst =>
            rw [List.append_assoc]
            exact .goOn (inner (.visited rest))
      · rw [if_neg deep, caseTest_flat deep]
        split_ifs
        · exact .goOn rest
        · exact .visited rest

theorem walkTrees_resumes (trees : List (Tree α)) {elements : List (Tree α)}
    {state : RecursiveState} {below : List (SubIterator α)} {later : List (Event α)}
    (rest : ∀ state, Resumes mode maxDepth
      (noMoreElements ⟨⟨elements, [], state⟩, below, inIteration⟩) later) :
    Resumes mode maxDepth
      (caseStart mode maxDepth ⟨⟨elements, trees, state⟩, below, inIteration⟩)
      (walkTrees mode maxDepth below.length trees ++ later) := by
  cases trees with
  | nil =>
      rw [walkTrees]
      exact rest state
  | cons tree trees =>
      rw [walkTrees, List.append_assoc]
      exact walkTree_resumes tree (walkTrees_resumes trees rest)

end

/-- A `foreach` loop over an object in any state begins anew, and visits the nodes in their order;
the calls are nested as `walkTrees` says, and `valid` is true for as long as there are nodes. -/
theorem foreach_visits (mode : RecursiveIteratorMode) (maxDepth : Int) (lower : -1 ≤ maxDepth)
    (object : RecursiveIt α) :
    (∃ enough, ∀ fuel ≥ enough, foreach mode maxDepth fuel object
      = some (List.replicate object.level .endChildren
        ++ (if object.inIteration then [] else [.beginIteration])
        ++ (walkTrees mode maxDepth 0 (bottom object).elements ++ [.endIteration])))
    ∧ (walkTrees mode maxDepth 0 (bottom object).elements).filterMap Event.visited
      = order mode maxDepth 0 (bottom object).elements := by
  have within : Within maxDepth 0 := by
    rw [Within]
    omega
  refine ⟨?_, visited_walkTrees within _⟩
  have finish (state : RecursiveState) : Resumes mode maxDepth
      (noMoreElements ⟨⟨(bottom object).elements, [], state⟩, [], true⟩) [.endIteration] :=
    .finish rfl
  have resumes : Resumes mode maxDepth (nextStep mode maxDepth
      ⟨⟨(bottom object).elements, (bottom object).elements, .start⟩, [], true⟩)
      (walkTrees mode maxDepth 0 (bottom object).elements ++ [.endIteration]) :=
    walkTrees_resumes (bottom object).elements finish
  obtain ⟨moved, next, later, enough, same, moves, loops⟩ := resumes.rounds
  refine ⟨enough, fun fuel large => ?_⟩
  rw [same, foreach, splRecursiveItRewindEx, splRecursiveItMoveForwardEx, moves fuel large]
  simp only [Option.map_some, Option.bind_eq_bind, Option.bind_some, loops fuel large fuel large,
    List.append_assoc]

/-- The node with the value 4 is at level two. -/
def sampleIt : RecursiveIt Nat :=
  let trees := [.branch 1 [.leaf 2, .branch 3 [.leaf 4]], .leaf 5]
  { top := { elements := trees, rest := trees, state := .start } }

theorem foreach_visits_sample :
    (-1 : Int) ≤ 1
    ∧ (walkTrees .childFirst 1 0 (bottom sampleIt).elements).filterMap Event.visited
      = [.leaf 2, .branch 3 [.leaf 4], .branch 1 [.leaf 2, .branch 3 [.leaf 4]], .leaf 5] :=
  ⟨by decide, (foreach_visits .childFirst 1 (by decide) sampleIt).2⟩

end Run

end PhpRuntime.Spl
