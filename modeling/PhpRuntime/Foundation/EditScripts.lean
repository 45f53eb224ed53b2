import Mathlib.Algebra.Ring.Int.Defs
import Mathlib.Algebra.BigOperators.Group.List.Basic
import Mathlib.Data.List.Induction
import Mathlib.Order.Bounds.Basic
import Mathlib.Order.MinMax

/-! # Edit scripts

Ways to turn one list into another from left to right, and the least cost of such a way. The
last step of a script gives the recurrence of the least cost over the last elements.
-/

namespace PhpRuntime.EditScripts

variable {α : Type*}

inductive Step (α : Type*) where
  | keep (a : α)
  | insert (b : α)
  | replace (a b : α)
  | delete (a : α)

/-- What an inserted, a replaced and a deleted element cost. -/
structure Costs where
  ins : Int
  rep : Int
  del : Int

namespace Step

/-- The elements of the first list that a step uses up. -/
def source : Step α → List α
  | keep a => [a]
  | insert _ => []
  | replace a _ => [a]
  | delete a => [a]

/-- The elements of the second list that a step gives. -/
def target : Step α → List α
  | keep a => [a]
  | insert b => [b]
  | replace _ b => [b]
  | delete _ => []

def cost (costs : Costs) : Step α → Int
  | keep _ => 0
  | insert _ => costs.ins
  | replace _ _ => costs.rep
  | delete _ => costs.del

end Step

/-- A script turns `s` into `t`. -/
def Turns (script : List (Step α)) (s t : List α) : Prop :=
  script.flatMap Step.source = s ∧ script.flatMap Step.target = t

def total (costs : Costs) (script : List (Step α)) : Int := (script.map (Step.cost costs)).sum

/-- The least total cost of the scripts that turn `s` into `t`. -/
def Least (costs : Costs) (s t : List α) (d : Int) : Prop :=
  IsLeast {c | ∃ script, Turns script s t ∧ total costs script = c} d

section Recurrence

variable {costs : Costs} {s t : List α} {a b : α} {script : List (Step α)}

theorem Turns.concat (turns : Turns script s t) (step : Step α) :
    Turns (script ++ [step]) (s ++ step.source) (t ++ step.target) := by
  simp [Turns, turns.1, turns.2]

@[simp]
theorem total_concat (step : Step α) :
    total costs (script ++ [step]) = total costs script + step.cost costs := by
  simp [total]

/-- A script that is not empty ends with one of the four steps. -/
theorem Turns.cases (turns : Turns script s t) :
    (script = [] ∧ s = [] ∧ t = []) ∨
      ∃ init step u v, script = init ++ [step] ∧ Turns init u v ∧
        s = u ++ step.source ∧ t = v ++ step.target := by
  rcases List.eq_nil_or_concat' script with rfl | ⟨init, step, rfl⟩
  · exact Or.inl ⟨rfl, turns.1.symm, turns.2.symm⟩
  · refine Or.inr ⟨init, step, _, _, rfl, ⟨rfl, rfl⟩, ?_, ?_⟩
    · simpa using turns.1.symm
    · simpa using turns.2.symm

/-- The script of a least cost with one more step. -/
theorem Least.reaches {d : Int} (least : Least costs s t d) (step : Step α) :
    ∃ script, Turns script (s ++ step.source) (t ++ step.target) ∧
      total costs script = d + step.cost costs := by
  rcases least.1 with ⟨script, turns, equal⟩
  exact ⟨script ++ [step], turns.concat step, by rw [total_concat, equal]⟩

theorem Least.le {d : Int} (least : Least costs s t d) (turns : Turns script s t) :
    d ≤ total costs script :=
  least.2 ⟨script, turns, rfl⟩

theorem least_nil : Least costs ([] : List α) [] 0 := by
  refine ⟨⟨[], ⟨rfl, rfl⟩, rfl⟩, ?_⟩
  rintro _ ⟨script, turns, rfl⟩
  rcases turns.cases with ⟨rfl, _⟩ | ⟨init, step, u, v, _, _, noSource, noTarget⟩
  · exact Int.le_refl 0
  · cases step <;> simp [Step.source, Step.target] at noSource noTarget

/-- Nothing is left of the first list: the last element of the second one is inserted. -/
theorem Least.insert_last {d : Int} (least : Least costs [] t d) :
    Least costs [] (t ++ [b]) (d + costs.ins) := by
  refine ⟨least.reaches (.insert b), ?_⟩
  rintro _ ⟨script, turns, rfl⟩
  rcases turns.cases with ⟨_, _, impossible⟩ | ⟨init, step, u, v, rfl, before, isS, isT⟩
  · simp at impossible
  · cases step with
    | insert c =>
        have parts := List.append_inj' isT rfl
        rw [Step.source, List.append_nil] at isS
        rw [← isS, ← parts.1] at before
        rw [total_concat]
        exact Int.add_le_add_right (least.le before) _
    | keep c => simp [Step.source] at isS
    | replace c e => simp [Step.source] at isS
    | delete c => simp [Step.source] at isS

/-- Nothing is left of the second list: the last element of the first one is deleted. -/
theorem Least.delete_last {d : Int} (least : Least costs s [] d) :
    Least costs (s ++ [a]) [] (d + costs.del) := by
  refine ⟨least.reaches (.delete a), ?_⟩
  rintro _ ⟨script, turns, rfl⟩
  rcases turns.cases with ⟨_, impossible, _⟩ | ⟨init, step, u, v, rfl, before, isS, isT⟩
  · simp at impossible
  · cases step with
    | delete c =>
        have parts := List.append_inj' isS rfl
        rw [Step.target, List.append_nil] at isT
        rw [← isT, ← parts.1] at before
        rw [total_concat]
        exact Int.add_le_add_right (least.le before) _
    | keep c => simp [Step.target] at isT
    | replace c e => simp [Step.target] at isT
    | insert c => simp [Step.target] at isT

/-- One of three scripts is as cheap as the minimum: it keeps or replaces the last elements, or
deletes or inserts one of them. -/
theorem Least.last_reached [DecidableEq α] {both up left : Int}
    (isBoth : Least costs s t both) (isUp : Least costs s (t ++ [b]) up)
    (isLeft : Least costs (s ++ [a]) t left) :
    ∃ script, Turns script (s ++ [a]) (t ++ [b]) ∧ total costs script
      = min (min (both + if a = b then 0 else costs.rep) (up + costs.del)) (left + costs.ins) := by
  have kept : ∃ script, Turns script (s ++ [a]) (t ++ [b]) ∧
      total costs script = both + if a = b then 0 else costs.rep := by
    split_ifs with equal
    · rw [equal]
      exact isBoth.reaches (.keep b)
    · exact isBoth.reaches (.replace a b)
  have deleted := isUp.reaches (.delete a)
  have inserted := isLeft.reaches (.insert b)
  simp only [Step.source, Step.target, Step.cost, List.append_nil] at deleted inserted
  rcases min_choice (min (both + if a = b then 0 else costs.rep) (up + costs.del))
    (left + costs.ins) with isMin | isMin
  · rw [isMin]
    rcases min_choice (both + if a = b then 0 else costs.rep) (up + costs.del) with
      isMin | isMin <;> rw [isMin]
    · exact kept
    · exact deleted
  · rw [isMin]
    exact inserted

/-- The recurrence: the last elements are kept or replaced, or one of them is deleted or
inserted. -/
theorem Least.last [DecidableEq α] {both up left : Int} (nonneg : 0 ≤ costs.rep)
    (isBoth : Least costs s t both) (isUp : Least costs s (t ++ [b]) up)
    (isLeft : Least costs (s ++ [a]) t left) :
    Least costs (s ++ [a]) (t ++ [b])
      (min (min (both + if a = b then 0 else costs.rep) (up + costs.del)) (left + costs.ins)) := by
  refine ⟨isBoth.last_reached isUp isLeft, ?_⟩
  rintro _ ⟨script, turns, rfl⟩
  rcases turns.cases with ⟨_, impossible, _⟩ | ⟨init, step, u, v, rfl, before, isS, isT⟩
  · simp at impossible
  rw [total_concat]
  cases step with
  | keep c =>
      have sParts := List.append_inj' isS rfl
      have tParts := List.append_inj' isT rfl
      rw [← sParts.1, ← tParts.1] at before
      have same : a = b :=
        (List.singleton_inj.mp sParts.2).trans (List.singleton_inj.mp tParts.2).symm
      have bound := isBoth.le before
      simp only [same, if_true, Step.cost]
      omega
  | replace c e =>
      have sParts := List.append_inj' isS rfl
      have tParts := List.append_inj' isT rfl
      rw [← sParts.1, ← tParts.1] at before
      have bound := isBoth.le before
      simp only [Step.cost]
      split_ifs <;> omega
  | delete c =>
      have sParts := List.append_inj' isS rfl
      rw [Step.target, List.append_nil] at isT
      rw [← sParts.1, ← isT] at before
      have bound := isUp.le before
      simp only [Step.cost]
      omega
  | insert c =>
      have tParts := List.append_inj' isT rfl
      rw [Step.source, List.append_nil] at isS
      rw [← isS, ← tParts.1] at before
      have bound := isLeft.le before
      simp only [Step.cost]
      omega

/-- Inserting one element after the other. -/
theorem least_inserts (t : List α) :
    Least costs ([] : List α) t (t.length * costs.ins) := by
  induction t using List.reverseRecOn with
  | nil => simpa using least_nil
  | append_singleton t b induction =>
      have longer := induction.insert_last (b := b)
      rwa [List.length_append, List.length_singleton, Int.natCast_add, Int.natCast_one, Int.add_mul,
        Int.one_mul]

/-- Deleting one element after the other. -/
theorem least_deletes (s : List α) :
    Least costs s ([] : List α) (s.length * costs.del) := by
  induction s using List.reverseRecOn with
  | nil => simpa using least_nil
  | append_singleton s a induction =>
      have longer := induction.delete_last (a := a)
      rwa [List.length_append, List.length_singleton, Int.natCast_add, Int.natCast_one, Int.add_mul,
        Int.one_mul]

end Recurrence

end PhpRuntime.EditScripts
