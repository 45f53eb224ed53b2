/-! # Machines with silent steps

A machine moves from configuration to configuration. Some moves are silent, others emit an
event; two machines behave alike when they emit the same events, however many silent moves
stand between them.
-/

namespace PhpRuntime.Silent

inductive Move (κ α : Type)
  | silent (next : κ)
  | emit (event : α) (next : Option κ)
  | stop

variable {κ α : Type}

/-- The events of the first `fuel` moves. -/
def run (machine : κ → Move κ α) : Nat → κ → List α
  | 0, _ => []
  | fuel + 1, here =>
      match machine here with
      | .silent next => run machine fuel next
      | .emit event (some next) => event :: run machine fuel next
      | .emit event none => [event]
      | .stop => []

/-- The events are the first ones that are emitted from `here` on. -/
def Emits (machine : κ → Move κ α) (here : κ) (events : List α) : Prop :=
  ∃ fuel, run machine fuel here = events

/-- The machine comes from one configuration to another in so many silent moves. -/
inductive Quiet (machine : κ → Move κ α) : Nat → κ → κ → Prop
  | refl (here : κ) : Quiet machine 0 here here
  | step {steps : Nat} {here next there : κ} : machine here = .silent next →
      Quiet machine steps next there → Quiet machine (steps + 1) here there

theorem Quiet.run_add {machine : κ → Move κ α} {steps : Nat} {here there : κ}
    (quiet : Quiet machine steps here there) (fuel : Nat) :
    run machine (steps + fuel) here = run machine fuel there := by
  induction quiet with
  | refl here => rw [Nat.zero_add]
  | step silent _ induction =>
      rw [Nat.add_right_comm, run, silent]
      exact induction

theorem Quiet.run_eq_nil {machine : κ → Move κ α} {steps : Nat} {here there : κ}
    (quiet : Quiet machine steps here there) {fuel : Nat} (short : fuel ≤ steps) :
    run machine fuel here = [] := by
  induction quiet generalizing fuel with
  | refl here =>
      rw [Nat.le_zero.mp short]
      rfl
  | step silent _ induction =>
      cases fuel with
      | zero => rfl
      | succ fuel =>
          rw [run, silent]
          exact induction (Nat.le_of_succ_le_succ short)

/-- A configuration moves as before, or silently to a place that it reached silently. -/
def Shortens (machine other : κ → Move κ α) : Prop :=
  ∀ here, other here = machine here ∨
    ∃ next steps, other here = .silent next ∧ Quiet machine (steps + 1) here next

theorem Shortens.run_eq {machine other : κ → Move κ α} (shortens : Shortens machine other)
    (fuel : Nat) (here : κ) : ∃ more, run other more here = run machine fuel here := by
  induction fuel using Nat.strongRecOn generalizing here with
  | _ fuel induction =>
      cases fuel with
      | zero => exact ⟨0, rfl⟩
      | succ fuel =>
          cases shortens here with
          | inl same =>
              cases moved : machine here with
              | silent next =>
                  obtain ⟨more, equal⟩ := induction fuel (Nat.lt_succ_self _) next
                  exact ⟨more + 1, by simp only [run, same, moved, equal]⟩
              | emit event after =>
                  cases after with
                  | none => exact ⟨1, by simp only [run, same, moved]⟩
                  | some next =>
                      obtain ⟨more, equal⟩ := induction fuel (Nat.lt_succ_self _) next
                      exact ⟨more + 1, by simp only [run, same, moved, equal]⟩
              | stop => exact ⟨0, by simp only [run, moved]⟩
          | inr shortcut =>
              obtain ⟨next, steps, silent, quiet⟩ := shortcut
              by_cases short : fuel + 1 ≤ steps + 1
              · exact ⟨0, (quiet.run_eq_nil short).symm⟩
              · obtain ⟨rest, split⟩ := Nat.exists_eq_add_of_le (Nat.le_of_not_le short)
                obtain ⟨more, equal⟩ := induction rest (by omega) next
                refine ⟨more + 1, ?_⟩
                rw [split, quiet.run_add, run, silent, ← equal]

theorem Shortens.run_eq_back {machine other : κ → Move κ α} (shortens : Shortens machine other)
    (fuel : Nat) (here : κ) : ∃ more, run machine more here = run other fuel here := by
  induction fuel generalizing here with
  | zero => exact ⟨0, rfl⟩
  | succ fuel induction =>
      cases shortens here with
      | inl same =>
          cases moved : machine here with
          | silent next =>
              obtain ⟨more, equal⟩ := induction next
              exact ⟨more + 1, by simp only [run, same, moved, equal]⟩
          | emit event after =>
              cases after with
              | none => exact ⟨1, by simp only [run, same, moved]⟩
              | some next =>
                  obtain ⟨more, equal⟩ := induction next
                  exact ⟨more + 1, by simp only [run, same, moved, equal]⟩
          | stop => exact ⟨0, by simp only [run, same, moved]⟩
      | inr shortcut =>
          obtain ⟨next, steps, silent, quiet⟩ := shortcut
          obtain ⟨more, equal⟩ := induction next
          refine ⟨steps + 1 + more, ?_⟩
          rw [quiet.run_add, equal, run, silent]

theorem Shortens.emits_iff {machine other : κ → Move κ α} (shortens : Shortens machine other)
    (here : κ) (events : List α) : Emits machine here events ↔ Emits other here events := by
  constructor
  · intro emits
    obtain ⟨fuel, equal⟩ := emits
    obtain ⟨more, same⟩ := shortens.run_eq fuel here
    exact ⟨more, same.trans equal⟩
  · intro emits
    obtain ⟨fuel, equal⟩ := emits
    obtain ⟨more, same⟩ := shortens.run_eq_back fuel here
    exact ⟨more, same.trans equal⟩

end PhpRuntime.Silent
