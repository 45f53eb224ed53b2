import Mathlib.Data.List.Basic

/-! # Transducers

A machine that reads one symbol at a time and puts out symbols of its own. What it puts out
does not depend on how its input is cut.
-/

namespace PhpRuntime.Transducer

variable {σ α β : Type*} (feed : σ → α → σ × List β)

/-- A text, symbol by symbol. -/
def run : σ → List α → σ × List β
  | state, [] => (state, [])
  | state, symbol :: rest =>
      let (next, out) := feed state symbol
      let (last, more) := run next rest
      (last, out ++ more)

variable {feed}

@[simp]
theorem run_nil (state : σ) : run feed state [] = (state, []) := rfl

theorem run_cons (state : σ) (symbol : α) (rest : List α) :
    run feed state (symbol :: rest) =
      ((run feed (feed state symbol).1 rest).1,
        (feed state symbol).2 ++ (run feed (feed state symbol).1 rest).2) := rfl

theorem run_append (state : σ) (text more : List α) :
    run feed state (text ++ more) =
      ((run feed (run feed state text).1 more).1,
        (run feed state text).2 ++ (run feed (run feed state text).1 more).2) := by
  induction text generalizing state with
  | nil => rfl
  | cons symbol rest induction =>
      simp only [List.cons_append, run_cons, induction, List.append_assoc]

/-- A symbol that puts nothing out. -/
theorem run_silent {state next : σ} {symbol : α} (silent : feed state symbol = (next, []))
    (rest : List α) : run feed state (symbol :: rest) = run feed next rest := by
  rw [run_cons, silent]
  rfl

/-- Two states that treat the first symbol alike. -/
theorem run_congr {state other : σ} {symbol : α} (same : feed state symbol = feed other symbol)
    (rest : List α) : run feed state (symbol :: rest) = run feed other (symbol :: rest) := by
  rw [run_cons, run_cons, same]

end PhpRuntime.Transducer
