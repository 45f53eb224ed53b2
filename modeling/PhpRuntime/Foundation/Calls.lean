/-! # Calls of functions -/

namespace PhpRuntime.Calls

/-- What a call comes to: a result, a warning and no result, or neither of them, since memory is
asked for that is not there. -/
inductive Outcome (α : Type) where
  | returned (result : α)
  | warning (message : String)
  | stopped
  deriving DecidableEq

/-- A call that may be stopped. -/
def Outcome.ofOption {α : Type} : Option α → Outcome α
  | some result => .returned result
  | none => .stopped

end PhpRuntime.Calls
