/-!
# Events

What graphs and solvers report while they work. An event has a level: details, or the
progress of a solver.
-/

namespace LeastSquares

inductive Level where
  | debug
  | info
  deriving DecidableEq

/-- A report. Groups and contents are carried as they are printed. -/
inductive Event (α : Type) where
  /-- The first factor of a group was added. -/
  | stackCreated (group content : String)
  /-- A graph with so many factors was linearised into so many stacks. -/
  | linearized (factors groups : Nat)
  /-- The linear solver stopped, with this squared norm of the gradient. -/
  | linearSolved (steps : Nat) (gamma : α)
  /-- An iteration of the damped solver begins. -/
  | iteration (number : Nat) (error lambda : α)
  | trial (lambda error fidelity : α)
  /-- No damping improves on the estimate. -/
  | converged (error : α) (iterations : Nat)
  /-- The damped solver ran to its end. -/
  | terminated (iterations : Nat) (error : α)
  | descended (iteration : Nat) (error : α)

def Event.level {α : Type} : Event α → Level
  | stackCreated .. | linearized .. | linearSolved .. | trial .. => .debug
  | iteration .. | converged .. | terminated .. | descended .. => .info

end LeastSquares
