import LeastSquares.Graph.Nonlinear

/-!
# Nonlinear solvers

What the solvers of nonlinear problems have in common. A solver moves a point in place, such as
a store, reports events, and answers with a summary. It may fail, or give up; what it had done to
the point by then stays done.
-/

namespace LeastSquares

/-- How much a solver reports of its progress. -/
inductive Verbosity where
  | silent
  /-- One line per iteration. -/
  | iterations
  /-- Also one line per damped step. -/
  | trials
  deriving DecidableEq

namespace Verbosity

/-- The levels from nought to two. -/
def ofLevel? : Int → Option Verbosity
  | 0 => some silent
  | 1 => some iterations
  | 2 => some trials
  | _ => none

def showsIterations (v : Verbosity) : Bool := v ≠ silent

def showsTrials (v : Verbosity) : Bool := v = trials

end Verbosity

/-- Why a solver has no answer. -/
inductive SolverError (α : Type) where
  | failed (f : Failure)
  /-- The damping grew past its bound before any step was accepted. -/
  | gaveUp (lambda : α) (iterations : Nat)

/-- What happened during a solve. -/
structure Summary (α : Type) where
  iterations : Int
  acceptedSteps : Int
  /-- The error before the first iteration, then after each. -/
  errorHistory : Array α
  /-- The damping at the end of each iteration. -/
  lambdaHistory : Array α

/-- The point that a solver moves, and the events reported so far. -/
structure Run (P α : Type) where
  point : P
  events : Array (Event α)

/-- A computation of a solver that moves a point in `P`. -/
abbrev Solve (P α β : Type) : Type := EStateM (SolverError α) (Run P α) β

namespace Solve

variable {P α β : Type}

/-- The result of an operation; its failure is that of the solver. -/
def run (result : Checked β) : Solve P α β :=
  match result with
  | .ok b => pure b
  | .error e => throw (.failed e)

def onPoint (edit : Edit P β) : Solve P α β := fun r =>
  match edit r.point with
  | .ok b p => .ok b { r with point := p }
  | .error e p => .error (.failed e) { r with point := p }

def report (e : Event α) : Solve P α Unit :=
  modify fun r => { r with events := r.events.push e }

def reportIf (condition : Bool) (e : Event α) : Solve P α Unit :=
  if condition then report e else pure ()

def point : Solve P α P := do return (← get).point

def restore (p : P) : Solve P α Unit := modify fun r => { r with point := p }

end Solve

end LeastSquares
