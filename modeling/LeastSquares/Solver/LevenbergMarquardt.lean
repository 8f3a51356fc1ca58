import LeastSquares.Solver.Cgls
import LeastSquares.Solver.Nonlinear

/-!
# Levenberg–Marquardt

Damped Gauss–Newton steps. Each iteration linearises the graph, then tries damped steps: a
step is accepted if it lowers the error, and by enough of what the damped linear problem
predicted. A rejected step is taken back and tried again with more damping. When the damping
has passed its bound, the solver gives up if no step was ever accepted; otherwise the
estimate is a local minimum.
-/

namespace LeastSquares.LevenbergMarquardt

structure Config (α : Type) where
  /-- The greatest number of linearisations. -/
  maxIterations : Int
  /-- The number of further trials after the first one of an iteration. -/
  maxLambdaTrials : Int
  lambdaInitial : α
  lambdaFactor : α
  lambdaMin : α
  lambdaMax : α
  /-- The least fraction of the predicted decrease that an accepted step achieves. -/
  minModelFidelity : α
  /-- The error at which the solver stops. -/
  precision : α
  linear : Cgls.Config α
  verbosity : Verbosity

def Config.standard {α : Type} [Scalar α] : Config α where
  maxIterations := 50
  maxLambdaTrials := 5
  lambdaInitial := Scalar.ofDecimal 1 (-6)
  lambdaFactor := Scalar.ofInt 10
  lambdaMin := Scalar.ofDecimal 1 (-10)
  lambdaMax := Scalar.ofDecimal 1 20
  minModelFidelity := Scalar.ofDecimal 1 (-2)
  precision := Scalar.ofDecimal 1 (-14)
  linear := ⟨Scalar.zero, 200⟩
  verbosity := .silent

/-- The least decrease of the error that counts. -/
def epsilon {α : Type} [Scalar α] : α := Scalar.ofDecimal 2220446049250313 (-31)

/-- What the solver carries from trial to trial beside the store. -/
structure State (α : Type) where
  error : α
  lambda : α
  acceptedSteps : Nat
  iterations : Nat

/-- How one trial, or the trials of one iteration, came out. -/
inductive Verdict (α : Type) where
  | accepted (state : State α)
  /-- The step was taken back; the state has the damping for the next trial. -/
  | rejected (state : State α)
  /-- The step was taken back, and the damping is past its bound. -/
  | converged (state : State α)

variable {C α : Type} [DecidableEq C] [FactorFamily C] [Scalar α]

/-- The solution of a linear problem from zero, with the errors of the problem before and after
it. -/
def solveLinear (config : Config α) (problem : LinearGraph C α) :
    Solve (Store C α) α (Vectors C α × α × α) := do
  let zero := problem.template
  let before ← Solve.run (problem.error zero.bulk)
  match Cgls.solve config.linear problem false zero with
  | .error e _ => throw (.failed e)
  | .ok (steps, gamma) step =>
    Solve.report (.linearSolved steps gamma)
    let after ← Solve.run (problem.error step.bulk)
    return (step, before, after)

/-- The step of a damped problem. The damping is a square. -/
def dampedStep (config : Config α) (linear : LinearGraph C α) (lambda : α) :
    Solve (Store C α) α (Vectors C α × α × α) := do
  if Scalar.lt lambda Scalar.zero then throw (.failed .misfit)
  solveLinear config (← Solve.run (linear.damped (Elementary.sqrt lambda)))

/-- The fraction of the predicted decrease that was achieved; none if none was predicted. -/
def fidelity (achieved predicted : α) : α :=
  if Scalar.lt Scalar.zero predicted then achieved / predicted else Scalar.zero

def relaxed (config : Config α) (lambda : α) : Checked α :=
  if Scalar.eq config.lambdaFactor Scalar.zero then misfit
  else return Scalar.larger (lambda / config.lambdaFactor) config.lambdaMin

/-- Take a rejected step back. If the damping is past its bound the solver gives up, or has
converged; otherwise the next trial has more damping. -/
def takeBack (config : Config α) (state : State α) (snapshot : Store C α) :
    Solve (Store C α) α (Verdict α) := do
  Solve.restore snapshot
  if Scalar.lt config.lambdaMax state.lambda then
    if state.acceptedSteps = 0 then throw (.gaveUp state.lambda state.iterations)
    Solve.report (.converged state.error state.iterations)
    return .converged state
  return .rejected { state with lambda := state.lambda * config.lambdaFactor }

/-- Try one damped step: move the store, judge the step, and take it back if it is
rejected. -/
def trial (config : Config α) (graph : FactorGraph C α) (linear : LinearGraph C α)
    (state : State α) : Solve (Store C α) α (Verdict α) := do
  let (step, before, after) ← dampedStep config linear state.lambda
  let snapshot ← Solve.point
  Solve.onPoint (Store.move step.buffers)
  let error ← Solve.run (graph.error (← Solve.point).bulk)
  let achieved := state.error - error
  let fidelity := fidelity achieved (before - after)
  Solve.reportIf config.verbosity.showsTrials (.trial state.lambda error fidelity)
  if Scalar.lt epsilon achieved && Scalar.lt config.minModelFidelity fidelity then
    let lambda ← Solve.run (relaxed config state.lambda)
    return .accepted { state with
      error := error, lambda := lambda, acceptedSteps := state.acceptedSteps + 1 }
  takeBack config state snapshot

/-- Trials until one is accepted or the damping is past its bound, at most so many. -/
def trials (config : Config α) (graph : FactorGraph C α) (linear : LinearGraph C α) :
    Nat → State α → Solve (Store C α) α (Verdict α)
  | 0, state => return .rejected state
  | left + 1, state => do
    match ← trial config graph linear state with
    | .rejected next => trials config graph linear left next
    | verdict => return verdict

structure History (α : Type) where
  errors : Array α
  lambdas : Array α

def History.push (h : History α) (state : State α) : History α :=
  ⟨h.errors.push state.error, h.lambdas.push state.lambda⟩

def summary (state : State α) (history : History α) : Summary α :=
  ⟨state.iterations, state.acceptedSteps, history.errors, history.lambdas⟩

/-- The linear graph at a store, reported before its template is made. -/
def linearized (graph : FactorGraph C α) (point : Store C α) :
    Solve (Store C α) α (LinearGraph C α) := do
  let buffers ← Solve.run (graph.linearStacks point.bulk)
  Solve.report (← Solve.run (graph.linearizedEvent buffers.size))
  return ⟨buffers, ← Solve.run point.tangentZeros⟩

def unsolved (config : Config α) (error : α) : Bool := Scalar.lt config.precision error

/-- The report and the summary of a run to the end. -/
def finish {P : Type} (config : Config α) (state : State α) (history : History α) :
    Solve P α (Summary α) := do
  Solve.reportIf config.verbosity.showsIterations (.terminated state.iterations state.error)
  return summary state history

def announce {P : Type} (config : Config α) (state : State α) : Solve P α Unit :=
  Solve.reportIf config.verbosity.showsIterations
    (.iteration state.iterations state.error state.lambda)

/-- Begin an iteration: linearise at the point. -/
def enter (config : Config α) (graph : FactorGraph C α) (state : State α) :
    Solve (Store C α) α (LinearGraph C α) := do
  announce config state
  linearized graph (← Solve.point)

/-- Linearise and try damped steps. -/
def iteration (config : Config α) (graph : FactorGraph C α) (state : State α) :
    Solve (Store C α) α (Verdict α) := do
  let linear ← enter config graph state
  trials config graph linear (config.maxLambdaTrials + 1).toNat
    { state with iterations := state.iterations + 1 }

/-- Iterations until the error is small enough or the estimate is a local minimum, at most
so many. -/
def loop (config : Config α) (graph : FactorGraph C α) :
    Nat → State α → History α → Solve (Store C α) α (Summary α)
  | 0, state, history => finish config state history
  | left + 1, state, history => do
    if unsolved config state.error then
      match ← iteration config graph state with
      | .accepted next | .rejected next => loop config graph left next (history.push next)
      | .converged last => return summary last (history.push last)
    else finish config state history

def State.initial (config : Config α) (error : α) : State α :=
  ⟨error, config.lambdaInitial, 0, 0⟩

/-- Minimise the error of a graph, moving the store in place. -/
def optimize (config : Config α) (graph : FactorGraph C α) : Solve (Store C α) α (Summary α) := do
  let error ← Solve.run (graph.error (← Solve.point).bulk)
  loop config graph config.maxIterations.toNat (.initial config error) ⟨#[error], #[]⟩

/-- The run at a point that cannot be moved, given its error and what is reported when it is
linearised: the point is a solution already, or the first iteration fails. -/
def atRest (config : Config α) (error : Checked α) (linearized : Checked (Event α)) :
    Solve Unit α (Summary α) := do
  let state := State.initial config (← Solve.run error)
  if 0 < config.maxIterations ∧ unsolved config state.error then
    announce config state
    Solve.report (← Solve.run linearized)
    throw (.failed .misfit)
  finish config state ⟨#[state.error], #[]⟩

end LeastSquares.LevenbergMarquardt
