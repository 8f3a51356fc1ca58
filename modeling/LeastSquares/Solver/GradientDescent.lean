import LeastSquares.Solver.Nonlinear

/-!
# Gradient descent

Steps of a fixed multiple of the negative gradient, on the manifold.
-/

namespace LeastSquares.GradientDescent

structure Config (α : Type) where
  learningRate : α
  maxIterations : Int
  verbosity : Verbosity

def Config.standard {α : Type} [Scalar α] : Config α := ⟨Scalar.ofDecimal 1 (-3), 100, .silent⟩

variable {C α : Type} [DecidableEq C] [FactorFamily C] [Scalar α]

/-- One step in place, and the error after it. -/
def step (config : Config α) (graph : FactorGraph C α) : Solve (Store C α) α α := do
  let gradient ← Solve.run (graph.gradient (← Solve.point))
  let along ← Solve.run (gradient.scaled (-config.learningRate))
  Solve.onPoint (Store.move along.buffers)
  Solve.run (graph.error (← Solve.point).bulk)

/-- So many steps; the errors are added to the history. -/
def loop (config : Config α) (graph : FactorGraph C α) :
    Nat → Nat → Array α → Solve (Store C α) α (Array α)
  | 0, _, history => return history
  | left + 1, i, history => do
    let error ← step config graph
    Solve.reportIf config.verbosity.showsIterations (.descended i error)
    loop config graph left (i + 1) (history.push error)

/-- Minimise the error of a graph, moving the store in place. -/
def optimize (config : Config α) (graph : FactorGraph C α) : Solve (Store C α) α (Summary α) := do
  let first ← Solve.run (graph.error (← Solve.point).bulk)
  let history ← loop config graph config.maxIterations.toNat 0 #[first]
  return ⟨config.maxIterations, config.maxIterations, history, #[]⟩

/-- The run at a point that cannot be moved, given its error. -/
def atRest (config : Config α) (error : Checked α) : Solve Unit α (Summary α) := do
  let first ← Solve.run error
  if 0 < config.maxIterations then throw (.failed .misfit)
  return ⟨config.maxIterations, config.maxIterations, #[first], #[]⟩

end LeastSquares.GradientDescent
