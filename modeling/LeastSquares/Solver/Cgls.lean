import LeastSquares.Graph.Nonlinear

/-!
# Conjugate gradients for least squares

Minimises `‖A x - b‖²` in place by conjugate gradients on the normal equations, using `A`
and its transpose only. With `r = b - A x` and `s = Aᵀ r`, a step goes along `p` to the
minimum on that line; the next direction is `s + β p`. It stops when the squared norm
`gamma` of `s` is at or below the precision, when `A p` vanishes, when the length that the
next direction would be given at the last step size is small, or when the budget is used up.
-/

namespace LeastSquares.Cgls

structure Config (α : Type) where
  precision : α
  maxIterations : Int

def Config.standard {α : Type} [Scalar α] : Config α := ⟨Scalar.ofDecimal 1 (-10), 400⟩

/-- What the method carries from step to step beside `x`. -/
structure State (C α : Type) where
  step : Nat
  /-- `r = b - A x`. -/
  residual : Vectors C α
  /-- `s = Aᵀ r`. -/
  normal : Vectors C α
  /-- The direction `p` of the next step. -/
  direction : Vectors C α
  /-- The squared norm of `s`. -/
  gamma : α

/-- The outcome of one step: it goes on, or it was the last. -/
inductive Progress (C α : Type) where
  | continued (state : State C α)
  | stopped (steps : Nat) (gamma : α)

variable {C α : Type} [DecidableEq C] [FactorFamily C] [Scalar α]

/-- The problem at a point `x`. Where `x` is the template of the graph itself, a step changes
the template too. -/
def problem (graph : LinearGraph C α) (shared : Bool) (x : Vectors C α) : LinearGraph C α :=
  if shared then { graph with template := x } else graph

def start (graph : LinearGraph C α) (read : Reader α) : Checked (State C α) := do
  let residual ← (← graph.residuals read).neg
  let s ← graph.adjoint residual.buffers
  return ⟨0, residual, s, s, ← s.squaredNorm⟩

/-- The image of the direction and its squared norm, if the precision is not reached and the
image does not vanish. -/
def image? (config : Config α) (graph : LinearGraph C α) (state : State C α) :
    Checked (Option (Vectors C α × α)) := do
  if !Scalar.lt config.precision state.gamma then return none
  let q ← graph.forward state.direction.bulk
  let norm ← q.squaredNorm
  if Scalar.eq norm Scalar.zero then return none
  return some (q, norm)

/-- One step, if there is one to make. -/
def step (config : Config α) (graph : LinearGraph C α) (shared : Bool) (state : State C α) :
    Edit (Vectors C α) (Progress C α) := do
  let some (q, norm) ← image? config graph state | return .stopped state.step state.gamma
  let alpha := state.gamma / norm
  Vectors.increase (← state.direction.scaled alpha)
  let residual ← state.residual.sub (← q.scaled alpha)
  let s ← (problem graph shared (← get)).adjoint residual.buffers
  let gamma ← s.squaredNorm
  if Scalar.eq state.gamma Scalar.zero then throw .misfit
  let direction ← s.add (← state.direction.scaled (gamma / state.gamma))
  let stride ← (← direction.scaled alpha).squaredNorm
  if Scalar.lt stride config.precision then
    return .stopped (state.step + 1) gamma
  return .continued ⟨state.step + 1, residual, s, direction, gamma⟩

/-- Steps until one is the last, at most as many as the budget. -/
def loop (config : Config α) (graph : LinearGraph C α) (shared : Bool) :
    Nat → State C α → Edit (Vectors C α) (Nat × α)
  | 0, state => return (state.step, state.gamma)
  | budget + 1, state => do
    match ← step config graph shared state with
    | .continued next => loop config graph shared budget next
    | .stopped steps gamma => return (steps, gamma)

/-- Solve in place. The result is the number of steps and the last `gamma`. -/
def solve (config : Config α) (graph : LinearGraph C α) (shared : Bool) :
    Edit (Vectors C α) (Nat × α) := do
  let state ← start graph (← get).bulk
  loop config graph shared config.maxIterations.toNat state

/-- The `gamma` at a point that cannot be changed, if no step is made from there. -/
def atRest (config : Config α) (graph : LinearGraph C α) (read : Reader α) : Checked α := do
  let state ← start graph read
  if config.maxIterations ≤ 0 then return state.gamma
  match ← image? config graph state with
  | none => return state.gamma
  | some _ => misfit

end LeastSquares.Cgls
