import LeastSquares.Buffer.Basic

/-!
# Derivatives of buffer arithmetic

How a derivative passes back through the inner product and through scaling: from the
derivative of a result along its own coordinates to the derivatives along the coordinates of
the operands.
-/

namespace LeastSquares.Buffer

variable {C α : Type} [DecidableEq C] [FactorFamily C] [Scalar α]

/-- Back through `a.dot b`. -/
def dotPullback (a b : Buffer C α) (rate : α) : Checked (Buffer C α × Buffer C α) := do
  return (← b.scaled rate, ← a.scaled rate)

/-- Back through `b.scaled s`. -/
def scaledPullback (s : α) (b rate : Buffer C α) : Checked (Block α × Buffer C α) := do
  return (← b.dot rate, ← rate.scaled s)

/-- The arrays of two buffers have the same shapes. -/
def sameShapes (a b : Buffer C α) : Bool :=
  match a.stack, b.stack with
  | some (.values v), some (.values w) =>
    decide (v.leaves.map Block.shape = w.leaves.map Block.shape)
  | _, _ => false

/-- The derivatives of `(x.scaled s).dot y` along `s`, `x` and `y`. Arrays that the inner product
repeats have none. -/
def scaledDotGradient (s : α) (x y : Buffer C α) :
    Checked (Block α × Buffer C α × Buffer C α) := do
  let z ← x.scaled s
  let _ ← z.dot y
  if !z.sameShapes y then misfit
  let (rateZ, rateY) ← z.dotPullback y Scalar.one
  let (rateS, rateX) ← scaledPullback s x rateZ
  return (rateS, rateX, rateY)

end LeastSquares.Buffer
