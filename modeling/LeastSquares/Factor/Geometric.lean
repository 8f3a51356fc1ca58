import LeastSquares.Factor.Basic

/-!
# Factors of geometry

Priors on variables and relative motions between them. Making one checks that its parts
belong together.
-/

namespace LeastSquares

namespace Factor

variable {C α : Type} [Scalar α]

/-- A prior whose noise has the dimension of the variable. -/
def prior (handle : Handle (Item α)) (mu : Literal α) (noise : Noise α) :
    Checked (FactorLiteral C α) := do
  require .noiseDimension (handle.type.tangentDim = (← noise.residualDim))
  return ⟨.prior, [handle], [mu, noise.tree (Item.array .device)]⟩

/-- A relative motion of two elements of one group. -/
def between (start stop : Handle (Item α)) (motion : Literal α) (noise : Noise α) :
    Checked (FactorLiteral C α) := do
  require .sameVariableType (start.type = stop.type)
  match start.type with
  | .lie g =>
    let inGroup := match motion with
      | .node (.group h) _ => h = g
      | _ => false
    require .groupValue inGroup
    return ⟨.between, [start, stop], [motion, noise.tree (Item.array .device)]⟩
  | _ => .error (.broken .groupVariable)

/-- A relative motion chosen by a label. -/
def switching (start label stop : Handle (Item α)) (movements : List (Literal α))
    (noise : Noise α) : Checked (FactorLiteral C α) := do
  require .sameVariableType (start.type = stop.type)
  require .discreteLabel (label.type = .discrete)
  require .someMovement (!movements.isEmpty)
  let movements ← Literal.stack 0 movements
  return ⟨.switchingBetween, [start, label, stop], [movements, noise.tree (Item.array .device)]⟩

end Factor

end LeastSquares
