import LeastSquares.Factor.Family

/-!
# Residuals and errors

What the classes of this library compute from the values of their variables: residual,
error, the part that is differentiable in all variables, and for affine residuals the linear
part and its transpose.
-/

namespace LeastSquares

namespace Value

variable {α : Type} [Scalar α]

/-- The tangent vector that leads from the relative motion of two elements to a third
motion. -/
def betweenResidual (a b expected : Value α) : Checked (Block α) := do
  let (g, p) ← fitting a.group?
  let (h, q) ← fitting b.group?
  let (k, r) ← fitting expected.group?
  if h ≠ g ∨ k ≠ g then misfit
  let relative ← fitting (g.mul? (← fitting (g.inverse? p)) q)
  return .reals (← fitting (g.difference? relative r))

end Value

namespace Factor

variable {C ι α : Type} [DecidableEq C] [FactorFamily C] [Scalar α]

/-- The image of a variable under its block of a Jacobian, added to a total. -/
def addImage (total : Block α) : Value α × Found α → Checked (Block α)
  | (j, x) => do
    let image ← fitting ((← j.array).mulVec? (← x.array))
    fitting (total.add? image)

/-- The sum of the images of several variables under the blocks of a Jacobian. -/
def jacobianForward (jacobians : List (Value α)) (values : List (Found α)) :
    Checked (Block α) :=
  (jacobians.zip values).foldlM addImage (.int 0)

def forward (f : Factor C ι (Block α)) (values : List (Found α)) : Checked (Block α) :=
  match f.kind, f.fields, values with
  | .jacobian, [.node _ jacobians, _], values => jacobianForward jacobians values
  | .scalarJacobian, [scalar], [x] => do
    fitting ((← Value.array scalar).mul? (← x.array))
  | .client c, _, values =>
    if FactorFamily.rank c = .gaussian then FactorFamily.forward c f values else misfit
  | _, _, _ => misfit

/-- The transpose of the linear part, applied to a vector of the residual space: a tangent
vector for each variable. -/
def adjoint (f : Factor C ι (Block α)) (y : Block α) : Checked (List (Block α)) :=
  match f.kind, f.fields with
  | .jacobian, [.node _ jacobians, _] =>
    jacobians.mapM fun j => do fitting (y.vecMul? (← Value.array j))
  | .scalarJacobian, [scalar] => do
    return [← fitting ((← Value.array scalar).mul? y)]
  | .client c, _ =>
    if FactorFamily.rank c = .gaussian then FactorFamily.adjoint c f y else misfit
  | _, _ => misfit

/-- The factor on the relative motion of two variables that a label chooses, and the values
of the two. -/
def chosenBetween (f : Factor C ι (Block α)) (values : List (Found α)) :
    Checked (Component C ι α) :=
  match f.handles, f.fields, values with
  | [start, _, stop], [movements, noise], [a, label, b] => do
    let movement ← Value.take .clamped movements (← label.array)
    return (⟨.between, [start, stop], [movement, noise]⟩, [a, b])
  | _, _, _ => misfit

/-- The whitened residual of a relative motion. -/
def betweenError (f : Factor C ι (Block α)) (values : List (Found α)) : Checked (Block α) :=
  match f.fields, values with
  | [expected, noise], [a, b] => do
    let noise ← fitting (Noise.ofTree? noise)
    noise.whiten (← a.value.betweenResidual b.value expected)
  | _, _ => misfit

def residual (f : Factor C ι (Block α)) (values : List (Found α)) : Checked (Block α) :=
  match f.kind, f.fields, values with
  | .jacobian, [_, error], values => do
    let image ← f.forward values
    fitting (image.sub? (← Value.array error))
  | .scalarJacobian, _, values => f.forward values
  | .prior, [mu, noise], [x] => do
    let type ← fitting f.types.head?
    let noise ← fitting (Noise.ofTree? noise)
    noise.whiten (← (← type.localCoordinates mu x.value).array)
  | .between, _, values => f.betweenError values
  | .switchingBetween, _, values => do
    let (between, values) ← f.chosenBetween values
    between.betweenError values
  | .client c, _, values =>
    if FactorFamily.rank c = .scalar then misfit else FactorFamily.residual c f values
  | _, _, _ => misfit

def halfSquaredNorm (r : Block α) : Checked (Block α) := do
  return (← fitting (r.mul? r)).sum.scaled Scalar.half

/-- The contribution to the objective. -/
def error (f : Factor C ι (Block α)) (values : List (Found α)) : Checked (Block α) :=
  match f.kind with
  | .client c =>
    if FactorFamily.rank c = .scalar then FactorFamily.error c f values
    else do halfSquaredNorm (← f.residual values)
  | _ => do halfSquaredNorm (← f.residual values)

/-- Every connected variable has a tangent space. -/
def checkDifferentiable (f : Factor C ι (Block α)) : Checked Unit :=
  require (.differentiable f.kind.name) (f.types.all (·.isDifferentiable))

/-- The part that is differentiable in all its variables, with their values. Labels are
baked into it. -/
def component (f : Factor C ι (Block α)) (values : List (Found α)) :
    Checked (Component C ι α) :=
  match f.kind with
  | .switchingBetween => f.chosenBetween values
  | .client c =>
    match FactorFamily.component c with
    | some rule => rule f values
    | none =>
      if FactorFamily.rank c = .scalar then misfit
      else do
        f.checkDifferentiable
        return (f, values)
  | _ => do
    f.checkDifferentiable
    return (f, values)

end Factor

end LeastSquares
