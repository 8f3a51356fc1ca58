import LeastSquares.Factor.Evaluation
import LeastSquares.Numeric.Traced

/-!
# Derivatives of factors

The gradient of a factor's error and the Jacobian of its residual, with respect to tangent
vectors of its variables at zero. Both come from one evaluation over traced numbers, in which the
coordinates of the tangent vectors are the inputs. A row of the Jacobian is the derivative of
that combination of residuals in which one of them has the coefficient one and all others have
zero. A factor with an affine residual gives its Jacobian by its transpose instead.
-/

namespace LeastSquares

namespace Value

variable {α : Type} [Scalar α]

/-- The value as one that depends on no input. -/
def still (v : Value α) : Value (Traced α) := v.map (Block.mapReals Traced.const)

end Value

/-- The zero tangent vector whose coordinates are the inputs `start`, `start + 1`, … -/
def displacement {α : Type} [Scalar α] (dim start : Nat) : Block (Traced α) :=
  .reals (.generate [dim] fun j => .input (start + j) Scalar.zero)

namespace Factor

variable {C ι α : Type} [DecidableEq C] [FactorFamily C] [Scalar α]

def tangentDims (f : Factor C ι (Block α)) : List Nat := f.types.map (·.tangentDim)

/-- The number of coordinates of all tangent vectors. -/
def tangentSize (f : Factor C ι (Block α)) : Nat := totalExtent f.tangentDims

/-- The variable types, each with the number of the first of its inputs. -/
def inputs (f : Factor C ι (Block α)) : List (VariableType × Nat) :=
  f.types.zip (offsets f.tangentDims 0)

/-- The factor with leaves that depend on no input. -/
def still (f : Factor C ι (Block α)) : Factor C ι (Block (Traced α)) :=
  f.mapFields (Block.mapReals Traced.const)

/-- The values of the variables, moved along tangent vectors whose coordinates are inputs. -/
def movingValues (f : Factor C ι (Block α)) (values : List (Found α)) :
    Checked (List (Found (Traced α))) :=
  (f.inputs.zip values).mapM fun ((type, start), x) => do
    let d := Value.ofBlock (displacement type.tangentDim start)
    return ⟨← type.retract x.value.still d, .clamped⟩

/-- The gradient of the error, split by variable. -/
def errorGradient (f : Factor C ι (Block α)) (values : List (Found α)) :
    Checked (List (Block α)) := do
  let error ← f.still.error (← f.movingValues values)
  let slopes := Traced.derivatives f.tangentSize [(error.value, Scalar.one)]
  return f.inputs.map fun (type, start) =>
    .reals (.generate [type.tangentDim] fun j => slopes.getD (start + j) Scalar.zero)

/-- The rows of a Jacobian: the derivatives of each of `m` results. -/
def jacobianRows (size m : Nat) (results : Tensor (Traced α)) : Array (Array α) :=
  Array.ofFn fun i : Fin m => Traced.derivatives size <| (List.range m).map fun j =>
    (results.entry j, if j = i.val then Scalar.one else Scalar.zero)

/-- The factor with the residual `J d - b` in the displacement `d` of the variables that
agrees to first order with that of `f`. -/
def linearizing (f : Factor C ι (Block α)) (values : List (Found α)) :
    Checked (Factor C ι (Block α)) := do
  let residual ← f.still.residual (← f.movingValues values)
  let [m] := residual.shape | misfit
  let results := residual.toReals
  let rows := jacobianRows f.tangentSize m results
  let jacobians := f.inputs.map fun (type, start) =>
    let n := type.tangentDim
    Tree.leaf <| Block.reals <| .generate [m, n] fun k =>
      (rows.getD (k / n) #[]).getD (start + k % n) Scalar.zero
  let error := .reals (.generate [m] fun i => -(results.entry i).value)
  return ⟨.jacobian, f.handles, [.node .tuple jacobians, .leaf error]⟩

/-- The affine residual of a factor written with an explicit Jacobian, whose rows are the
transpose applied to the rows of the identity matrix. -/
def linearizingAffine (f : Factor C ι (Block α)) (values : List (Found α)) :
    Checked (Factor C ι (Block α)) := do
  let residual ← f.residual values
  let [m] := residual.shape | misfit
  let basis := (Block.identity m).cast residual.kind
  let jacobians ← Value.tabulate m fun i => do
    return .node .tuple ((← f.adjoint (basis.row i)).map Value.ofBlock)
  let error ← fitting residual.neg?
  return ⟨.jacobian, f.handles, [jacobians, .leaf error]⟩

/-- The first-order approximation of a factor around the values of its variables. -/
def linearized (f : Factor C ι (Block α)) (values : List (Found α)) :
    Checked (Factor C ι (Block α)) :=
  match f.kind.rank with
  | .scalar => misfit
  | .gaussian => f.linearizingAffine values
  | .vector => do
    let (part, values) ← f.component values
    part.linearizing values

end Factor

end LeastSquares
