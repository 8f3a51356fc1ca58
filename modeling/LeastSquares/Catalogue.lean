import LeastSquares.Factor.Evaluation

/-!
# A catalogue of factor classes

Classes that are added to those of the library: affine residuals, errors without a residual,
a bent valley, sightings of a landmark, a residual scaled by a label, a class with a rule of
its own for linearising stacks, and a difference given with its transpose. With them comes
`PairVariable`, the variable type of tuples.
-/

namespace LeastSquares

inductive Catalogue where
  /-- The residual `A x + B y - b`. -/
  | affine
  /-- An error that does not depend on any variable. -/
  | constant
  /-- The residual that is one in every coordinate. -/
  | constantResidual
  /-- The weighted sum of the absolute coordinates, as an error without a residual. -/
  | absolute
  /-- The residual `s (x₁ - x₀²), 1 - x₀`. -/
  | rosenbrock
  /-- The difference of a point, seen from a pose, from where it was sighted. -/
  | landmark
  /-- The residual `(label + 1) x - b`. -/
  | labelScaled
  /-- The residual `k x - b`, with half its slope where stacks are linearised. -/
  | batch
  /-- The residual `x - y - b`. -/
  | difference
  deriving DecidableEq

namespace Catalogue

/-- A pair of a number and a point of the plane; the default is `(1, (2, 3))`. -/
def pairVariable : VariableType :=
  .euclidean "PairVariable" ⟨.node .tuple [.leaf [], .leaf [2]], [1, 2, 3]⟩

def name : Catalogue → String
  | affine => "AffineFactor"
  | constant => "ConstantFactor"
  | constantResidual => "ConstantResidualFactor"
  | absolute => "AbsFactor"
  | rosenbrock => "RosenbrockFactor"
  | landmark => "LandmarkFactor"
  | labelScaled => "LabelScaledFactor"
  | batch => "BatchFactor"
  | difference => "DiffFactor"

def fieldNames : Catalogue → List String
  | affine => ["A", "B", "b"]
  | constant => ["value"]
  | constantResidual => []
  | absolute => ["weight"]
  | rosenbrock => ["s"]
  | landmark => ["z"]
  | labelScaled => ["b"]
  | batch => ["k", "b"]
  | difference => ["b"]

def rank : Catalogue → Rank
  | constant | absolute => .scalar
  | difference => .gaussian
  | _ => .vector

section Rules

variable {ι α : Type} [Scalar α]

/-- The fields of a factor, each one array. -/
def arrays (f : Factor Catalogue ι (Block α)) : Checked (List (Block α)) :=
  f.fields.mapM fun field => fitting field.single?

def points (values : List (Found α)) : Checked (List (Block α)) := values.mapM (·.array)

def coordinate (x : Found α) (i : Int) : Checked (Block α) := do
  fitting ((← x.array).take? x.access (.int i))

/-- The coordinates of points as seen from poses. -/
def seenFrom (pose : Value α) (p : Block α) : Checked (Block α) := do
  let (g, a) ← fitting pose.group?
  return .reals (← fitting (g.images? (← fitting (g.inverse? a)) p.toReals))

def weight (label : Block α) : Checked (Block α) := fitting (label.add? (.int 1))

def error (c : Catalogue) (f : Factor Catalogue ι (Block α)) (values : List (Found α)) :
    Checked (Block α) := do
  match c, ← arrays f with
  | constant, [value] => return value
  | absolute, [weight] =>
    match ← points values with
    | [x] => fitting (weight.mul? x.abs.sum)
    | _ => misfit
  | _, _ => misfit

def residual (c : Catalogue) (f : Factor Catalogue ι (Block α)) (values : List (Found α)) :
    Checked (Block α) := do
  match c, ← arrays f, values with
  | affine, [a, b, c], [x, y] =>
    let left ← fitting (a.matmul? (← x.array))
    let right ← fitting (b.matmul? (← y.array))
    fitting ((← fitting (left.add? right)).sub? c)
  | constantResidual, [], [x] =>
    fitting ((Block.full [1] Scalar.one).add? ((← x.array).scaled Scalar.zero))
  | rosenbrock, [s], [x] =>
    let x0 ← coordinate x 0
    let x1 ← coordinate x 1
    let bend ← fitting (x1.sub? (← fitting (x0.mul? x0)))
    let rest ← fitting ((Block.int 1).sub? x0)
    fitting (Block.stack? [← fitting (s.mul? bend), rest])
  | landmark, [z], [pose, p] => fitting ((← seenFrom pose.value (← p.array)).sub? z)
  | labelScaled, [b], [label, x] =>
    fitting ((← fitting ((← weight (← label.array)).mul? (← x.array))).sub? b)
  | batch, [k, b], [x] => fitting ((← fitting (k.mul? (← x.array))).sub? b)
  | difference, [b], [x, y] =>
    fitting ((← fitting ((← x.array).sub? (← y.array))).sub? b)
  | _, _, _ => misfit

/-- A factor scaled by a label is affine once the label is known. -/
def labelComponent (f : Factor Catalogue ι (Block α)) (values : List (Found α)) :
    Checked (Component Catalogue ι α) := do
  match f.handles, ← arrays f, values with
  | [_, handle], [b], [label, x] =>
    let n ← fitting b.shape.head?
    let slope ← fitting ((← weight (← label.array)).mul? (.identity n))
    let fields := [slope, .zeros [n, n], b].map Tree.leaf
    return (⟨.client affine, [handle, handle], fields⟩, [x, x])
  | _, _, _ => misfit

/-- Numbers spread over the diagonals of square matrices. -/
def onDiagonal (n : Nat) (k : Block α) : Checked (Block α) := do
  let diagonal : Tensor Bool := .generate [n, n] fun i => i / n = i % n
  return .reals (← fitting (diagonal.zipWith?
    (fun onIt x => if onIt then x else Scalar.zero) k.toReals))

/-- One number per factor, with more axes of extent one behind the first. -/
def perFactor (axes : Nat) (k : Block α) : Checked (Block α) := do
  let n :: rest := k.shape | misfit
  fitting (k.reshaped? (n :: List.replicate axes 1 ++ rest))

/-- The rule of the class with half the slope of its residual. -/
def batchLinear (f : FactorStack Catalogue α) (values : List (Found α)) :
    Checked (FactorStack Catalogue α) := do
  match ← arrays f, values with
  | [k, b], [x] =>
    let n ← fitting b.shape.getLast?
    let slope ← onDiagonal n ((← perFactor 2 k).scaled Scalar.half)
    let image ← fitting ((← perFactor 1 k).mul? (← x.array))
    let error ← fitting (b.sub? image)
    return ⟨.jacobian, f.handles, [.node .tuple [.leaf slope], .leaf error]⟩
  | _, _ => misfit

def forward (_ : Factor Catalogue ι (Block α)) (values : List (Found α)) :
    Checked (Block α) := do
  match ← points values with
  | [x, y] => fitting (x.sub? y)
  | _ => misfit

def adjoint (_ : Factor Catalogue ι (Block α)) (y : Block α) : Checked (List (Block α)) := do
  return [y, ← fitting y.neg?]

end Rules

instance : FactorFamily Catalogue where
  name := name
  fieldNames := fieldNames
  rank := rank
  error c := error c
  residual c := residual c
  component
    | labelScaled => some labelComponent
    | _ => none
  forward _ := forward
  adjoint _ := adjoint
  linearize
    | batch => some batchLinear
    | _ => none
  tuples := some pairVariable

end Catalogue

end LeastSquares
