import LeastSquares.Manifold.Planar
import LeastSquares.Manifold.Spatial
import LeastSquares.Array.Tensor

/-!
# The Lie groups

The four groups of motions under one name. An element is a row of parameters and a tangent
vector a row of coordinates; an array may hold any number of them along its leading axes, and
an operation on two arrays repeats the shorter one. Some operations also take rows that are too
short or too long: a coordinate past the end of a row is its last one, and coordinates that are
not asked for are left out.
-/

namespace LeastSquares

inductive LieGroup where
  | so2
  | se2
  | so3
  | se3
  deriving DecidableEq

namespace LieGroup

def name : LieGroup → String
  | so2 => "SO2"
  | se2 => "SE2"
  | so3 => "SO3"
  | se3 => "SE3"

def paramDim : LieGroup → Nat
  | so2 => 2
  | se2 => 4
  | so3 => 4
  | se3 => 7

def tangentDim : LieGroup → Nat
  | so2 => 1
  | se2 => 3
  | so3 => 3
  | se3 => 6

/-- The dimension of the space that the group moves. -/
def spaceDim : LieGroup → Nat
  | so2 => 2
  | se2 => 2
  | so3 => 3
  | se3 => 3

section Rows

variable {α : Type} [Scalar α]

/-! ## Rows -/

/-- The parameters of the element that moves nothing. -/
def identity : LieGroup → List α
  | so2 => SO2.identity.params
  | se2 => SE2.identity.params
  | so3 => SO3.identity.params
  | se3 => SE3.identity.params

def mulRow : LieGroup → (Nat → α) → (Nat → α) → List α
  | so2, a, b => ((SO2.read a).mul (SO2.read b)).params
  | se2, a, b => ((SE2.read a).mul (SE2.read b)).params
  | so3, a, b => ((SO3.read a).mul (SO3.read b)).params
  | se3, a, b => ((SE3.read a).mul (SE3.read b)).params

def inverseRow : LieGroup → (Nat → α) → List α
  | so2, a => (SO2.read a).inverse.params
  | se2, a => (SE2.read a).inverse.params
  | so3, a => (SO3.read a).inverse.params
  | se3, a => (SE3.read a).inverse.params

def expRow : LieGroup → (Nat → α) → List α
  | so2, d => (SO2.exp (d 0)).params
  | se2, d => (SE2.exp (Twist2.read d)).params
  | so3, d => (SO3.exp (Vec3.read d)).params
  | se3, d => (SE3.exp (Twist3.read d)).params

def logRow : LieGroup → (Nat → α) → List α
  | so2, a => [(SO2.read a).log]
  | se2, a => (SE2.read a).log.coordinates
  | so3, a => (SO3.read a).log.coordinates
  | se3, a => (SE3.read a).log.coordinates

def applyRow : LieGroup → (Nat → α) → (Nat → α) → List α
  | so2, a, p => ((SO2.read a).apply (Vec2.read p)).coordinates
  | se2, a, p => ((SE2.read a).apply (Vec2.read p)).coordinates
  | so3, a, p => ((SO3.read a).apply (Vec3.read p)).coordinates
  | se3, a, p => ((SE3.read a).apply (Vec3.read p)).coordinates

end Rows

/-! ## The lengths of rows -/

/-- The lengths of rows that stand left in a product. The translation of a motion may have one
coordinate for all axes. -/
def fitsLeft : LieGroup → Nat → Bool
  | so2, n => n = 2
  | se2, n => n = 3 || n = 4
  | so3, n => 1 ≤ n
  | se3, n => n = 5 || n = 7

/-- The lengths of rows that stand right in a product. -/
def fitsRight : LieGroup → Nat → Bool
  | so2, n => n = 1 || n = 2
  | se2, n => n = 4
  | so3, n => 1 ≤ n
  | se3, n => n = 7

/-- The lengths of rows that have an inverse. -/
def fitsInverse : LieGroup → Nat → Bool
  | so2, n => n = 1 || n = 2
  | se2, n => n = 4
  | so3, n => n = 1 || n = 4
  | se3, n => n = 7

variable {α : Type} [Scalar α]

/-! ## Arrays -/

def mul? (g : LieGroup) (a b : Tensor α) : Option (Tensor α) :=
  if a.shape ≠ [] ∧ b.shape ≠ [] ∧ g.fitsLeft a.width ∧ g.fitsRight b.width then
    a.zipRows? g.paramDim g.mulRow b
  else none

def inverse? (g : LieGroup) (a : Tensor α) : Option (Tensor α) :=
  if g.fitsInverse a.width then some (a.mapRows g.paramDim g.inverseRow) else none

def exp? (g : LieGroup) (d : Tensor α) : Option (Tensor α) :=
  if d.shape ≠ [] ∧ d.width = g.tangentDim then some (d.mapRows g.paramDim g.expRow) else none

def log? (g : LieGroup) (a : Tensor α) : Option (Tensor α) :=
  if a.shape ≠ [] ∧ a.width = g.paramDim then some (a.mapRows g.tangentDim g.logRow) else none

def images? (g : LieGroup) (a p : Tensor α) : Option (Tensor α) :=
  if a.shape ≠ [] ∧ p.shape ≠ [] ∧ a.width = g.paramDim ∧ p.width = g.spaceDim then
    a.zipRows? g.spaceDim g.applyRow p
  else none

/-- The elements reached along tangent vectors. -/
def moved? (g : LieGroup) (a d : Tensor α) : Option (Tensor α) := do
  g.mul? a (← g.exp? d)

/-- The tangent vectors from elements to others. -/
def difference? (g : LieGroup) (a b : Tensor α) : Option (Tensor α) := do
  g.log? (← g.mul? (← g.inverse? a) b)

end LieGroup

end LeastSquares
