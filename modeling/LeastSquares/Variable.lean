import LeastSquares.Array.Listing
import LeastSquares.Value.Item

/-!
# Variables

A variable type is a manifold: a way to store its points as values and to move them along
tangent vectors. A handle addresses one value, or several, of a type.
-/

namespace LeastSquares

/-- The default value of a Euclidean type: its parts and their coordinates. -/
structure Pattern where
  /-- The parts, with the shape of each array. -/
  shapes : Tree Shape
  /-- The coordinates of all parts in one row. -/
  coordinates : List Int
  deriving DecidableEq

/-- A type of variables. -/
inductive VariableType where
  /-- Elements of a group of motions, moved in their own frame. -/
  | lie (g : LieGroup)
  /-- Vectors with so many coordinates. -/
  | real (dim : Nat)
  /-- Labels. They have no tangent space. -/
  | discrete
  /-- Values with parts, moved coordinate by coordinate. -/
  | euclidean (name : String) (default : Pattern)
  deriving DecidableEq

namespace VariableType

def name : VariableType → String
  | lie g => g.name ++ "Variable"
  | real n => s!"RealVectorVariable[{n}]"
  | discrete => "DiscreteVariable"
  | euclidean name _ => name

/-- Values of the type have a tangent space. -/
def isDifferentiable : VariableType → Bool
  | discrete => false
  | _ => true

/-- The parts of a value and their shapes. -/
def shapes : VariableType → Tree Shape
  | lie g => .node (.group g) [.leaf [g.paramDim]]
  | real n => .leaf [n]
  | discrete => .leaf []
  | euclidean _ pattern => pattern.shapes

/-- The number of coordinates of a value. -/
def paramDim (t : VariableType) : Nat := totalExtent (t.shapes.leaves.map Shape.volume)

def tangentDim : VariableType → Nat
  | lie g => g.tangentDim
  | discrete => 0
  | t => t.paramDim

variable {α : Type} [Scalar α]

/-- A value from its coordinates. -/
def unflatten (t : VariableType) (flat : Block α) : Checked (Value α) :=
  Value.unflatten t.shapes flat

/-- The default value. -/
def default (t : VariableType) : Checked (Value α) :=
  match t with
  | lie g => .ok (Value.ofGroup g (.vector (g.identity.toArray)))
  | real n => .ok (Value.ofBlock (.zeros [n]))
  | discrete => .ok (Value.ofBlock (.int 0))
  | euclidean _ pattern =>
    t.unflatten (.vector (pattern.coordinates.map Scalar.ofInt))

end VariableType

/-! ## Manifolds -/

namespace VariableType

variable {α : Type} [Scalar α]

/-- The value reached from `x` along a tangent vector. The parts of a value of a Lie type are
moved each in its own way, groups or not. -/
def retract (t : VariableType) (x d : Value α) : Checked (Value α) :=
  match t with
  | lie _ => fitting (x.moved? d)
  | discrete => .ok x
  | t => do
    let flat ← x.flatten
    t.unflatten (← fitting (flat.add? (← d.array)))

/-- The tangent vector at `x` along which `y` is reached. Of parts that are no groups, a Lie
type takes the difference from `y`. -/
def localCoordinates (t : VariableType) (x y : Value α) : Checked (Value α) :=
  match t with
  | lie _ => fitting (x.difference? y)
  | _ => do
    let target ← y.flatten
    return .ofBlock (← fitting (target.sub? (← x.flatten)))

/-- What a value is called when no variable type fits it. -/
def kindName : Literal α → String
  | .leaf (.array .host _) => "<class 'numpy.ndarray'>"
  | .leaf (.array .device _) => "<class 'Array'>"
  | .leaf (.int _) => "<class 'int'>"
  | .leaf (.bool _) => "<class 'bool'>"
  | .leaf (.real _) => "<class 'float'>"
  | .leaf (.text _) => "<class 'str'>"
  | .absent => "<class 'NoneType'>"
  | .node .tuple _ => "<class 'tuple'>"
  | .node .list _ => "<class 'list'>"
  | .node (.fields _) _ => "<class 'dict'>"
  | .node _ _ => "<class 'object'>"

/-- The type that a value has by itself: group elements, tuples if a type is registered for
them, integers, and vectors of scalars. -/
def infer (tuples : Option VariableType) (x : Literal α) : Checked VariableType :=
  match x with
  | .node (.group g) _ => .ok (lie g)
  | .leaf (.int _) | .leaf (.bool _) => .ok discrete
  | .node .tuple _ => fittingType tuples
  | .leaf (.array _ b) =>
    match b, b.shape with
    | .ints _, [] => .ok discrete
    | .reals _, [n] => .ok (real n)
    | _, _ => fittingType none
  | _ => fittingType none
where
  fittingType : Option VariableType → Checked VariableType
    | some t => .ok t
    | none => .error (.broken (.inferable (kindName x)))

end VariableType

/-- The type of vectors with as many coordinates as a number says. The truth values count as
one and zero. -/
def VariableType.ofDim {α : Type} (dim : Literal α) : Checked VariableType :=
  match dim with
  | .leaf (.int n) => if n < 0 then misfit else return .real n.toNat
  | .leaf (.bool b) => return .real (if b then 1 else 0)
  | .node .list _ | .node (.fields _) _ => misfit
  | _ => .error (.broken .integerDimension)

/-! ## Handles -/

/-- The address of values in a store: their type and an index, or a list of indices. -/
structure Handle (β : Type) where
  type : VariableType
  index : β

/-- The handle as it is printed. -/
def Handle.text {α : Type} (h : Handle (Item α)) : String :=
  let index := match h.index with
    | .int i => toString i
    | .bool b => if b then "True" else "False"
    | .array _ (.ints t) => listing (t.map toString)
    | .array _ (.bools t) => listing (t.map fun b => if b then " True" else "False")
    | _ => "[]"
  "TypedHandle(" ++ h.type.name ++ ", " ++ index ++ ")"

end LeastSquares
