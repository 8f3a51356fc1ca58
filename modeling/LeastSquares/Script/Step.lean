import LeastSquares.Script.Given
import LeastSquares.Solver.GradientDescent
import LeastSquares.Solver.LevenbergMarquardt

/-!
# Steps of a script

A script works on named objects. Names refer to objects, so a step that changes an object in
place is seen through all of its names.
-/

namespace LeastSquares

/-- The second operand of arithmetic: an object or a plain number. -/
inductive Operand (α : Type) where
  | object (name : String)
  | number (x : Item α)

/-- Arithmetic on two operands. -/
inductive Arithmetic where
  | add
  | sub
  | dot
  | eq
  | ne
  | increase
  | decrease
  | same
  deriving DecidableEq

/-- What a factor is asked for, at the values of a collection. -/
inductive FactorQuery where
  | values
  | error
  | residual
  | component
  | linearized
  | forward
  deriving DecidableEq

def FactorQuery.suits (query : FactorQuery) (rank : Rank) : Bool :=
  match query with
  | values | error => true
  | residual | component | linearized => rank ≠ .scalar
  | forward => rank = .gaussian

/-- What a graph is asked for, at a store or at vectors. -/
inductive GraphQuery where
  | error
  /-- The error of the factors with residuals. -/
  | residualError
  | residuals
  | gradient
  | linearize
  | forward
  | adjoint
  deriving DecidableEq

def GraphQuery.suitsNonlinear : GraphQuery → Bool
  | forward | adjoint => false
  | _ => true

def GraphQuery.suitsLinear : GraphQuery → Bool
  | residualError | gradient | linearize => false
  | _ => true

/-- One step. The strings are names of objects. A new store or graph has its name before its first
element is added. -/
inductive Step (C α : Type) where
  -- variable types
  | typeInfo (t : VariableType)
  | realType (dim : Literal α)
  | infer (x : Given α)
  | handleText (h : GivenHandle α)
  | retract (t : VariableType) (x : Given α) (d : Literal α)
  | localCoordinates (t : VariableType) (x y : Given α)
  | flatten (x : Given α)
  | unflatten (t : VariableType) (flat : Literal α)
  -- noise models and values
  | noise (n : GivenNoise α)
  | whiten (n : GivenNoise α) (residual : Literal α)
  | stack (xs : List (Given α)) (axis : Int)
  | concat (xs : List (Given α)) (axis : Int)
  | index (x : Given α) (i : Int)
  -- buffers
  | newBuffer (b : GivenBuffer C α)
  | append (a : String) (x : Given α)
  | replace (a : String) (i : Literal α) (x : Given α)
  | jacobians (a : String) (s : α)
  | tangentZeros (t : VariableType) (count : Int)
  | sameContent (t u : VariableType)
  | scaledDotGradient (t : VariableType) (s : α) (x y : Literal α)
  -- arithmetic
  | arithmetic (op : Arithmetic) (a : String) (b : Operand α)
  | neg (a : String)
  | squaredNorm (a : String)
  | scaled (a : String) (s : α)
  -- collections
  | dump (a : String)
  | storage (a : String)
  | print (a : String)
  | length (a : String)
  | isEmpty (a : String)
  | keys (a : String)
  | counts (a : String)
  | countsFrom (a : String) (least : Int)
  | contains (a : String) (t : VariableType)
  | buffer (a : String) (t : VariableType)
  | setBuffer (a : String) (t : VariableType) (b : String)
  | copy (a : String)
  | restore (a b : String)
  /-- Take apart into buffers and put together again. -/
  | rebuild (a : String)
  /-- Take over the other's buffers where ours are empty. -/
  | fillEmpty (a b : String)
  | atHandle (a : String) (h : GivenHandle α)
  | atIndex (a : String) (i : Literal α)
  | vectors (entries : List (VariableType × Option (Literal α)))
  | scatterAdd (a : String) (h : GivenHandle α) (vectors : Literal α)
  /-- Vectors with the keys of a collection. -/
  | like (a : String) (entries : List (GivenEntry α))
  -- stores
  | values (name : Option String) (xs : List (Given α))
  | store (a : String) (x : Given α) (t : Option VariableType)
  | write (a : String) (h : GivenHandle α) (x : Given α)
  | stacked (a : String) (t : VariableType)
  | zeros (a : String)
  | move (a b : String)
  | moved (a b : String)
  -- factors
  | factor (x : GivenFactor C α)
  | groupName (x : GivenFactor C α)
  | sameGroup (x y : GivenFactor C α)
  | askFactor (query : FactorQuery) (a point : String)
  | factorAdjoint (a : String) (y : Literal α)
  -- graphs
  | graph (name : Option String) (xs : List (GivenFactor C α))
  | addFactor (a : String) (x : GivenFactor C α)
  | factorCount (a : String)
  | askGraph (query : GraphQuery) (a point : String)
  /-- The derivative of the error of all factors along a displacement of a store. -/
  | derivative (a point : String)
  | template (a : String)
  | damp (a : String) (s : α)
  -- solvers
  | cgls (a x : String) (config : Cgls.Config α)
  | levenbergMarquardt (a point : String) (config : LevenbergMarquardt.Config α)
  | gradientDescent (a point : String) (config : GradientDescent.Config α)

end LeastSquares
