import LeastSquares.Factor.Basic

/-!
# Classes of factors

What a class of factors can do. Every factor has an error; most define it by a residual
vector, as half its squared norm; for some the residual is affine, and they give its linear
part and the transpose of that. A client adds classes through `FactorFamily`, by functions
that work over any scalars.
-/

namespace LeastSquares

/-- How much a class tells about its error. -/
inductive Rank where
  | scalar
  | vector
  /-- A residual, its linear part and the transpose of that. -/
  | gaussian
  deriving DecidableEq

/-- A part of a factor that is differentiable in all its variables, and their values. -/
abbrev Component (C ι α : Type) : Type := Factor C ι (Block α) × List (Found α)

/-- A function of a factor and the values of its variables, over any scalars. -/
def FactorRule (C : Type) (Result : Type → Type → Type) : Type 1 :=
  {ι α : Type} → [Scalar α] → Factor C ι (Block α) → List (Found α) → Checked (Result ι α)

/-- A function of a factor and a vector of its residual space: a tangent vector for each
variable. -/
def AdjointRule (C : Type) : Type 1 :=
  {ι α : Type} → [Scalar α] → Factor C ι (Block α) → Block α → Checked (List (Block α))

/-- A function of a stack of factors and the values at its handles: a stack of linear
factors. -/
def StackRule (C : Type) : Type 1 :=
  {α : Type} → [Scalar α] → FactorStack C α → List (Found α) → Checked (FactorStack C α)

/-- Further classes of factors. Each function is asked only of classes of its rank. -/
class FactorFamily (C : Type) where
  name : C → String
  fieldNames : C → List String
  rank : C → Rank
  /-- The error of a class that has no residual. -/
  error : C → FactorRule C fun _ => Block
  residual : C → FactorRule C fun _ => Block
  /-- The differentiable part; a class without this rule is its own. -/
  component : C → Option (FactorRule C (Component C))
  /-- The linear part of the residual. -/
  forward : C → FactorRule C fun _ => Block
  /-- The transpose of the linear part. -/
  adjoint : C → AdjointRule C
  /-- Linear factors in place of those of a stack; a class without this rule is linearised by
  its derivatives. -/
  linearize : C → Option (StackRule C)
  /-- The variable type of values that are tuples. -/
  tuples : Option VariableType

namespace FactorClass

variable {C : Type} [FactorFamily C]

def name : FactorClass C → String
  | jacobian => "JacobianFactor"
  | scalarJacobian => "ScalarJacobianFactor"
  | prior => "PriorFactor"
  | between => "BetweenFactor"
  | switchingBetween => "SwitchingBetweenFactor"
  | client c => FactorFamily.name c

def fieldNames : FactorClass C → List String
  | jacobian => ["jacobians", "error"]
  | scalarJacobian => ["scalar"]
  | prior => ["mu", "noise_model"]
  | between => ["T_a_b", "noise_model"]
  | switchingBetween => ["movements", "noise_model"]
  | client c => FactorFamily.fieldNames c

def rank : FactorClass C → Rank
  | jacobian | scalarJacobian => .gaussian
  | prior | between | switchingBetween => .vector
  | client c => FactorFamily.rank c

/-- Factors of the class have a residual. -/
def hasResidual (k : FactorClass C) : Bool := k.rank ≠ .scalar

end FactorClass

/-- A group is printed as its class and variable types. Distinct groups may read alike. -/
def GroupKey.name {C : Type} [FactorFamily C] (k : GroupKey C) : String :=
  k.kind.name ++ "[" ++ ", ".intercalate (k.types.map (·.name)) ++ "]"

end LeastSquares
