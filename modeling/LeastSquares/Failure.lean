/-!
# Failures

What can stop an operation: operands that do not fit it, or a rule of this library that does
not hold. Each rule has a message, empty where it has nothing to add.
-/

namespace LeastSquares

/-- The rules that operations check. Names and descriptions are carried as they are
printed. -/
inductive Rule where
  /-- Only a buffer with storage can be indexed. -/
  | readStored
  /-- Only a buffer with storage has elements to replace. -/
  | replaceStored
  | elementStructure (content : String)
  | vectorContent (content : String)
  | sameContent (left right : String)
  | sameCount (left right : Nat)
  | tangentContent (content : String)
  /-- Scalar Jacobians belong to at least one element. -/
  | someElement
  /-- Rows are added only into rows that are there. -/
  | accumulator (type : String)
  /-- A handle is read from a store with values of its type. -/
  | storedType (type : String)
  /-- A handle is read from a store with as many values. -/
  | handleInRange (handle : String) (count : Nat)
  /-- Values of a type can be listed if the store has that type. -/
  | listedType
  /-- Only values with a tangent space are moved. -/
  | movable
  | stepCount (type : String) (step stored : Nat)
  | inferable (kind : String)
  /-- The dimension of a vector type is an integer. -/
  | integerDimension
  | differentiable (factor : String)
  | undamped (type : String)
  | noiseDimension
  | squareCovariance
  /-- A residual whitened by a diagonal has its shape. -/
  | residualShape
  /-- The ends of a relative motion have one type. -/
  | sameVariableType
  /-- The ends of a relative motion are group elements. -/
  | groupVariable
  /-- A relative motion is an element of the group of its ends. -/
  | groupValue
  /-- A motion is chosen by a discrete label. -/
  | discreteLabel
  /-- There is a motion to choose. -/
  | someMovement
  deriving DecidableEq

/-- What is said when a rule does not hold. -/
def Rule.message : Rule → String
  | readStored => "Cannot index into an empty buffer."
  | elementStructure content =>
    s!"Element structure does not match the contents of {content}."
  | vectorContent content => s!"Vector operation on a buffer with {content}."
  | sameContent left right => s!"Mismatched element types: {left} and {right}."
  | sameCount left right => s!"Mismatched buffer lengths: {left} and {right}."
  | tangentContent content =>
    s!"Scalar Jacobians are only defined for tangent vectors, not {content}."
  | accumulator type => s!"No accumulator for {type}."
  | storedType type => s!"No values of type {type} in this store."
  | handleInRange handle count =>
    s!"{handle} is out of range for a store with {count} values of that type."
  | stepCount type step stored =>
    s!"Step for {type} has {step} entries, but {stored} values are stored."
  | inferable kind =>
    s!"Could not infer a variable type for value of type {kind}; pass " ++
      "\x60variable_type\x60 explicitly."
  | differentiable factor => s!"{factor} is connected to a non-differentiable variable."
  | undamped type =>
    s!"Scalar Jacobian factors for {type} were already added to this graph."
  | noiseDimension => "Noise model dimension must match the variable's tangent dimension."
  | squareCovariance => "Covariance must be a square matrix!"
  | replaceStored | someElement | listedType | movable | integerDimension | residualShape
  | sameVariableType | groupVariable | groupValue | discreteLabel | someMovement => ""

/-- Why an operation gave no result. -/
inductive Failure where
  /-- The operands do not fit the operation: shapes, kinds, or a place that is not there. -/
  | misfit
  | broken (rule : Rule)
  deriving DecidableEq

abbrev Checked (β : Type) : Type := Except Failure β

/-- The result of a partial operation whose operands may not fit. -/
def fitting {β : Type} : Option β → Checked β
  | some b => .ok b
  | none => .error .misfit

/-- Goes on only if the rule holds. -/
def require (rule : Rule) (holds : Bool) : Checked Unit :=
  if holds then .ok () else .error (.broken rule)

def misfit {β : Type} : Checked β := .error .misfit

end LeastSquares
