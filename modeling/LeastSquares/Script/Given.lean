import LeastSquares.Buffer.Vectors
import LeastSquares.Factor.Geometric

/-!
# Descriptions

How a script describes values, noise models, handles, factors, buffers and collections of
vectors, and what each of them is then.
-/

namespace LeastSquares

namespace Literal

variable {α : Type} [Scalar α]

/-- The array of a description by nested lists. -/
def arrayOf (x : Literal α) : Checked (Block α) := fitting x.block?

/-- The stack of a description in which each part of a tuple describes an array, a tuple or
nothing. -/
def stackOf : Literal α → Checked (Value α)
  | .node .tuple cs => do return .node .tuple (← all cs)
  | .absent => .ok .absent
  | x => do return .leaf (← arrayOf x)
where
  all : List (Literal α) → Checked (List (Value α))
    | [] => .ok []
    | c :: cs => do
      let v ← stackOf c
      return v :: (← all cs)

/-- The places of a description by one integer or by a list of them. -/
def placesOf (x : Literal α) : Checked (Item α) :=
  match x with
  | .leaf i => .ok i
  | x => do
    let b ← arrayOf x
    return .array .host (if b.shape.volume = 0 then .ints b.toInts else b)

end Literal

/-- The description of a value. Arrays are given by nested lists of numbers. -/
inductive Given (α : Type) where
  /-- A rotation of the plane by an angle. -/
  | angle (theta : α)
  /-- A motion of the plane by a translation and an angle. -/
  | planar (x y theta : α)
  /-- The exponential of a tangent vector. -/
  | exponential (g : LieGroup) (tangent : Literal α)
  /-- A group element by its raw parameters. -/
  | parameters (g : LieGroup) (params : Literal α)
  | array (place : Residence) (cells : Literal α)
  | pair (first second : Literal α)
  | bare (x : Literal α)

def Given.build {α : Type} [Scalar α] : Given α → Checked (Literal α)
  | angle theta => .ok (onDevice (.ofGroup .so2 (.vector (SO2.exp theta).params.toArray)))
  | planar x y theta =>
    let motion : SE2 α := ⟨SO2.exp theta, ⟨x, y⟩⟩
    .ok (onDevice (.ofGroup .se2 (.vector motion.params.toArray)))
  | exponential g tangent => do
    let d ← Literal.arrayOf tangent
    return onDevice (.ofGroup g (← fitting (g.exp? d.toReals)))
  | parameters g params => do
    return onDevice (.ofGroup g (← Literal.arrayOf params).toReals)
  | array place cells => do return .leaf (.array place (← Literal.arrayOf cells))
  | pair first second => do
    let parts := [← Literal.arrayOf first, ← Literal.arrayOf second]
    return onDevice (.node .tuple (parts.map Value.ofBlock))
  | bare x => .ok x
where
  onDevice (v : Value α) : Literal α := v.map (Item.array .device)

inductive GivenNoise (α : Type) where
  | identity (dim : Int)
  | variances (diagonal : Literal α)
  | diagonal (root : Literal α)
  | covariance (matrix : Literal α)
  | root (matrix : Literal α)

def GivenNoise.build {α : Type} [Scalar α] : GivenNoise α → Checked (Noise α)
  | identity dim => if dim < 0 then misfit else return .identity dim.toNat
  | variances d => do return .ofVariances (← Literal.arrayOf d)
  | diagonal r => do return .diagonal (← Literal.arrayOf r)
  | covariance m => do Noise.ofCovariance (← Literal.arrayOf m)
  | root m => do return .full (← Literal.arrayOf m)

/-- The description of a handle: an index, or a list of indices. -/
structure GivenHandle (α : Type) where
  type : VariableType
  index : Literal α

def GivenHandle.build {α : Type} [Scalar α] (h : GivenHandle α) : Checked (Handle (Item α)) :=
  match h.index with
  | .leaf x => return ⟨h.type, x⟩
  | x => do return ⟨h.type, .array .device (← Literal.arrayOf x)⟩

/-- The description of a factor. A prior connects the first handle of the list, a relative motion
the first two. -/
inductive GivenFactor (C α : Type) where
  | prior (handles : List (GivenHandle α)) (mu : Given α) (noise : GivenNoise α)
  | between (handles : List (GivenHandle α)) (motion : Given α) (noise : GivenNoise α)
  | switching (handles : List (GivenHandle α)) (movements : List (Given α))
    (noise : GivenNoise α)
  | jacobian (handles : List (GivenHandle α)) (jacobians : List (Literal α))
    (error : Literal α)
  | scalarJacobian (handles : List (GivenHandle α)) (scalar : Literal α)
  | client (c : C) (handles : List (GivenHandle α)) (fields : List (Literal α))

def GivenFactor.build {C α : Type} [Scalar α] : GivenFactor C α → Checked (FactorLiteral C α)
  | prior handles mu noise => do
    match ← handles.mapM (·.build) with
    | h :: _ => Factor.prior h (← mu.build) (← noise.build)
    | _ => misfit
  | between handles motion noise => do
    match ← handles.mapM (·.build) with
    | a :: b :: _ => Factor.between a b (← motion.build) (← noise.build)
    | _ => misfit
  | switching handles movements noise => do
    let handles ← handles.mapM (·.build)
    let movements ← movements.mapM (·.build)
    let noise ← noise.build
    match handles with
    | [a, label, b] => Factor.switching a label b movements noise
    | _ => misfit
  | jacobian handles jacobians error => do
    let handles ← handles.mapM (·.build)
    let jacobians ← jacobians.mapM array
    return ⟨.jacobian, handles, [.node .tuple jacobians, ← array error]⟩
  | scalarJacobian handles scalar => do
    return ⟨.scalarJacobian, ← handles.mapM (·.build), [← array scalar]⟩
  | client c handles fields => do
    return ⟨.client c, ← handles.mapM (·.build), ← fields.mapM array⟩
where
  array (x : Literal α) : Checked (Literal α) := do
    return .leaf (.array .device (← Literal.arrayOf x))

/-! ## Buffers -/

inductive GivenContent (C α : Type) where
  | vectors (t : VariableType)
  | values (t : VariableType)
  /-- Residuals of the group of a factor. -/
  | residuals (f : GivenFactor C α)

inductive GivenBuffer (C α : Type) where
  | zero
  /-- A buffer with one array, with a tuple of parts, or with nothing. -/
  | holding (content : GivenContent C α) (storage : Option (Literal α))

section

variable {C α : Type} [DecidableEq C] [FactorFamily C] [Scalar α]

def GivenContent.build : GivenContent C α → Checked (Content C)
  | vectors t => return .vectors (.type t)
  | values t => return .values t
  | residuals f => do return .vectors (.group (GroupKey.ofItems (← f.build)))

def GivenBuffer.build : GivenBuffer C α → Checked (Buffer C α)
  | zero => return .empty
  | holding content storage => do
    let content ← content.build
    match storage with
    | none => return { Buffer.empty with content := some content }
    | some x => return .of (.values (← Literal.stackOf x)) content

/-- Vectors by variable type; nothing stands for an empty buffer. -/
def Vectors.ofRows (entries : List (VariableType × Option (Literal α))) :
    Checked (Vectors C α) := do
  let entries ← entries.mapM fun (t, rows) => do
    match rows with
    | none => return (Key.type t, Buffer.empty)
    | some x =>
      return (Key.type t, .of (.values (← Literal.stackOf x)) (.vectors (.type t)))
  return ⟨Table.ofList entries⟩

end

inductive GivenEntry (α : Type) where
  | rows (cells : Literal α)
  | empty
  | omitted

/-- Vectors with the keys and contents of other buffers and new storage, entry by entry. -/
def Vectors.refilled {C α : Type} [DecidableEq C] [FactorFamily C] [Scalar α]
    (t : Buffers C α) (entries : List (GivenEntry α)) : Checked (Vectors C α) := do
  let kept ← (t.entries.zip entries).filterMapM fun ((key, b), entry) => do
    match entry with
    | .omitted => return none
    | .empty => return some (key, Buffer.empty)
    | .rows x => return some (key, b.holding (.values (← Literal.stackOf x)) .device)
  return ⟨Table.ofList kept⟩

end LeastSquares
