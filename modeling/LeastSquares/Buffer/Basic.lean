import LeastSquares.Buffer.Table
import LeastSquares.Factor.Evaluation

/-!
# Buffers

A buffer holds elements of one kind in one stack of arrays: values of a variable type,
vectors that belong to the variables of a type or to the factors of a group, or factors of a
class. What it holds is its content. A buffer without a stack is empty; in vector arithmetic
it stands for a zero of whatever shape is asked for.

Buffers are values, but a buffer that is kept can be told from others that hold the same: it has
a serial number, which it takes along when an operation hands it on as it is. A buffer that an
operation makes has none.
-/

namespace LeastSquares

/-- What the elements of a buffer belong to. -/
inductive Key (C : Type) where
  | type (t : VariableType)
  | group (g : GroupKey C)
  deriving DecidableEq

/-- What the elements of a buffer are. -/
inductive Content (C : Type) where
  /-- Values of a type. -/
  | values (t : VariableType)
  /-- Tangent vectors of a type, or residuals of a group. -/
  | vectors (key : Key C)
  /-- Factors of a class. -/
  | factors (kind : FactorClass C)
  deriving DecidableEq

/-- Elements of one kind, one array per leaf. -/
inductive Stack (C α : Type) where
  | values (v : Value α)
  | factors (f : FactorStack C α)

/-- Elements of one kind, or none. -/
structure Buffer (C α : Type) where
  stack : Option (Stack C α)
  content : Option (Content C)
  place : Residence
  serial : Option Nat := none

section Names

variable {C : Type} [FactorFamily C]

def Key.name : Key C → String
  | type t => t.name
  | group g => g.name

def Content.name : Content C → String
  | values t => "ValueArrayDispatch(" ++ t.name ++ ")"
  | vectors key => "VectorArrayDispatch(" ++ key.name ++ ")"
  | factors kind =>
    let operations := match kind.rank with
      | .scalar => "FactorArrayDispatch"
      | .vector => "VectorFactorArrayDispatch"
      | .gaussian => "GaussianFactorArrayDispatch"
    operations ++ "(" ++ kind.name ++ ")"

def Content.text : Option (Content C) → String
  | some c => c.name
  | none => "None"

end Names

/-- The places that an index names in an array. A list of places that is no array on the device
serves for arrays on the host only. -/
def Residence.places {α : Type} [Scalar α] (place : Residence) (i : Item α) :
    Checked (Block α) :=
  match place, i with
  | device, .array .host _ => misfit
  | _, .int _ | _, .array _ _ => fitting i.block?
  | _, _ => misfit

namespace Stack

variable {C α : Type} [Scalar α]

/-- The number of elements: the extent of the leading axis of the first array. There must be
one. -/
def count : Stack C α → Checked Nat
  | values v => do fitting (← fitting v.leaves.head?).shape.head?
  | factors f => f.count

def take (place : Residence) (s : Stack C α) (i : Item α) : Checked (Stack C α) :=
  let taken (b : Block α) : Checked (Block α) := do
    fitting (b.take? place.access (← place.places i))
  match s with
  | values v => do return values (← v.traverse taken)
  | factors f => do return factors (← f.traverse taken taken)

end Stack

namespace Buffer

variable {C α : Type} [DecidableEq C] [FactorFamily C] [Scalar α]

def empty : Buffer C α := { stack := none, content := none, place := .device }

instance : Inhabited (Buffer C α) := ⟨empty⟩

def of (stack : Stack C α) (content : Content C) : Buffer C α :=
  { stack := some stack, content := some content, place := .device }

def holding (b : Buffer C α) (stack : Stack C α) (place : Residence) : Buffer C α :=
  { stack := some stack, content := b.content, place := place }

/-- The buffer as the result of an operation. -/
def renewed (b : Buffer C α) : Buffer C α := { b with place := .device, serial := none }

def ofVectors (key : Key C) (rows : Block α) : Buffer C α :=
  of (.values (.ofBlock rows)) (.vectors key)

def isEmpty (b : Buffer C α) : Bool := b.stack.isNone

def count (b : Buffer C α) : Checked Nat :=
  match b.stack with
  | none => .ok 0
  | some s => s.count

/-- The array that is the whole stack. -/
def rows (b : Buffer C α) : Checked (Block α) :=
  match b.stack with
  | some (.values v) => v.array
  | _ => misfit

def get (b : Buffer C α) (i : Item α) : Checked (Stack C α) :=
  match b.stack with
  | none => .error (.broken .readStored)
  | some s => s.take b.place i

/-! ## Growing and changing -/

/-- The rule that new elements have the structure of those stored. -/
def structureRule (b : Buffer C α) : Rule := .elementStructure (Content.text b.content)

/-- The buffer with one more value at the end. An empty tree leaves an empty buffer empty. -/
def append (b : Buffer C α) (x : Literal α) : Checked (Buffer C α) := do
  let x ← fitting (Literal.value? x)
  let row := x.map Block.lifted
  match b.stack with
  | none =>
    match row with
    | .absent => return { b with serial := none }
    | _ => return b.holding (.values row) .host
  | some (.values v) =>
    require b.structureRule (v.outline = row.outline)
    let v ← fitting (v.zip? Block.append? row)
    return b.holding (.values v) .host
  | some (.factors _) => .error (.broken b.structureRule)

/-- The buffer with one more factor at the end. -/
def appendFactor (b : Buffer C α) (x : FactorLiteral C α) : Checked (Buffer C α) := do
  let x ← fitting x.stored?
  let row := x.map Block.lifted Block.lifted
  match b.stack with
  | none => return b.holding (.factors row) .host
  | some (.factors f) =>
    require b.structureRule
      (f.kind = row.kind ∧ f.types = row.types ∧ f.outlines = row.outlines)
    let f ← fitting (f.zip? Block.append? row)
    return b.holding (.factors f) .host
  | some (.values _) => .error (.broken b.structureRule)

/-- The buffer with the elements at an index replaced. The new element may have more parts
below a leaf of the stack than the leaf has. -/
def replace (b : Buffer C α) (i : Item α) (x : Literal α) : Checked (Buffer C α) := do
  match b.stack with
  | none => .error (.broken .replaceStored)
  | some (.values v) =>
    let put (leaf : Block α) (part : Literal α) : Option (Block α) := do
      leaf.put? (← (Residence.device.places i).toOption) (← Literal.block? part)
    let v ← fitting (v.graft? put x)
    return b.holding (.values v) .device
  | some (.factors _) => misfit

/-! ## Vector arithmetic -/

def checkVectors (b : Buffer C α) : Checked Unit :=
  match b.content with
  | some (.vectors _) => .ok ()
  | other => .error (.broken (.vectorContent (Content.text other)))

def checkContent (a b : Buffer C α) : Checked Unit := do
  a.checkVectors
  require (.sameContent (Content.text a.content) (Content.text b.content))
    (a.content = b.content)

/-- Both buffers hold as many vectors of one key. -/
def checkCompatible (a b : Buffer C α) : Checked Unit := do
  a.checkContent b
  let m ← a.count
  let n ← b.count
  require (.sameCount m n) (m = n)

/-- Two stacks combined array by array. -/
def combine (op : Block α → Block α → Option (Block α)) (a b : Buffer C α) :
    Checked (Buffer C α) := do
  a.checkCompatible b
  match a.stack, b.stack with
  | some (.values v), some (.values w) =>
    return a.holding (.values (← fitting (v.zip? op w))) .device
  | _, _ => misfit

def add (a b : Buffer C α) : Checked (Buffer C α) :=
  if a.isEmpty then .ok b
  else if b.isEmpty then .ok a
  else combine Block.add? a b

def scaled (b : Buffer C α) (s : α) : Checked (Buffer C α) :=
  match b.stack with
  | none => .ok b
  | some stack => do
    b.checkVectors
    match stack with
    | .values v => return b.holding (.values (v.map (Block.scaled s))) .device
    | .factors _ => misfit

def neg (b : Buffer C α) : Checked (Buffer C α) := b.scaled (-Scalar.one)

def sub (a b : Buffer C α) : Checked (Buffer C α) :=
  if b.isEmpty then .ok a
  else if a.isEmpty then b.neg
  else combine Block.sub? a b

/-- The sum of the products of paired arrays. -/
def dotLeaves (xs ys : List (Block α)) : Checked (Block α) :=
  (xs.zip ys).foldlM
    (fun total (x, y) => do
      let product ← fitting (x.mul? y)
      fitting (total.add? product.sum))
    (.int 0)

/-- The inner product. It is zero with an empty buffer. -/
def dot (a b : Buffer C α) : Checked (Block α) :=
  if a.isEmpty || b.isEmpty then .ok (.real Scalar.zero)
  else do
    a.checkCompatible b
    match a.stack, b.stack with
    | some (.values v), some (.values w) => dotLeaves v.leaves w.leaves
    | _, _ => misfit

def squaredNorm (b : Buffer C α) : Checked (Block α) := b.dot b

def isZero (b : Buffer C α) : Checked Bool := do
  b.checkVectors
  match b.stack with
  | some (.values v) => return v.leaves.all Block.isZero
  | _ => misfit

/-- Whether two buffers hold the same vectors; an empty one equals zeros. -/
def equal (a b : Buffer C α) : Checked Bool :=
  match a.isEmpty, b.isEmpty with
  | true, true => .ok true
  | true, false => b.isZero
  | false, true => a.isZero
  | false, false => do
    a.checkContent b
    if (← a.count) ≠ (← b.count) then return false
    match a.stack, b.stack with
    | some (.values v), some (.values w) =>
      let equal ← (v.leaves.zip w.leaves).mapM fun (x, y) => fitting (x.equal? y)
      return equal.all id
    | _, _ => misfit

/-! ## Tangent vectors -/

/-- Zero tangent vectors for `count` values of a type. -/
def tangentZeros (t : VariableType) (count : Nat) : Buffer C α :=
  ofVectors (.type t) (.zeros [count, t.tangentDim])

/-- Factors `s x`, one for each variable that the vectors belong to, and their group. -/
def jacobians (b : Buffer C α) (s : α) : Checked (GroupKey C × Buffer C α) := do
  let some (.vectors key) := b.content |
    .error (.broken (.vectorContent (Content.text b.content)))
  let n ← b.count
  let .type t := key | .error (.broken (.tangentContent (Content.text b.content)))
  require .someElement (0 < n)
  let stack : FactorStack C α :=
    ⟨.scalarJacobian, [⟨t, .range n⟩], [.leaf (.full [n] s)]⟩
  let group := GroupKey.ofBlocks (stack.row 0)
  return (group, of (.factors stack) (.factors .scalarJacobian))

end Buffer

end LeastSquares
