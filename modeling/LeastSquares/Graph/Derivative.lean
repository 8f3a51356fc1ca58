import LeastSquares.Graph.Linear
import LeastSquares.Numeric.Traced

/-!
# The derivative of a whole error

The derivative of the summed errors of all factors along a tangent displacement of a store. It is
taken in two steps: first along the coordinates of the values as they are after a step of zero,
then, value by value, along the coordinates of the step. A type of values whose rows some factor
reads hands down a rate for each of its rows; the rate is zero where no factor reads the row.
-/

namespace LeastSquares

namespace Stack

variable {C α : Type} [Scalar α]

/-- The stack over numbers that depend on no input. -/
def still : Stack C α → Stack C (Traced α)
  | values v => values v.still
  | factors f => factors (f.map (Block.mapReals Traced.const) (Block.mapReals Traced.const))

end Stack

namespace Buffer

variable {C α : Type} [Scalar α]

/-- The buffer over numbers that depend on no input. -/
def still (b : Buffer C α) : Buffer C (Traced α) :=
  { stack := b.stack.map Stack.still, content := b.content, place := b.place }

end Buffer

namespace Block

variable {α : Type}

/-- Scalars as the inputs `start`, `start + 1`, …; whatever else depends on no input. -/
def asInputs [Scalar α] (start : Nat) : Block α → Block (Traced α)
  | .reals t => .reals (.generate t.shape fun k => .input (start + k) (t.entry k))
  | b => b.mapReals Traced.const

end Block

namespace Value

variable {α : Type} [Scalar α]

/-- The number of cells of all leaves. -/
def volume (v : Value α) : Nat := totalExtent (v.leaves.map fun b => b.shape.volume)

/-- The value with its coordinates as inputs, counted from `start`. -/
def asInputs (v : Value α) (start : Nat) : Checked (Value (Traced α)) := do
  let starts := offsets (v.leaves.map fun b => b.shape.volume) start
  let (w, _) ← fitting (v.refill? ((v.leaves.zip starts).map fun (b, k) => b.asInputs k))
  return w

/-- The cells of row `i` of every leaf of a stack whose coordinates are counted from `start`. -/
def rowPlaces (v : Value α) (start i : Nat) : List Nat :=
  let starts := offsets (v.leaves.map fun b => b.shape.volume) start
  (v.leaves.zip starts).flatMap fun (b, k) =>
    let size := Shape.volume b.shape.tail
    (List.range size).map fun c => k + i * size + c

end Value

namespace Buffers

variable {C α : Type} [DecidableEq C] [FactorFamily C] [Scalar α]

def errors (t : Buffers C α) (read : Reader α) : Checked (List α) := do
  let errors ← t.entries.mapM fun (_, b) => do (← b.factors).stackErrors read
  return errors.flatten

/-- Values of one type that have been moved by a step of zero: where they came from, and where
their coordinates are counted from. -/
structure Moved (C α : Type) where
  key : Key C
  type : VariableType
  before : Value α
  after : Value α
  start : Nat

/-- The values that a step moves, and the number of all their coordinates. -/
def movedValues (before after : Buffers C α) (keys : List (Key C)) :
    Checked (List (Moved C α) × Nat) := do
  let (list, n) ← keys.foldlM
    (fun (list, start) key => do
      match (before.buffer key).content, (before.buffer key).stack, (after.buffer key).stack with
      | some (.values t), some (.values v), some (.values w) =>
        return (⟨key, t, v, w, start⟩ :: list, start + w.volume)
      | _, _, _ => misfit)
    ([], 0)
  return (list.reverse, n)

/-- Two lists of rates added; a rate that is missing in both stays so. -/
def addRates (a b : Array (Option α)) : Array (Option α) :=
  Array.zipWith
    (fun
      | c, none => c
      | c, some d => some (Traced.plus c d))
    a b

/-- The rates along the coordinates of values, handed down to the coordinates of the step that
moves them. -/
def stepRates (m : Moved C α) (rates : Array (Option α)) : Checked (Block α) := do
  let n ← m.before.rowCount
  let dim := m.type.tangentDim
  let touched := (List.range m.after.volume).any fun k => (rates.getD (m.start + k) none).isSome
  if !touched then return .zeros [n, dim]
  let d := Value.ofBlock (displacement dim 0)
  let rows ← (List.range n).mapM fun i => do
    let moved ← m.type.retract (m.before.row i).still d
    let results := moved.leaves.flatMap fun b => b.toReals.cells.toList
    let received := (m.after.rowPlaces m.start i).map fun k =>
      (rates.getD k none).getD Scalar.zero
    return Traced.derivatives dim (results.zip received)
  return .reals (.generate [n, dim] fun k => (rows.getD (k / dim) #[]).getD (k % dim) Scalar.zero)

/-- The derivative of the errors of all factors along a tangent displacement of a store. -/
def derivative (t : Buffers C α) (point : Store C α) : Checked (Vectors C α) := do
  let zeros ← point.tangentZeros
  let after ← point.moved zeros.buffers
  let (moved, n) ← movedValues point.buffers after.buffers zeros.buffers.keys
  let still : Buffers C (Traced α) := after.buffers.map fun _ b => b.still
  let store : Buffers C (Traced α) ← moved.foldlM
    (fun s m => do
      let v ← m.after.asInputs m.start
      return s.insert m.key (.of (.values v) (.values m.type)))
    still
  let factors : Buffers C (Traced α) := t.map fun _ b => b.still
  let errors ← factors.errors (Store.bulk ⟨store⟩)
  let rates := errors.foldl
    (fun sum e => addRates sum (Traced.slopes n [(e, Scalar.one)])) (Array.replicate n none)
  let buffers ← moved.mapM fun m => do
    return (m.key, Buffer.ofVectors (.type m.type) (← stepRates m rates))
  return ⟨Table.ofList buffers⟩

end Buffers

end LeastSquares
