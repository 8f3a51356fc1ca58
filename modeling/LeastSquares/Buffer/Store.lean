import LeastSquares.Buffer.Vectors

/-!
# Stores of values

Values of variables under handles. The values of a type lie in one buffer, in the order in
which they were stored, and the index of a handle is the place there. A store is moved along
tangent vectors type by type, in place.
-/

namespace LeastSquares

/-- Buffers of values, by variable type. -/
structure Store (C α : Type) where
  buffers : Buffers C α

namespace Store

variable {C α : Type} [DecidableEq C] [FactorFamily C] [Scalar α]

def empty : Store C α := ⟨.empty⟩

def buffer (s : Store C α) (key : Key C) : Buffer C α := s.buffers.buffer key

/-- The store with one more value, and its handle. The type is inferred if it is not
given. -/
def insert (s : Store C α) (x : Literal α) (type : Option VariableType) :
    Checked (Store C α × Handle (Item α)) := do
  let type ← match type with
    | some t => pure t
    | none => VariableType.infer (FactorFamily.tuples C) x
  let key := Key.type type
  let old := s.buffer key
  let base :=
    if old.isEmpty then { Buffer.empty with content := some (.values type), place := .host }
    else old
  let count ← base.count
  let grown ← base.append x
  return (⟨s.buffers.insert key grown⟩, ⟨type, .int count⟩)

/-- The buffer that a handle addresses. An integer index must be in range. -/
def checkedBuffer (s : Store C α) (h : Handle (Item α)) : Checked (Buffer C α) := do
  let key := Key.type h.type
  require (.storedType h.type.name) (s.buffers.contains key)
  let b := s.buffer key
  match h.index with
  | .int i =>
    let n ← b.count
    require (.handleInRange h.text n) (0 ≤ i ∧ i < n)
  | _ => pure ()
  return b

def read (s : Store C α) (h : Handle (Item α)) : Checked (Found α) := do
  let b ← s.checkedBuffer h
  match ← b.get h.index with
  | .values v => return ⟨v, b.place.access⟩
  | .factors _ => misfit

def write (s : Store C α) (h : Handle (Item α)) (x : Literal α) : Checked (Store C α) := do
  let b ← s.checkedBuffer h
  return ⟨s.buffers.insert (.type h.type) (← b.replace h.index x)⟩

def stacked (s : Store C α) (type : VariableType) : Checked (Option (Stack C α)) := do
  let key := Key.type type
  require .listedType (s.buffers.contains key)
  return (s.buffer key).stack

/-- Zero tangent vectors for the values that have a tangent space. -/
def tangentZeros (s : Store C α) : Checked (Vectors C α) := do
  let buffers ← s.buffers.filterMapM fun key b =>
    match key with
    | .type t =>
      if t.isDifferentiable then
        match b.content with
        | some (.values u) => return some (Buffer.tangentZeros u (← b.count))
        | _ => misfit
      else return none
    | .group _ => misfit
  return ⟨buffers⟩

/-- Row by row, the values of a stack moved along the rows of a step. -/
def retractRows (type : VariableType) (v step : Value α) : Checked (Value α) := do
  let n ← Value.rowCount (.node .tuple [v, step])
  Value.tabulate n fun i => type.retract (v.row i) (step.row i)

/-- The buffer of one type moved along a step. -/
def movedBuffer (key : Key C) (b step : Buffer C α) : Checked (Buffer C α) := do
  let .type type := key | misfit
  require .movable type.isDifferentiable
  let stored ← b.count
  let given ← step.count
  require (.stepCount type.name given stored) (stored = given)
  match b.content, b.stack, step.stack with
  | some (.values t), some (.values v), some (.values d) =>
    return .of (.values (← retractRows t v d)) (.values t)
  | _, _, _ => misfit

/-- Move type by type along a list of steps, in place; empty steps are passed over. -/
def moveAlong : List (Key C × Buffer C α) → Edit (Store C α) Unit
  | [] => pure ()
  | (key, step) :: rest => do
    if !step.isEmpty then
      let moved ← movedBuffer key ((← get).buffer key) step
      modify fun s => ⟨s.buffers.insert key moved⟩
    moveAlong rest

/-- Move every value along a tangent vector, in place. -/
def move (along : Buffers C α) : Edit (Store C α) Unit := moveAlong along.entries

def moved (s : Store C α) (along : Buffers C α) : Checked (Store C α) :=
  match move along s with
  | .ok () t => .ok t
  | .error e _ => .error e

end Store

end LeastSquares
