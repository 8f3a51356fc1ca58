import LeastSquares.Buffer.Basic

/-!
# Collections of vectors

Buffers of vectors under keys: steps and gradients by variable type, residuals by group of
factors. Arithmetic runs over the keys of both operands; a missing or empty buffer stands
for zeros.

An update in place works through its operand buffer by buffer. It is an `Edit`: if it fails,
what was updated before stays.
-/

namespace LeastSquares

/-- A computation that changes an object and keeps its changes when it fails. -/
abbrev Edit (S β : Type) : Type := EStateM Failure S β

instance {S : Type} : MonadLift (Except Failure) (EStateM Failure S) where
  monadLift
    | .ok b => pure b
    | .error e => throw e

abbrev Buffers (C α : Type) : Type := Table (Key C) (Buffer C α)

namespace Buffers

variable {C α : Type} [DecidableEq C] [FactorFamily C] [Scalar α]

/-- The buffer under a key; an empty one if there is none. -/
def buffer (t : Buffers C α) (key : Key C) : Buffer C α := (t.get? key).getD .empty

/-- For each buffer of a list, ours under its key replaced by an image of both. -/
def update (op : Buffer C α → Buffer C α → Checked (Buffer C α)) :
    List (Key C × Buffer C α) → Edit (Buffers C α) Unit
  | [] => pure ()
  | (key, theirs) :: rest => do
    let merged ← op ((← get).buffer key) theirs
    modify (·.insert key merged)
    update op rest

/-- The same buffers, on the device. -/
def onDevice (t : Buffers C α) : Buffers C α := t.map fun _ b => { b with place := .device }

/-- The buffers as results of an operation. -/
def renewed (t : Buffers C α) : Buffers C α := t.map fun _ b => b.renewed

end Buffers

structure Vectors (C α : Type) where
  buffers : Buffers C α

namespace Vectors

variable {C α : Type} [DecidableEq C] [FactorFamily C] [Scalar α]

def empty : Vectors C α := ⟨.empty⟩

def buffer (v : Vectors C α) (key : Key C) : Buffer C α := v.buffers.buffer key

/-- Our keys, then those of the other that are new. -/
def unionKeys (a b : Vectors C α) : List (Key C) :=
  a.buffers.keys ++ b.buffers.keys.filter fun key => !a.buffers.contains key

/-- The buffers of both combined under each key. -/
def zipWith (op : Buffer C α → Buffer C α → Checked (Buffer C α)) (a b : Vectors C α) :
    Checked (Vectors C α) := do
  let buffers ← (a.unionKeys b).foldlM
    (fun out key => do return out.insert key (← op (a.buffer key) (b.buffer key))) Table.empty
  return ⟨buffers⟩

def add (a b : Vectors C α) : Checked (Vectors C α) := zipWith Buffer.add a b

def sub (a b : Vectors C α) : Checked (Vectors C α) := zipWith Buffer.sub a b

/-- Combine in place, buffer by buffer. -/
def updateWith (op : Buffer C α → Buffer C α → Checked (Buffer C α)) (b : Vectors C α) :
    Edit (Vectors C α) Unit := fun a =>
  match Buffers.update op b.buffers.entries a.buffers with
  | .ok () t => .ok () ⟨t⟩
  | .error e t => .error e ⟨t⟩

def increase (b : Vectors C α) : Edit (Vectors C α) Unit := updateWith Buffer.add b

def decrease (b : Vectors C α) : Edit (Vectors C α) Unit := updateWith Buffer.sub b

def scaled (v : Vectors C α) (s : α) : Checked (Vectors C α) := do
  return ⟨← v.buffers.mapM fun _ b => b.scaled s⟩

def neg (v : Vectors C α) : Checked (Vectors C α) := v.scaled (-Scalar.one)

/-- The sum of the inner products under the common keys. -/
def dot (a b : Vectors C α) : Checked α :=
  a.buffers.entries.foldlM
    (fun total (key, ours) =>
      if b.buffers.contains key then do
        return total + (← ours.dot (b.buffer key)).value
      else return total)
    Scalar.zero

def squaredNorm (v : Vectors C α) : Checked α := v.dot v

/-- Whether the vectors under all of the keys are equal; the first difference decides. -/
def equalUnder (a b : Vectors C α) : List (Key C) → Checked Bool
  | [] => .ok true
  | key :: rest => do
    if ← (a.buffer key).equal (b.buffer key) then a.equalUnder b rest else return false

def equal (a b : Vectors C α) : Checked Bool := a.equalUnder b (a.unionKeys b)

/-- The vectors at a handle. A handle into a missing or empty buffer reads a zero vector, and one
into a tuple of arrays reads a part of the tuple. -/
def read (v : Vectors C α) (h : Handle (Item α)) : Checked (Found α) := do
  let b := v.buffer (.type h.type)
  if b.isEmpty then return ⟨.ofBlock (.zeros [h.type.tangentDim]), .clamped⟩
  match b.stack, h.index with
  | some (.values (.node .tuple parts)), .int i
  | some (.values (.node .list parts)), .int i => do
    let k ← fitting (Access.locate .checked parts.length i)
    return ⟨← fitting parts[k]?, b.place.access⟩
  | _, _ =>
    let rows ← b.rows
    let found ← fitting (rows.take? b.place.access (← b.place.places h.index))
    return ⟨.ofBlock found, b.place.access⟩

/-- Vectors added into the rows at a handle; rows addressed twice receive both. -/
def scatterAdd (v : Vectors C α) (h : Handle (Item α)) (vectors : Block α) :
    Checked (Vectors C α) := do
  let key := Key.type h.type
  let b := v.buffer key
  require (.accumulator h.type.name) (!b.isEmpty)
  let rows ← fitting ((← b.rows).putAdd? (← Residence.device.places h.index) vectors)
  return ⟨v.buffers.insert key (b.holding (.values (.ofBlock rows)) .device)⟩

end Vectors

end LeastSquares
