import LeastSquares.Graph.Event
import LeastSquares.Graph.Linear

/-!
# Factor graphs

The objective as stacks of factors, one per group, in the order in which the groups came.
The error is the sum over all factors; residuals, gradient and linearisation are those of
the factors that have residuals.
-/

namespace LeastSquares

/-- Stacks of factors, by group. -/
structure FactorGraph (C α : Type) where
  buffers : Buffers C α

namespace FactorGraph

variable {C α : Type} [DecidableEq C] [FactorFamily C] [Scalar α]

def empty : FactorGraph C α := ⟨.empty⟩

/-- The event that a factor opens a stack, if its group has none. -/
def opening (g : FactorGraph C α) (f : FactorLiteral C α) : Option (Event α) :=
  let group := GroupKey.ofItems f
  if (g.buffers.buffer (.group group)).isEmpty then
    some (.stackCreated group.name (Content.factors f.kind).name)
  else none

/-- The graph with one more factor, at the end of the stack of its group. -/
def insert (g : FactorGraph C α) (f : FactorLiteral C α) : Checked (FactorGraph C α) := do
  let key := Key.group (GroupKey.ofItems f)
  let old := g.buffers.buffer key
  let base :=
    if old.isEmpty then { Buffer.empty with content := some (.factors f.kind), place := .host }
    else old
  return ⟨g.buffers.insert key (← base.appendFactor f)⟩

def factorCount (g : FactorGraph C α) : Checked Nat :=
  g.buffers.entries.foldlM (fun n e => do return n + (← e.2.count)) 0

def error (g : FactorGraph C α) (read : Reader α) : Checked α :=
  g.buffers.entries.foldlM
    (fun total (_, b) => do return total + (← (← b.factors).stackError read))
    Scalar.zero

/-- The sum of the errors of the factors that have residuals. -/
def residualError (g : FactorGraph C α) (read : Reader α) : Checked α :=
  g.buffers.entries.foldlM
    (fun total (_, b) => do
      if b.hasResiduals then return total + (← (← b.factors).stackError read)
      else return total)
    Scalar.zero

/-- The residuals of all groups that have them. -/
def residuals (g : FactorGraph C α) (read : Reader α) : Checked (Vectors C α) := do
  return ⟨← g.buffers.filterMapM fun key b => do
    if b.hasResiduals then
      return some (.ofVectors key (← (← b.factors).stackResiduals read))
    else return none⟩

/-- The gradient of the error with respect to a tangent displacement of the store. -/
def gradient (g : FactorGraph C α) (point : Store C α) : Checked (Vectors C α) := do
  g.buffers.entries.foldlM
    (fun out (_, b) => do
      if b.hasResiduals then (← b.factors).stackGradient point.bulk out
      else return out)
    (← point.tangentZeros)

/-- The linear factors, in the tangent displacement of the values read, that agree to first order
with the factors that have residuals. Groups keep their keys. -/
def linearStacks (g : FactorGraph C α) (read : Reader α) : Checked (Buffers C α) :=
  g.buffers.filterMapM fun _ b => do
    if b.hasResiduals then
      let linear ← (← b.factors).stackLinearized read
      return some (Buffer.of (.factors linear) (.factors linear.kind))
    else return none

def linearize (g : FactorGraph C α) (point : Store C α) : Checked (LinearGraph C α) := do
  return ⟨← g.linearStacks point.bulk, ← point.tangentZeros⟩

/-- The event that the graph was linearised into stacks of so many groups. -/
def linearizedEvent (g : FactorGraph C α) (groups : Nat) : Checked (Event α) := do
  return .linearized (← g.factorCount) groups

end FactorGraph

end LeastSquares
