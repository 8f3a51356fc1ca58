import LeastSquares.Graph.Bulk

/-!
# Linear graphs

The least-squares problem of a graph whose factors have affine residuals `A x - b`. The map
`A` and its transpose are applied factor by factor. A template of zero vectors fixes the
variables: results of the transpose are added up in a copy of it.
-/

namespace LeastSquares

/-- Stacks of factors with affine residuals, by group, and the template. -/
structure LinearGraph (C α : Type) where
  buffers : Buffers C α
  template : Vectors C α

namespace Buffer

variable {C α : Type} [FactorFamily C]

/-- The stack of factors that a buffer holds. -/
def factors (b : Buffer C α) : Checked (FactorStack C α) :=
  match b.content, b.stack with
  | some (.factors _), some (.factors f) => .ok f
  | _, _ => misfit

/-- The buffer holds factors with a residual. -/
def hasResiduals (b : Buffer C α) : Bool :=
  match b.content with
  | some (.factors kind) => kind.hasResidual
  | _ => false

end Buffer

namespace LinearGraph

variable {C α : Type} [DecidableEq C] [FactorFamily C] [Scalar α]

/-- The vectors of each group, by a function of its stack. -/
def overGroups (g : LinearGraph C α) (rule : FactorStack C α → Checked (Block α)) :
    Checked (Vectors C α) := do
  return ⟨← g.buffers.mapM fun key b => do
    return .ofVectors key (← rule (← b.factors))⟩

/-- The residuals `A x - b`. -/
def residuals (g : LinearGraph C α) (read : Reader α) : Checked (Vectors C α) :=
  g.overGroups (Factor.stackResiduals read)

/-- The image `A x`. -/
def forward (g : LinearGraph C α) (read : Reader α) : Checked (Vectors C α) :=
  g.overGroups (Factor.stackForward read)

/-- The image of `y` under the transpose of `A`. Groups on which `y` is empty add nothing. -/
def adjoint (g : LinearGraph C α) (y : Buffers C α) : Checked (Vectors C α) :=
  g.buffers.entries.foldlM
    (fun out (key, b) => do
      let vectors := y.buffer key
      if vectors.isEmpty then return out
      (← b.factors).stackAdjoint (← vectors.rows) out)
    g.template

def error (g : LinearGraph C α) (read : Reader α) : Checked α := do
  return Scalar.half * (← (← g.residuals read).squaredNorm)

/-- A factor `s x` added, in place, for every vector of a list of template buffers. -/
def dampAlong (s : α) : List (Key C × Buffer C α) → Edit (LinearGraph C α) Unit
  | [] => pure ()
  | (key, zeros) :: rest => do
    let (group, jacobians) ← zeros.jacobians s
    let .type type := key | throw .misfit
    require (.undamped type.name) (!(← get).buffers.contains (.group group))
    modify fun g => { g with buffers := g.buffers.insert (.group group) jacobians }
    dampAlong s rest

/-- A factor `s x` added, in place, for every variable of the template. -/
def damp (s : α) : Edit (LinearGraph C α) Unit := do
  dampAlong s (← get).template.buffers.entries

/-- The graph with a factor `s x` for every variable. -/
def damped (g : LinearGraph C α) (s : α) : Checked (LinearGraph C α) :=
  match damp s g with
  | .ok () h => .ok h
  | .error e _ => .error e

end LinearGraph

end LeastSquares
