import LeastSquares.Buffer.Store
import LeastSquares.Factor.Derivative

/-!
# Stacks of factors

What a stack of factors computes, one factor at a time, from the values that a reader finds
at their handles. Indices of a stack are not checked against the store: one outside is moved
to the nearest place when it is read, and what is added there is lost.
-/

namespace LeastSquares

/-- A way to find the values at a handle. -/
abbrev Reader (α : Type) : Type := Handle (Item α) → Checked (Found α)

/-- The handle of one factor in a stack, or the handles in one slot of a stack. -/
def Handle.inStack {α : Type} (h : Handle (Block α)) : Handle (Item α) :=
  ⟨h.type, .array .device h.index⟩

section Readers

variable {C α : Type} [DecidableEq C] [FactorFamily C] [Scalar α]

/-- Reading values for a stack. -/
def Store.bulk (s : Store C α) : Reader α :=
  let s : Store C α := ⟨s.buffers.onDevice⟩
  s.read

/-- Reading tangent vectors for a stack. -/
def Vectors.bulk (v : Vectors C α) : Reader α :=
  let v : Vectors C α := ⟨v.buffers.onDevice⟩
  v.read

end Readers

namespace Factor

variable {C α : Type} [DecidableEq C] [FactorFamily C] [Scalar α]

/-- The values at the handles of a stack, or of one factor of a stack. -/
def values (read : Reader α) (f : FactorStack C α) : Checked (List (Found α)) :=
  f.handles.mapM fun h => read h.inStack

/-- A function of each factor of a stack and the values of its variables. -/
def overRows {β : Type} (read : Reader α) (stack : FactorStack C α)
    (rule : FactorStack C α → List (Found α) → Checked β) : Checked (List β) := do
  (← stack.rows).mapM fun f => do rule f (← f.values read)

def stackErrors (read : Reader α) (stack : FactorStack C α) : Checked (List α) := do
  return (← stack.overRows read error).map fun e => e.sum.value

def stackError (read : Reader α) (stack : FactorStack C α) : Checked α := do
  return (← stack.stackErrors read).foldl (· + ·) Scalar.zero

/-- The residuals, as rows of one array. -/
def stackResiduals (read : Reader α) (stack : FactorStack C α) : Checked (Block α) := do
  fitting (Block.stack? (← stack.overRows read residual))

def stackForward (read : Reader α) (stack : FactorStack C α) : Checked (Block α) := do
  fitting (Block.stack? (← stack.overRows read forward))

/-- The rule by which a class linearises stacks, if it has one of its own. -/
def stackRule? (kind : FactorClass C) : Option (StackRule C) :=
  match kind with
  | .client c => FactorFamily.linearize c
  | _ => none

/-- The linear factors that approximate the stack. -/
def stackLinearized (read : Reader α) (stack : FactorStack C α) : Checked (FactorStack C α) :=
  match stackRule? stack.kind with
  | some rule => do rule stack (← stack.values read)
  | none => do fitting (stack? (← stack.overRows read linearized))

/-- One slot of a stack: the type of its variables, and each factor's index and vector. -/
structure Slot (α : Type) where
  type : VariableType
  parts : List (Block α × Block α)

/-- The contributions of all factors, slot by slot. Each is a list of handles, one per slot,
with the vector for it; the types are those of the first factor. -/
def slots (contributions : List (List (Handle (Block α) × Block α))) : List (Slot α) :=
  match contributions with
  | [] => []
  | first :: _ =>
    first.zipIdx.map fun ((h, _), k) =>
      ⟨h.type, contributions.filterMap fun row => row[k]?.map fun (h, v) => (h.index, v)⟩

/-- The vectors of a slot added into the rows that its indices address. -/
def Slot.addInto (slot : Slot α) (into : Vectors C α) : Checked (Vectors C α) := do
  let index ← fitting (Block.stack? (slot.parts.map (·.1)))
  let vectors ← fitting (Block.stack? (slot.parts.map (·.2)))
  into.scatterAdd (Handle.inStack ⟨slot.type, index⟩) vectors

/-- The contributions of all factors added up, slot by slot. -/
def accumulate (contributions : List (List (Handle (Block α) × Block α)))
    (into : Vectors C α) : Checked (Vectors C α) := do
  let sum ← (slots contributions).foldlM (fun out slot => slot.addInto out) into
  return ⟨sum.buffers.renewed⟩

/-- The gradients of the errors added up by variable. -/
def stackGradient (read : Reader α) (stack : FactorStack C α) (into : Vectors C α) :
    Checked (Vectors C α) := do
  let contributions ← stack.overRows read fun f values => do
    let (part, values) ← f.component values
    return part.handles.zip (← part.errorGradient values)
  accumulate contributions into

/-- The transposes of the linear parts, applied row by row to `y` and added up by
variable. -/
def stackAdjoint (stack : FactorStack C α) (y : Block α) (into : Vectors C α) :
    Checked (Vectors C α) := do
  let rows ← stack.rows
  if y.shape.head? ≠ some rows.length then misfit
  let contributions ← rows.zipIdx.mapM fun (f, i) => do
    return f.handles.zip (← f.adjoint (y.row i))
  accumulate contributions into

end Factor

end LeastSquares
