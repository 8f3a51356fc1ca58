import LeastSquares.Noise
import LeastSquares.Variable

/-!
# Factors

A factor is a term of the objective: a class, handles of the variables it connects, and
fields. Classes are those of this library and any further ones of a client, taken from a
type `C`. Handles have indices of one type and fields have leaves of another, so that a single
factor keeps its indices as they were given while it is computed with. A stack of factors is a
factor whose indices and leaves have one more axis in front.

Factors of one `GroupKey` can be stacked: they agree in class, variable types, outline of
the fields, and shapes of all leaves.
-/

namespace LeastSquares

inductive FactorClass (C : Type) where
  /-- The affine residual `J x - b`, with one block of `J` per variable. -/
  | jacobian
  /-- The linear residual `c x` of one variable. -/
  | scalarJacobian
  /-- The whitened difference of a variable from a given value. -/
  | prior
  /-- The whitened difference of a relative motion from a given one. -/
  | between
  /-- The whitened difference of a relative motion from one chosen by a label. -/
  | switchingBetween
  /-- A class of the client. -/
  | client (c : C)
  deriving DecidableEq

/-- A factor with indices in `ι` and leaves in `β`. -/
structure Factor (C ι β : Type) where
  kind : FactorClass C
  handles : List (Handle ι)
  fields : List (Tree β)

/-- A factor as it is given. -/
abbrev FactorLiteral (C α : Type) : Type := Factor C (Item α) (Item α)

abbrev FactorStack (C α : Type) : Type := Factor C (Block α) (Block α)

namespace Factor

variable {C ι κ β γ δ : Type}

def types (f : Factor C ι β) : List VariableType := f.handles.map (·.type)

def outlines (f : Factor C ι β) : List (List Mark) := f.fields.map Tree.outline

/-- Each index and each leaf replaced by its image. -/
def map (g : ι → κ) (h : β → γ) (f : Factor C ι β) : Factor C κ γ where
  kind := f.kind
  handles := f.handles.map fun a => ⟨a.type, g a.index⟩
  fields := f.fields.map (Tree.map h)

def mapFields (h : β → γ) (f : Factor C ι β) : Factor C ι γ := f.map id h

/-- Each index and each leaf replaced by its image, if it has one. -/
def traverse {m : Type → Type} [Monad m] (g : ι → m κ) (h : β → m γ) (f : Factor C ι β) :
    m (Factor C κ γ) := do
  let handles ← f.handles.mapM fun a => do return ⟨a.type, ← g a.index⟩
  let fields ← f.fields.mapM (Tree.traverse h)
  return ⟨f.kind, handles, fields⟩

/-- All leaves of a stack: the indices of the handles, then those of the fields. -/
def leaves (f : Factor C β β) : List β :=
  f.handles.map (·.index) ++ f.fields.flatMap Tree.leaves

/-- Two factors of one class, with the same variable types and outlines, combined leaf by
leaf. -/
def zip? [DecidableEq C] (g : β → γ → Option δ) (e : Factor C β β) (f : Factor C γ γ) :
    Option (Factor C δ δ) :=
  if e.kind = f.kind ∧ e.types = f.types ∧ e.fields.length = f.fields.length then do
    let handles ← (e.handles.zip f.handles).mapM fun (h, k) => do
      return ⟨h.type, ← g h.index k.index⟩
    let fields ← (e.fields.zip f.fields).mapM fun (s, t) => s.zip? g t
    return ⟨e.kind, handles, fields⟩
  else none

variable {α : Type} [Scalar α]

/-- The factor to compute with. -/
def ready? (f : FactorLiteral C α) : Option (Factor C (Item α) (Block α)) :=
  f.traverse some Item.block?

/-- The factor as a row of a stack. -/
def stored? (f : FactorLiteral C α) : Option (FactorStack C α) :=
  f.traverse Item.block? Item.block?

def row (f : FactorStack C α) (i : Nat) : FactorStack C α := f.map (·.row i) (·.row i)

/-- The number of factors: the extent of the leading axis of the first leaf. -/
def count (f : FactorStack C α) : Checked Nat := do
  let first ← fitting f.leaves.head?
  fitting first.shape.head?

/-- The number of factors, if all leaves have as many rows. -/
def rowCount (f : FactorStack C α) : Checked Nat := do
  let n ← f.count
  if f.leaves.all fun b => b.shape.head? = some n then return n else misfit

def rows (f : FactorStack C α) : Checked (List (FactorStack C α)) := do
  return (List.range (← f.rowCount)).map f.row

/-- The factors as one stack, if they have one class, variable types and outlines, and their
leaves one shape each. -/
def stack? [DecidableEq C] (fs : List (FactorStack C α)) : Option (FactorStack C α) :=
  match fs with
  | [] => none
  | f :: rest => do
    let columns := f.map (fun b => [b]) fun b => [b]
    let columns ← rest.foldlM (zip? fun bs b => some (b :: bs)) columns
    let stacked (bs : List (Block α)) := Block.stack? bs.reverse
    columns.traverse stacked stacked

end Factor

/-- What factors have in common that can be stacked. -/
structure GroupKey (C : Type) where
  kind : FactorClass C
  types : List VariableType
  outlines : List (List Mark)
  shapes : List Shape
  deriving DecidableEq

/-- The group of a factor. A leaf that is not an array has the shape without axes. -/
def GroupKey.ofItems {C α : Type} [Scalar α] (f : FactorLiteral C α) : GroupKey C :=
  ⟨f.kind, f.types, f.outlines, f.leaves.map Item.shape⟩

/-- The group of a factor whose leaves are arrays. -/
def GroupKey.ofBlocks {C α : Type} (f : FactorStack C α) : GroupKey C :=
  ⟨f.kind, f.types, f.outlines, f.leaves.map Block.shape⟩

end LeastSquares
