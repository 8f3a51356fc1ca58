import LeastSquares.Factor.Basic
import LeastSquares.Value.Comparison

/-!
# Comparing factors

Two factors are equal if they have one class, equal handles and equal fields. The handles are
compared first, and the first difference decides.
-/

namespace LeastSquares

variable {α : Type} [Scalar α]

/-- Whether two handles address the same values. -/
def Handle.equal (h k : Handle (Item α)) : Checked Bool :=
  if h.type = k.type then h.index.equal k.index else .ok false

namespace Factor

variable {C : Type} [DecidableEq C]

def equalHandles : List (Handle (Item α)) → List (Handle (Item α)) → Checked Bool
  | [], [] => .ok true
  | h :: hs, k :: ks => do if ← h.equal k then equalHandles hs ks else return false
  | _, _ => .ok false

def equal (e f : FactorLiteral C α) : Checked Bool := do
  if e.kind ≠ f.kind then return false
  if ← equalHandles e.handles f.handles then Literal.equal.all e.fields f.fields
  else return false

end Factor

end LeastSquares
