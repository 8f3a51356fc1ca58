import LeastSquares.Value.Item

/-!
# Comparing values

Values as they are given are compared part by part from the first, and the first difference
decides. Two arrays can be told equal or different only if there is one pair of cells to compare.
-/

namespace LeastSquares

/-- Whether two arrays are equal; there must be one pair of cells. -/
def Block.equalCells {α : Type} [Scalar α] (a b : Block α) : Checked Bool := do
  let shape ← fitting (a.shape.join? b.shape)
  if shape.volume ≠ 1 then misfit
  fitting (a.equal? b)

/-- Whether two leaves are equal. A text is equal to the same text only. -/
def Item.equal {α : Type} [Scalar α] (x y : Item α) : Checked Bool :=
  match x, y with
  | .text s, .text t => .ok (s = t)
  | .text _, _ | _, .text _ => .ok false
  | x, y => do (← fitting x.block?).equalCells (← fitting y.block?)

namespace Literal

variable {α : Type} [Scalar α]

/-- Whether two nodes can have equal parts. Lists of different lengths are told apart at once,
tuples by the parts that they have in common first. -/
def comparable (l : Label) (m : Nat) (l' : Label) (n : Nat) : Bool :=
  match l with
  | .list => decide (l = l') && decide (m = n)
  | l => l = l'

def equal : Literal α → Literal α → Checked Bool
  | .leaf x, .leaf y => x.equal y
  | .absent, .absent => .ok true
  | .node l cs, .node l' ds =>
    if comparable l cs.length l' ds.length then all cs ds else .ok false
  | _, _ => .ok false
where
  all : List (Literal α) → List (Literal α) → Checked Bool
    | [], [] => .ok true
    | c :: cs, d :: ds => do if ← equal c d then all cs ds else return false
    | _, _ => .ok false

end Literal

end LeastSquares
