import LeastSquares.Value.Item

/-!
# Noise models

A noise model whitens a residual: it multiplies it by a square root of the precision matrix,
given in full or by its diagonal. A full root comes from the Cholesky factor `L` of a
covariance as the inverse of `L`.
-/

namespace LeastSquares

/-- A square root of a precision matrix. -/
inductive Noise (α : Type) where
  | full (root : Block α)
  | diagonal (root : Block α)

namespace Noise

variable {α : Type}

/-- The noise model as part of a factor. -/
def tree {β : Type} (wrap : Block α → β) : Noise α → Tree β
  | full root => .node .fullNoise [.leaf (wrap root)]
  | diagonal root => .node .diagonalNoise [.leaf (wrap root)]

/-- The noise model that a part of a factor is. -/
def ofTree? : Value α → Option (Noise α)
  | .node .fullNoise [.leaf root] => some (full root)
  | .node .diagonalNoise [.leaf root] => some (diagonal root)
  | _ => none

def root : Noise α → Block α
  | full root => root
  | diagonal root => root

/-- The dimension of the residuals: the extent of the last axis. -/
def residualDim (n : Noise α) : Checked Nat := fitting n.root.shape.getLast?

variable [Scalar α]

def whiten (n : Noise α) (residual : Block α) : Checked (Block α) :=
  match n with
  | full root => fitting (root.mulVec? residual)
  | diagonal root => do
    require .residualShape (residual.shape = root.shape)
    fitting (root.mul? residual)

/-- Unit noise in each of `dim` coordinates. -/
def identity (dim : Nat) : Noise α := diagonal (.full [dim] Scalar.one)

/-- Independent noise with these variances. -/
def ofVariances (variances : Block α) : Noise α :=
  diagonal (.reals (variances.toReals.map fun v => Scalar.one / Elementary.sqrt v))

/-! ## Covariance matrices -/

/-- A square matrix of known size, by its entries. -/
abbrev Matrix (α : Type) := Array (Array α)

def entry (m : Matrix α) (i j : Nat) : α := (m.getD i #[]).getD j Scalar.zero

/-- The sum over the columns below `n` of the products of two rows. -/
def rowDot (r s : Array α) (n : Nat) : α :=
  (List.range n).foldl
    (fun total k => total + r.getD k Scalar.zero * s.getD k Scalar.zero) Scalar.zero

/-- The row of the lower factor of a symmetric matrix that belongs to a row of the matrix,
after the rows above it; `none` if the pivot is not positive. -/
def factorRow? (c : Array α) (above : Matrix α) : Option (Array α) :=
  let i := above.size
  let row := (List.range i).foldl
    (fun row j =>
      let pivot := entry above j j
      row.push ((c.getD j Scalar.zero - rowDot row (above.getD j #[]) j) / pivot))
    #[]
  let rest := c.getD i Scalar.zero - rowDot row row i
  if Scalar.lt Scalar.zero rest then some (row.push (Elementary.sqrt rest)) else none

/-- The lower triangular `L` with positive diagonal and `L Lᵀ = c`, if `c` is positive
definite. -/
def cholesky? (c : Matrix α) : Option (Matrix α) :=
  c.foldlM (fun above row => do return above.push (← factorRow? row above)) #[]

def lowerInverse (l : Matrix α) : Matrix α :=
  l.foldl
    (fun above row =>
      let i := above.size
      let pivot := row.getD i Scalar.zero
      let next := (List.range l.size).map fun j =>
        if j = i then Scalar.one / pivot
        else if j < i then
          let total := (List.range i).foldl
            (fun total k => total + row.getD k Scalar.zero * entry above k j) Scalar.zero
          Neg.neg total / pivot
        else Scalar.zero
      above.push next.toArray)
    #[]

def symmetrised (n : Nat) (t : Tensor α) : Matrix α :=
  Array.ofFn fun i : Fin n => Array.ofFn fun j : Fin n =>
    (t.entry (i * n + j) + t.entry (j * n + i)) / Scalar.two

/-- The noise with a covariance matrix. A matrix that is not positive definite has no
Cholesky factor; its root is filled with `0 / 0`. -/
def ofCovariance (covariance : Block α) : Checked (Noise α) :=
  match covariance.shape with
  | [m, n] => do
    require .squareCovariance (m = n)
    let undefined := Scalar.zero / (Scalar.zero : α)
    match cholesky? (symmetrised n covariance.toReals) with
    | some l =>
      let root := lowerInverse l
      return full (.reals (.generate [n, n] fun k => entry root (k / n) (k % n)))
    | none => return full (.full [n, n] undefined)
  | _ => .error (.broken .squareCovariance)

end Noise

end LeastSquares
