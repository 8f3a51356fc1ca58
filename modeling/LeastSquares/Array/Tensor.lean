import LeastSquares.Array.Shape

/-!
# Tensors

An array of any rank: its shape and its cells, row by row. Operations whose operands may not
fit answer `none`. A tensor is built by `generate` from the value of each cell and read by
`entry`, which gives the default value outside.
-/

namespace LeastSquares

structure Tensor (β : Type) where
  shape : Shape
  cells : Array β
  size_eq : cells.size = shape.volume
  deriving DecidableEq

namespace Tensor

variable {β γ δ : Type}

/-- The tensor whose cell `k` is `f k`. -/
def generate (shape : Shape) (f : Nat → β) : Tensor β where
  shape := shape
  cells := Array.ofFn fun k : Fin shape.volume => f k
  size_eq := by simp

/-- The cells under a shape, if it has as many. -/
def ofCells? (shape : Shape) (cells : Array β) : Option (Tensor β) :=
  if h : cells.size = shape.volume then some ⟨shape, cells, h⟩ else none

/-- The tensor without axes that holds one cell. -/
def scalar (x : β) : Tensor β := ⟨[], #[x], rfl⟩

def vector (cells : Array β) : Tensor β := ⟨[cells.size], cells, by simp⟩

/-- Cell `k`, or the default value. -/
def entry [Inhabited β] (t : Tensor β) (k : Nat) : β := t.cells.getD k default

theorem ext_entry [Inhabited β] {s t : Tensor β} (hs : s.shape = t.shape)
    (h : ∀ k, k < s.shape.volume → s.entry k = t.entry k) : s = t := by
  obtain ⟨shape, xs, hx⟩ := s
  obtain ⟨shape', ys, hy⟩ := t
  simp only at hs
  subst hs
  have : xs = ys := by
    apply Array.ext (hx.trans hy.symm)
    intro i hi hj
    have := h i (by simpa [hx] using hi)
    simpa [entry, Array.getD, hi, hj] using this
  subst this
  rfl

@[simp] theorem shape_generate (shape : Shape) (f : Nat → β) :
    (generate shape f).shape = shape := rfl

theorem entry_generate [Inhabited β] {shape : Shape} {f : Nat → β} {k : Nat}
    (h : k < shape.volume) : (generate shape f).entry k = f k := by
  simp [entry, generate, Array.getD, h]

def map (f : β → γ) (t : Tensor β) : Tensor γ :=
  ⟨t.shape, t.cells.map f, by simp [t.size_eq]⟩

@[simp] theorem shape_map (f : β → γ) (t : Tensor β) : (t.map f).shape = t.shape := rfl

/-- The tensor repeated to a larger shape; `none` if the shape does not allow it. -/
def broadcast? [Inhabited β] (shape : Shape) (t : Tensor β) : Option (Tensor β) :=
  if t.shape = shape then some t
  else if t.shape.join? shape = some shape then
    let small := t.shape.padded shape.length
    some (generate shape fun k => t.entry (Shape.project shape small k))
  else none

/-- The two tensors combined cell by cell, repeated to a common shape where they differ. -/
def zipWith? [Inhabited β] [Inhabited γ] (f : β → γ → δ) (s : Tensor β) (t : Tensor γ) :
    Option (Tensor δ) :=
  if s.shape = t.shape then
    some (generate s.shape fun k => f (s.entry k) (t.entry k))
  else do
    let shape ← s.shape.join? t.shape
    let s ← s.broadcast? shape
    let t ← t.broadcast? shape
    return generate shape fun k => f (s.entry k) (t.entry k)

theorem zipWith?_of_shape_eq [Inhabited β] [Inhabited γ] {f : β → γ → δ} {s : Tensor β}
    {t : Tensor γ} (h : s.shape = t.shape) :
    zipWith? f s t = some (generate s.shape fun k => f (s.entry k) (t.entry k)) := by
  simp [zipWith?, h]

/-! ## The leading axis -/

def count (t : Tensor β) : Nat := t.shape.headD 0

def rowVolume (t : Tensor β) : Nat := Shape.volume t.shape.tail

def row [Inhabited β] (t : Tensor β) (i : Nat) : Tensor β :=
  generate t.shape.tail fun k => t.entry (i * t.rowVolume + k)

@[simp] theorem shape_row [Inhabited β] (t : Tensor β) (i : Nat) :
    (t.row i).shape = t.shape.tail := rfl

/-- The same cells with one more axis, of extent one, in front. -/
def lifted (t : Tensor β) : Tensor β := ⟨1 :: t.shape, t.cells, by simp [t.size_eq]⟩

/-- The rows at the places that the index tensor names, in its shape. -/
def take? [Inhabited β] (access : Access) (t : Tensor β) (index : Tensor Int) :
    Option (Tensor β) :=
  match t.shape with
  | [] => none
  | n :: tail => do
    let places ← index.cells.mapM (access.locate n)
    let width := Shape.volume tail
    return generate (index.shape ++ tail) fun k =>
      t.entry (places.getD (k / width) 0 * width + k % width)

/-- The rows of `t` at the places that the index tensor names, replaced by the rows of
`rows`; of two writes to one place the later stays, a write outside is lost. -/
def put [Inhabited β] (t : Tensor β) (index : Tensor Int) (rows : Tensor β) : Tensor β :=
  let targets := index.cells.map (target t.count)
  let width := t.rowVolume
  generate t.shape fun k =>
    (List.range targets.size).foldl
      (fun cell i =>
        if targets.getD i none = some (k / width) then rows.entry (i * width + k % width)
        else cell)
      (t.entry k)

/-- The rows of `rows` added, in order, into the rows of `t` at the places that the index
tensor names; a row addressed outside is lost. -/
def putAdd [Inhabited β] (add : β → β → β) (t : Tensor β) (index : Tensor Int)
    (rows : Tensor β) : Tensor β :=
  let targets := index.cells.map (target t.count)
  let width := t.rowVolume
  generate t.shape fun k =>
    (List.range targets.size).foldl
      (fun cell i =>
        if targets.getD i none = some (k / width) then
          add cell (rows.entry (i * width + k % width))
        else cell)
      (t.entry k)

/-- The tensors as rows of one, if they have one shape. There must be one. -/
def stack? (ts : List (Tensor β)) : Option (Tensor β) :=
  match ts with
  | [] => none
  | t :: _ =>
    if ts.all (·.shape = t.shape) then
      ofCells? (ts.length :: t.shape) (ts.foldl (fun cells u => cells ++ u.cells) #[])
    else none

def append? (s t : Tensor β) : Option (Tensor β) :=
  match s.shape, t.shape with
  | m :: tail, n :: tail' =>
    if tail = tail' then ofCells? ((m + n) :: tail) (s.cells ++ t.cells) else none
  | _, _ => none

/-! ## Any axis -/

/-- The place of a signed axis among `rank` of them; a negative axis counts from the end. -/
def axis? (rank : Nat) (axis : Int) : Option Nat := Access.locate .checked rank axis

/-- The same cells with one more axis, of extent one, at a place. -/
def expanded? (t : Tensor β) (axis : Nat) : Option (Tensor β) :=
  ofCells? (t.shape.insertIdx axis 1) t.cells

/-- The tensors joined along an axis on which alone their shapes may differ. -/
def concat? [Inhabited β] (axis : Nat) (ts : List (Tensor β)) : Option (Tensor β) :=
  match ts with
  | [] => none
  | t :: _ =>
    let fits (u : Tensor β) :=
      u.shape.length = t.shape.length ∧ u.shape.eraseIdx axis = t.shape.eraseIdx axis
    if axis < t.shape.length ∧ ts.all fits then
      let extent := totalExtent (ts.map fun u => u.shape.getD axis 0)
      let outer := Shape.volume (t.shape.take axis)
      let inner := Shape.volume (t.shape.drop (axis + 1))
      let cells := (List.range outer).flatMap fun o => ts.flatMap fun u =>
        let width := u.shape.getD axis 0 * inner
        (List.range width).map fun r => u.entry (o * width + r)
      ofCells? (t.shape.set axis extent) cells.toArray
    else none

/-! ## Rows along the last axis -/

/-- What stands before the last axis. -/
def lead (t : Tensor β) : Shape := t.shape.dropLast

/-- The extent of the last axis; a tensor without axes has one coordinate. -/
def width (t : Tensor β) : Nat := t.shape.getLastD 1

/-- Coordinate `i` of the row that stands at place `k` once the rows are repeated to a shape.
A coordinate past the end is the last one. -/
def coordinate [Inhabited β] (t : Tensor β) (shape : Shape) (k i : Nat) : β :=
  let row := Shape.project shape (t.lead.padded shape.length) k
  t.entry (row * t.width + min i (t.width - 1))

/-- Rows laid out under a shape, each with `width` coordinates. -/
def ofRows [Inhabited β] (shape : Shape) (width : Nat) (rows : Nat → List β) : Tensor β :=
  let rows := generate shape rows
  generate (shape ++ [width]) fun k => (rows.entry (k / width)).getD (k % width) default

/-- Each row replaced by its image, which has `width` coordinates. -/
def mapRows [Inhabited β] (width : Nat) (f : (Nat → β) → List β) (t : Tensor β) : Tensor β :=
  ofRows t.lead width fun k => f (t.coordinate t.lead k)

/-- The rows of two tensors combined, repeated to a common shape where their numbers
differ. -/
def zipRows? [Inhabited β] (width : Nat) (f : (Nat → β) → (Nat → β) → List β)
    (s t : Tensor β) : Option (Tensor β) := do
  let shape ← s.lead.join? t.lead
  return ofRows shape width fun k => f (s.coordinate shape k) (t.coordinate shape k)

/-! ## Linear algebra -/

section
variable {α : Type} [Inhabited α]

/-- The vector whose entry `i` combines row `i` of a matrix with a vector. Extents over which
a product is summed are equal, or one of them is one and is repeated. -/
def mulVec? (dot : List (α × α) → α) (a x : Tensor α) : Option (Tensor α) :=
  match a.shape, x.shape with
  | [m, n], [k] => do
    let extent ← Shape.joinExtent? n k
    return generate [m] fun i => dot <| (List.range extent).map fun j =>
      (a.entry (i * n + if n = 1 then 0 else j), x.entry (if k = 1 then 0 else j))
  | _, _ => none

/-- The vector whose entry `j` combines a vector with column `j` of a matrix. -/
def vecMul? (dot : List (α × α) → α) (y a : Tensor α) : Option (Tensor α) :=
  match y.shape, a.shape with
  | [k], [m, n] => do
    let extent ← Shape.joinExtent? m k
    return generate [n] fun j => dot <| (List.range extent).map fun i =>
      (y.entry (if k = 1 then 0 else i), a.entry ((if m = 1 then 0 else i) * n + j))
  | _, _ => none

/-- The product of stacks of matrices, repeated to a common shape. A vector counts as a row on
the left and as a column on the right; the summed extents must be equal. -/
def matmul? (dot : List (α × α) → α) (a b : Tensor α) : Option (Tensor α) := do
  let left ← match a.shape with
    | [] => none
    | [k] => some [1, k]
    | s => some s
  let right ← match b.shape with
    | [] => none
    | [k] => some [k, 1]
    | s => some s
  let (m, k) := (left.dropLast.getLastD 1, left.getLastD 1)
  let (k', p) := (right.dropLast.getLastD 1, right.getLastD 1)
  if k ≠ k' then none
  let leadA : Shape := left.dropLast.dropLast
  let leadB : Shape := right.dropLast.dropLast
  let lead ← leadA.join? leadB
  let rows := if a.shape.length = 1 then [] else [m]
  let columns := if b.shape.length = 1 then [] else [p]
  return generate (lead ++ rows ++ columns) fun q =>
    let place := q / (m * p)
    let startA := Shape.project lead (leadA.padded lead.length) place * (m * k)
    let startB := Shape.project lead (leadB.padded lead.length) place * (k * p)
    let i := q % (m * p) / p
    let j := q % p
    dot <| (List.range k).map fun r => (a.entry (startA + i * k + r), b.entry (startB + r * p + j))

end

end Tensor

end LeastSquares
