import LeastSquares.Array.Tensor
import LeastSquares.Numeric.Scalar

/-!
# Blocks

An array as it is stored: truth values, integers or scalars. An operation on two kinds works
in the wider of them, in the order truth values, integers, scalars; truth values count as
zero and one where numbers are asked for.
-/

namespace LeastSquares

inductive Block (α : Type) where
  | bools (cells : Tensor Bool)
  | ints (cells : Tensor Int)
  | reals (cells : Tensor α)

/-- The kinds of cells, from the narrowest. -/
inductive Kind where
  | bool
  | int
  | real
  deriving DecidableEq

def Kind.join : Kind → Kind → Kind
  | .real, _ => .real
  | _, .real => .real
  | .int, _ => .int
  | _, .int => .int
  | .bool, .bool => .bool

namespace Block

variable {α β : Type}

def kind : Block α → Kind
  | bools _ => .bool
  | ints _ => .int
  | reals _ => .real

def shape : Block α → Shape
  | bools t => t.shape
  | ints t => t.shape
  | reals t => t.shape

def count (b : Block α) : Nat := b.shape.headD 0

/-- The same operation on the cells of whichever kind. -/
def lift (f : {γ : Type} → [Inhabited γ] → Tensor γ → Tensor γ) [Inhabited α] :
    Block α → Block α
  | bools t => bools (f t)
  | ints t => ints (f t)
  | reals t => reals (f t)

def lift? (f : {γ : Type} → [Inhabited γ] → Tensor γ → Option (Tensor γ)) [Inhabited α] :
    Block α → Option (Block α)
  | bools t => (f t).map bools
  | ints t => (f t).map ints
  | reals t => (f t).map reals

def mapReals (f : α → β) : Block α → Block β
  | bools t => bools t
  | ints t => ints t
  | reals t => reals (t.map f)

variable [Scalar α]

/-! ## Kinds -/

def toInts : Block α → Tensor Int
  | bools t => t.map fun b => if b then 1 else 0
  | ints t => t
  | reals t => t.map fun x => Scalar.wrap α (Elementary.truncate x)

def toReals : Block α → Tensor α
  | bools t => t.map fun b => Scalar.ofInt (if b then 1 else 0)
  | ints t => t.map Scalar.ofInt
  | reals t => t

def toBools : Block α → Tensor Bool
  | bools t => t
  | ints t => t.map (· ≠ 0)
  | reals t => t.map fun x => !Scalar.eq x Scalar.zero

def cast (k : Kind) (b : Block α) : Block α :=
  match k with
  | .bool => bools b.toBools
  | .int => ints b.toInts
  | .real => reals b.toReals

/-- The kind wide enough for all blocks. -/
def widest (bs : List (Block α)) : Kind :=
  bs.foldl (fun k b => Kind.join k b.kind) .bool

/-! ## Making blocks -/

def real (x : α) : Block α := reals (.scalar x)

def int (i : Int) : Block α := ints (.scalar i)

def vector (xs : List α) : Block α := reals (.vector xs.toArray)

def full (shape : Shape) (x : α) : Block α := reals (.generate shape fun _ => x)

def zeros (shape : Shape) : Block α := full shape Scalar.zero

def identity (n : Nat) : Block α :=
  reals (.generate [n, n] fun k => if k / n = k % n then Scalar.one else Scalar.zero)

def range (n : Nat) : Block α := ints (.generate [n] fun i => (i : Int))

/-! ## Rows -/

def row (b : Block α) (i : Nat) : Block α := b.lift (·.row i)

def lifted (b : Block α) : Block α := b.lift (·.lifted)

/-- No rows of the shape of a block. -/
def noRows (b : Block α) : Block α := b.lift fun t => .generate (0 :: t.shape) fun _ => default

/-- The same cells under a shape, if it has as many. -/
def reshaped? (shape : Shape) (b : Block α) : Option (Block α) :=
  b.lift? fun t => Tensor.ofCells? shape t.cells

/-- Integers used to address rows; truth values and scalars do not. -/
def asIndex? : Block α → Option (Tensor Int)
  | ints t => some t
  | _ => none

/-- The rows that an index block names. -/
def take? (access : Access) (b index : Block α) : Option (Block α) := do
  let index ← index.asIndex?
  b.lift? (·.take? access index)

/-- The blocks brought to one kind and handed to an operation on tensors. -/
def gather? (bs : List (Block α))
    (f : {γ : Type} → [Inhabited γ] → List (Tensor γ) → Option (Tensor γ)) :
    Option (Block α) :=
  match widest bs with
  | .bool => (f (bs.map toBools)).map bools
  | .int => (f (bs.map toInts)).map ints
  | .real => (f (bs.map toReals)).map reals

def stack? (bs : List (Block α)) : Option (Block α) := gather? bs (Tensor.stack? ·)

def append? (a b : Block α) : Option (Block α) :=
  gather? [a, b] fun
    | [s, t] => s.append? t
    | _ => none

def concat? (axis : Int) (bs : List (Block α)) : Option (Block α) :=
  gather? bs fun ts => do
    let first ← ts.head?
    let axis ← Tensor.axis? first.shape.length axis
    Tensor.concat? axis ts

/-- The blocks, of one shape, joined along a new axis. -/
def stackAlong? (axis : Int) (bs : List (Block α)) : Option (Block α) :=
  gather? bs fun ts => do
    let first ← ts.head?
    let axis ← Tensor.axis? (first.shape.length + 1) axis
    if ts.all (·.shape = first.shape) then
      Tensor.concat? axis (← ts.mapM (·.expanded? axis))
    else none

/-- The block with some rows changed by new rows, which are repeated to the shape that the
index asks for. Both work in the wider kind, and the result has the kind of the block. If
the index asks for no cells, nothing changes. -/
def update? (b index rows : Block α)
    (change : Kind → Tensor Int → Shape → Option (Block α)) : Option (Block α) := do
  let index ← index.asIndex?
  let shape := index.shape ++ b.shape.tail
  if b.shape = [] then none
  else if shape.volume = 0 then some b
  else (← change (Kind.join b.kind rows.kind) index shape).cast b.kind

def put? (b index rows : Block α) : Option (Block α) :=
  update? b index rows fun _ index shape =>
    gather? [b, rows] fun
      | [t, rows] => do return t.put index (← rows.broadcast? shape)
      | _ => none

def putAdd? (b index rows : Block α) : Option (Block α) :=
  update? b index rows fun kind index shape =>
    match kind with
    | .bool => do return bools (b.toBools.putAdd or index (← rows.toBools.broadcast? shape))
    | .int => do
      return ints (b.toInts.putAdd (fun i j => Scalar.wrap α (i + j)) index
        (← rows.toInts.broadcast? shape))
    | .real => do
      return reals (b.toReals.putAdd (· + ·) index (← rows.toReals.broadcast? shape))

/-! ## Arithmetic -/

/-- An operation on numbers, cell by cell, in the wider kind. Truth values are combined by
`logic`, if that has a meaning. -/
def arith? (logic : Option (Bool → Bool → Bool)) (whole : Int → Int → Int)
    (scalar : α → α → α) (a b : Block α) : Option (Block α) :=
  match Kind.join a.kind b.kind with
  | .bool => do
    let op ← logic
    (Tensor.zipWith? op a.toBools b.toBools).map bools
  | .int =>
    (Tensor.zipWith? (fun i j => Scalar.wrap α (whole i j)) a.toInts b.toInts).map ints
  | .real => (Tensor.zipWith? scalar a.toReals b.toReals).map reals

def add? (a b : Block α) : Option (Block α) := arith? (some or) (· + ·) (· + ·) a b

def sub? (a b : Block α) : Option (Block α) := arith? none (· - ·) (· - ·) a b

def mul? (a b : Block α) : Option (Block α) := arith? (some and) (· * ·) (· * ·) a b

def neg? : Block α → Option (Block α)
  | bools _ => none
  | ints t => some (ints (t.map fun i => Scalar.wrap α (-i)))
  | reals t => some (reals (t.map (- ·)))

def abs : Block α → Block α
  | bools t => bools t
  | ints t => ints (t.map fun i => Scalar.wrap α i.natAbs)
  | reals t => reals (t.map Elementary.abs)

def scaled (x : α) (b : Block α) : Block α := reals (b.toReals.map (x * ·))

/-- The sum of all cells; truth values are counted. -/
def sum : Block α → Block α
  | bools t => int (t.cells.foldl (fun n b => if b then n + 1 else n) 0)
  | ints t => int (Scalar.wrap α (t.cells.foldl (· + ·) 0))
  | reals t => real (Scalar.sum t.cells)

/-- A number read off a block with one cell. -/
def value (b : Block α) : α := b.toReals.entry 0

/-- Whether all cells of two blocks, repeated to a common shape, are equal. -/
def equal? (a b : Block α) : Option Bool :=
  match Kind.join a.kind b.kind with
  | .bool => (Tensor.zipWith? (· == ·) a.toBools b.toBools).map (·.cells.all id)
  | .int => (Tensor.zipWith? (· == ·) a.toInts b.toInts).map (·.cells.all id)
  | .real => (Tensor.zipWith? Scalar.eq a.toReals b.toReals).map (·.cells.all id)

def isZero : Block α → Bool
  | bools t => t.cells.all (!·)
  | ints t => t.cells.all (· = 0)
  | reals t => t.cells.all (Scalar.eq · Scalar.zero)

/-! ## Linear algebra -/

def dot (pairs : List (α × α)) : α :=
  pairs.foldl (fun total (x, y) => total + x * y) Scalar.zero

def mulVec? (a x : Block α) : Option (Block α) :=
  (Tensor.mulVec? dot a.toReals x.toReals).map reals

/-- A vector combined with the columns of a matrix. -/
def vecMul? (y a : Block α) : Option (Block α) :=
  (Tensor.vecMul? dot y.toReals a.toReals).map reals

def matmul? (a b : Block α) : Option (Block α) :=
  (Tensor.matmul? dot a.toReals b.toReals).map reals

end Block

end LeastSquares
