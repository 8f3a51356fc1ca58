import LeastSquares.Array.Block
import LeastSquares.Failure
import LeastSquares.Value.Tree

/-!
# Values as they are given

A value is a tree whose leaves are arrays, or bare numbers and texts; the numbers become
arrays when they are stored. Computation runs on trees of blocks.
-/

namespace LeastSquares

/-- Where an array lies. An index outside an array is refused on the host and moved to the
nearest place on the device. -/
inductive Residence where
  | host
  | device
  deriving DecidableEq

/-- How arrays answer to an index outside. -/
def Residence.access : Residence → Access
  | host => .checked
  | device => .clamped

/-- A leaf of a value as it is given. -/
inductive Item (α : Type) where
  | array (place : Residence) (block : Block α)
  | int (i : Int)
  | bool (b : Bool)
  | real (x : α)
  | text (s : String)

namespace Item

variable {α : Type} [Scalar α]

/-- The array that a leaf becomes; a text does not, nor an integer of more than 64 bits. -/
def block? : Item α → Option (Block α)
  | array _ b => some b
  | int i => if Int64.minValue.toInt ≤ i ∧ i ≤ Int64.maxValue.toInt then some (.int i) else none
  | bool b => some (.bools (.scalar b))
  | real x => some (.real x)
  | text _ => none

/-- The shape of a leaf; whatever is not an array has none. -/
def shape : Item α → Shape
  | array _ b => b.shape
  | _ => []

end Item

abbrev Literal (α : Type) : Type := Tree (Item α)

abbrev Value (α : Type) : Type := Tree (Block α)

namespace Literal

variable {α : Type} [Scalar α]

def value? (t : Literal α) : Option (Value α) := t.traverse Item.block?

/-- The value to compute with, if every leaf is an array already. -/
def arrays? (t : Literal α) : Option (Value α) :=
  t.traverse fun
    | .array _ b => some b
    | _ => none

/-- The array that a leaf, or a list of leaves, becomes. -/
def block? : Literal α → Option (Block α)
  | .leaf x => x.block?
  | .absent => none
  | .node .list cs => list cs
  | .node .tuple cs => list cs
  | .node _ _ => none
where
  /-- The arrays of the parts as rows of one; no parts make an empty array of scalars. -/
  list (cs : List (Literal α)) : Option (Block α) := do
    let rows ← all cs
    if rows.isEmpty then some (.zeros [0]) else Block.stack? rows
  all : List (Literal α) → Option (List (Block α))
    | [] => some []
    | c :: cs => do
      let b ← block? c
      return b :: (← all cs)

/-- The value at every leaf of a pattern made of arrays. Where the pattern lies on the host, a list
there becomes an array. -/
def alongside? (pattern x : Literal α) : Option (Value α) :=
  pattern.graft?
    (fun
      | .array _ _, .leaf y => y.block?
      | .array .host _, part => block? part
      | _, _ => none)
    x

/-- The value indexed at every leaf, a text by its characters. -/
def indexed (x : Literal α) (i : Int) : Checked (Literal α) :=
  x.traverse fun
    | .array place b => do
      return .array place (← fitting (b.take? place.access (.int i)))
    | .text s => do
      let cs := s.toList
      let k ← fitting (Access.locate .checked cs.length i)
      return .text (String.ofList ((cs.drop k).take 1))
    | _ => misfit

/-! ## Joining values -/

/-- Values joined leaf by leaf. They have the outline of the first one, or more parts below
its leaves. -/
def joined (join : List (Block α) → Option (Block α)) (xs : List (Literal α)) :
    Checked (Literal α) :=
  match xs with
  | [] => misfit
  | x :: rest => do
    let first ← fitting (value? x)
    let columns ← rest.foldlM
      (fun cs y => fitting (cs.graft? (fun bs part => do return (← block? part) :: bs) y))
      (first.map fun b => [b])
    columns.traverse fun bs => do
      return .array .device (← fitting (join bs.reverse))

/-- Values joined along a new axis of their leaves. -/
def stack (axis : Int) (xs : List (Literal α)) : Checked (Literal α) :=
  joined (Block.stackAlong? axis) xs

/-- Values joined along an axis that their leaves have. -/
def concat (axis : Int) (xs : List (Literal α)) : Checked (Literal α) :=
  joined (Block.concat? axis) xs

end Literal

namespace Value

variable {α : Type} [Scalar α]

/-- The value without parts that is one array. -/
def ofBlock (b : Block α) : Value α := .leaf b

def array (v : Value α) : Checked (Block α) := fitting v.single?

def row (v : Value α) (i : Nat) : Value α := v.map (·.row i)

/-- The rows that an index block names, of every leaf. -/
def take (access : Access) (v : Value α) (index : Block α) : Checked (Value α) :=
  fitting (v.traverse (·.take? access index))

/-- The parameters of group elements as a value. -/
def ofGroup (g : LieGroup) (params : Tensor α) : Value α := .node (.group g) [.leaf (.reals params)]

/-- The group elements that the value holds: their group and parameters. -/
def group? : Value α → Option (LieGroup × Tensor α)
  | .node (.group g) [.leaf b] => some (g, b.toReals)
  | _ => none

/-- The coordinates of all leaves in one row. -/
def flatten (v : Value α) : Checked (Block α) :=
  match v.leaves with
  | [] => .ok (.zeros [0])
  | bs => fitting (Block.gather? bs fun ts =>
      some (Tensor.vector (ts.foldl (fun cells t => cells ++ t.cells) #[])))

/-- The cells of coordinates, each of which holds so many, cut into tensors of these shapes. -/
def cut {γ : Type} (portion : Nat) : List Shape → List γ → List (Tensor γ)
  | [], _ => []
  | s :: shapes, xs =>
    let size := s.volume * portion
    match Tensor.ofCells? s (xs.take size).toArray with
    | some t => t :: cut portion shapes (xs.drop size)
    | none => []

/-- The value of the outline and shapes of a pattern whose coordinates stand along the leading
axis of an array; each must be one cell. -/
def unflatten (pattern : Tree Shape) (flat : Block α) : Checked (Value α) := do
  let shapes := pattern.leaves
  let count :: rest := flat.shape | misfit
  if count ≠ totalExtent (shapes.map Shape.volume) then misfit
  let portion := Shape.volume rest
  let leaves : List (Block α) := match flat with
    | .bools t => (cut portion shapes t.cells.toList).map .bools
    | .ints t => (cut portion shapes t.cells.toList).map .ints
    | .reals t => (cut portion shapes t.cells.toList).map .reals
  let (v, _) ← fitting (pattern.refill? leaves)
  return v

/-! ## Rows -/

/-- The extent that the leading axes of all leaves have in common. -/
def rowCount (v : Value α) : Checked Nat := do
  let extents ← fitting (v.leaves.mapM fun b => b.shape.head?)
  match extents with
  | [] => misfit
  | n :: rest => if rest.all (· = n) then return n else misfit

def stackRows (rows : List (Value α)) : Checked (Value α) :=
  match rows with
  | [] => misfit
  | v :: rest => do
    let columns ← rest.foldlM
      (fun cs row => fitting (cs.zip? (fun bs b => some (b :: bs)) row)) (v.map fun b => [b])
    fitting (columns.traverse fun bs => Block.stack? bs.reverse)

/-- A stack of `n` rows. If there are none, the shapes are those of a row of default cells. -/
def tabulate (n : Nat) (row : Nat → Checked (Value α)) : Checked (Value α) :=
  match n with
  | 0 => do return (← row 0).map Block.noRows
  | n => do stackRows (← (List.range n).mapM row)

/-! ## Motion -/

/-- Group elements moved in their own frame along an array, and arrays by addition, part by
part. -/
def moved? : Value α → Value α → Option (Value α)
  | .leaf b, .leaf d => (b.add? d).map .leaf
  | .node (.group g) [.leaf a], .leaf d => (g.moved? a.toReals d.toReals).map (ofGroup g)
  | .node (.group _) _, _ => none
  | .absent, .absent => some .absent
  | .node l cs, .node l' ds => if l = l' then (all cs ds).map (.node l) else none
  | _, _ => none
where
  all : List (Value α) → List (Value α) → Option (List (Value α))
    | [], [] => some []
    | c :: cs, d :: ds => do
      let e ← moved? c d
      return e :: (← all cs ds)
    | _, _ => none

/-- The tangent vectors from group elements to others, and the differences of arrays, part by
part. -/
def difference? : Value α → Value α → Option (Value α)
  | .leaf b, .leaf c => (b.sub? c).map .leaf
  | .node (.group g) [.leaf a], .node (.group h) [.leaf b] =>
    if g = h then (g.difference? a.toReals b.toReals).map fun d => .leaf (.reals d) else none
  | .absent, .absent => some .absent
  | .node l cs, .node l' ds => if l = l' then (all cs ds).map (.node l) else none
  | _, _ => none
where
  all : List (Value α) → List (Value α) → Option (List (Value α))
    | [], [] => some []
    | c :: cs, d :: ds => do
      let e ← difference? c d
      return e :: (← all cs ds)
    | _, _ => none

end Value

/-- A value as it is read from where it is stored, and how its arrays answer to an index
outside. -/
structure Found (α : Type) where
  value : Value α
  access : Access

namespace Found

variable {α : Type} [Scalar α]

def array (x : Found α) : Checked (Block α) := x.value.array

end Found

end LeastSquares
