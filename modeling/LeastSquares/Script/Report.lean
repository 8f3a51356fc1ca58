import LeastSquares.Graph.Nonlinear
import LeastSquares.Numeric.Decimal
import LeastSquares.Numeric.Double
import LeastSquares.Solver.Nonlinear

/-!
# Reports

What a script answers: values, buffers, collections and summaries as plain nested data, and
texts in which numbers still wait to be written in the style of the answer.
-/

namespace LeastSquares

inductive Piece (α : Type) where
  | text (s : String)
  | number (x : α)
  | lambda (x : α)

inductive Report (α : Type) where
  | null
  | bool (b : Bool)
  | int (i : Int)
  | number (x : α)
  | lambda (x : α)
  | text (s : String)
  | phrase (pieces : List (Piece α))
  | list (items : List (Report α))
  | record (fields : List (String × Report α))

/-! ## Numbers -/

/-- The styles of numbers in answers. -/
inductive Style where
  /-- Seven places; from `10 ^ 4` on with an exponent. A zero has no sign. -/
  | rounded
  /-- Twelve places and an exponent. -/
  | exact
  deriving DecidableEq

namespace Style

def number (style : Style) (x : Float) : String :=
  match style with
  | exact => Decimal.format (.scientific 12) x
  | rounded =>
    if x.abs < 1.0e4 then
      let text := Decimal.format (.fixed 7) x
      if text = "-0.0000000" then "0.0000000" else text
    else Decimal.format (.scientific 7) x

def lambda (style : Style) (x : Float) : String :=
  match style with
  | exact => style.number x
  | rounded => Decimal.format (.scientific 6) x

def phrase (style : Style) (pieces : List (Piece Float)) : String :=
  String.join (pieces.map fun
    | .text s => s
    | .number x => style.number x
    | .lambda x => style.lambda x)

end Style

/-! ## Arrays and values -/

namespace Report

variable {α : Type}

/-- The cells of an array as nested lists. -/
def nested : Shape → List (Report α) → Report α
  | [], cells => cells.headD null
  | _ :: rest, cells => list (rows rest (Shape.volume rest) cells cells.length)
where
  /-- The cells in portions of `width`, each nested. -/
  rows (rest : Shape) (width : Nat) (cells : List (Report α)) : Nat → List (Report α)
    | 0 => []
    | fuel + 1 =>
      if cells.isEmpty then []
      else nested rest (cells.take width) :: rows rest width (cells.drop width) fuel

/-- The cells of an array as nested lists; empty rows are lists without items. -/
def ofTensor {γ : Type} (item : γ → Report α) (t : Tensor γ) : Report α :=
  if t.shape.volume = 0 then hollow t.shape else nested t.shape (t.cells.toList.map item)
where
  hollow : Shape → Report α
    | [] => null
    | d :: rest => list (List.replicate d (hollow rest))

def ofBlock : Block α → Report α
  | .bools t => ofTensor bool t
  | .ints t => ofTensor int t
  | .reals t => ofTensor number t

def ofItem : Item α → Report α
  | .array _ b => ofBlock b
  | .int i => int i
  | .bool b => bool b
  | .real x => number x
  | .text s => text s

/-- A value, given how its leaves are reported. -/
def ofTree {β : Type} (leaf : β → Report α) : Tree β → Report α
  | .leaf b => leaf b
  | .absent => null
  | .node label cs =>
    let parts := all cs
    match label with
    | .tuple | .list => list parts
    | .fields names => record (names.zip parts)
    | .group g => record [(g.name, parts.headD null)]
    | .fullNoise =>
      record [("class", text "Gaussian"), ("sqrt_precision_matrix", parts.headD null)]
    | .diagonalNoise =>
      record [("class", text "DiagonalGaussian"),
        ("sqrt_precision_diagonal", parts.headD null)]
where
  all : List (Tree β) → List (Report α)
    | [] => []
    | c :: cs => ofTree leaf c :: all cs

def ofValue (v : Value α) : Report α := ofTree ofBlock v

def ofLiteral (x : Literal α) : Report α := ofTree ofItem x

def ofHandle {β : Type} (leaf : β → Report α) (h : Handle β) : Report α :=
  record [("h", list [text h.type.name, leaf h.index])]

variable {C : Type} [FactorFamily C]

def ofFactor {ι β : Type} (index : ι → Report α) (leaf : β → Report α) (f : Factor C ι β) :
    Report α :=
  record (("class", text f.kind.name) ::
    ("variables", list (f.handles.map (ofHandle index))) ::
    f.kind.fieldNames.zip (f.fields.map (ofTree leaf)))

/-! ## Buffers and collections -/

def ofStack : Stack C α → Report α
  | .values v => ofValue v
  | .factors f => ofFactor ofBlock ofBlock f

/-- The stack of a buffer, or null. -/
def ofStorage : Option (Stack C α) → Report α
  | some s => ofStack s
  | none => null

def ofBuffer [Scalar α] (b : Buffer C α) : Checked (Report α) := do
  return record [
    ("dispatch", match b.content with
      | some c => text c.name
      | none => null),
    ("count", int (← b.count)),
    ("data", ofStorage b.stack)]

/-- Each entry with its key. -/
def ofEntries (entry : Buffer C α → Checked (Report α)) (t : Buffers C α) :
    Checked (Report α) := do
  return list (← t.entries.mapM fun (key, b) => do return list [text key.name, ← entry b])

def ofBuffers (t : Buffers C α) : Checked (Report α) :=
  ofEntries (fun b => return ofStorage b.stack) t

def ofCounts [Scalar α] (t : Buffers C α) : Checked (Report α) :=
  ofEntries (fun b => do return int (← b.count)) t

def ofSummary (s : Summary α) (point : Report α) : Report α :=
  record [
    ("iterations", int s.iterations),
    ("accepted_steps", int s.acceptedSteps),
    ("error_history", list (s.errorHistory.toList.map number)),
    ("lambda_history", list (s.lambdaHistory.toList.map lambda)),
    ("values", point)]

/-! ## Texts -/

/-- The counts of a collection in one line. -/
def countsText [Scalar α] (name : String) (t : Buffers C α) : Checked (Report α) := do
  let entries ← t.entries.mapM fun (key, b) => do
    return key.name ++ ": " ++ toString (← b.count)
  return text (name ++ "(" ++ ", ".intercalate entries ++ ")")

/-- An empty buffer in one line. -/
def emptyText (b : Buffer C α) : Report α :=
  text ("AnyArrayBuffer(storage=None, dispatch=" ++ (b.content.elim "None" Content.name) ++ ")")

def fivePlaces [Scalar α] (x : α) : α :=
  let scale : α := Scalar.ofInt 100000
  Elementary.round (x * scale) / scale

/-- The coordinates of one value in a row. -/
def coordinates [Scalar α] (flat : Block α) : Checked (List (Piece α)) :=
  match flat with
  | .bools _ => misfit
  | .ints t => return separated (t.cells.toList.map fun i => .text (toString i))
  | .reals t => return separated (t.cells.toList.map fun x => .number (fivePlaces x))
where
  separated (items : List (Piece α)) : List (Piece α) :=
    .text "[" :: (items.intersperse (.text ", ") ++ [.text "]"])

/-- The values of a store, one in a line. -/
def storeText [DecidableEq C] [Scalar α] (s : Store C α) : Checked (Report α) := do
  let blocks ← s.buffers.entries.mapM fun (key, b) => do
    let .type type := key | misfit
    let count ← b.count
    let lines ← (List.range count).mapM fun i => do
      let .values v ← b.get (.int (i : Nat)) | misfit
      let row ← coordinates (← Value.flatten v)
      return .text ("    [" ++ toString i ++ "]: ") :: (row ++ [.text "\n"])
    return .text ("  " ++ type.name ++ ": " ++ toString count ++ " values\n") :: lines.flatten
  return phrase (.text "VariableAssignments(\n" :: (blocks.flatten ++ [.text ")"]))

end Report

/-! ## Events -/

def Level.name : Level → String
  | debug => "DEBUG"
  | info => "INFO"

def Event.pieces {α : Type} (e : Event α) : List (Piece α) :=
  .text (e.level.name ++ " ") :: message e
where
  message : Event α → List (Piece α)
    | stackCreated group content =>
      [.text ("Creating factor stack for " ++ group ++ " (" ++ content ++ ")")]
    | linearized factors groups =>
      [.text ("Linearized " ++ toString factors ++ " factors in " ++ toString groups ++ " stacks")]
    | linearSolved steps gamma =>
      [.text ("CGLS finished after " ++ toString steps ++ " steps, gamma="), .number gamma]
    | iteration number error lambda =>
      [.text ("[LevenbergMarquardtSolver] Iteration #" ++ toString number ++ ": error="),
        .number error, .text " lambda=", .lambda lambda]
    | trial lambda error fidelity =>
      [.text "[LevenbergMarquardtSolver] lambda=", .lambda lambda, .text " error=",
        .number error, .text " fidelity=", .number fidelity]
    | converged error iterations =>
      [.text "[LevenbergMarquardtSolver] Converged at error=", .number error,
        .text (" after " ++ toString iterations ++ " iterations")]
    | terminated iterations error =>
      [.text ("[LevenbergMarquardtSolver] Terminated @ iteration #" ++ toString iterations ++
        ": error="), .number error]
    | descended step error =>
      [.text ("[GradientDescentSolver] Iteration #" ++ toString step ++ ": error="),
        .number error]

end LeastSquares
