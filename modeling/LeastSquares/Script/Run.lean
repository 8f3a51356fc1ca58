import LeastSquares.Buffer.Pullback
import LeastSquares.Script.Arithmetic
import LeastSquares.Script.Query

/-!
# Running scripts

A step answers with data, or with an object that can be named. The object has its name before it
is reported, so that it is there also if there is no report of it. If a step fails, the script
goes on.
-/

namespace LeastSquares

namespace Machine

variable {C α : Type} [DecidableEq C] [FactorFamily C] [Scalar α]

/-! ## Texts and values -/

def collectionName : Object C α → Option String
  | .vectors _ => some "AllVectors"
  | .graph _ => some "FactorGraph"
  | .linear .. => some "GaussianFactorGraph"
  | _ => none

/-- The text of a collection, or of an empty buffer. -/
def print (o : Object C α) : Checked (Report α) := do
  match o with
  | .store s => Report.storeText s
  | .buffer b => if b.isEmpty then return .emptyText b else misfit
  | o => Report.countsText (← fitting (collectionName o)) (← fitting o.buffers?)

/-- The value reached from `x` along a tangent vector. A label stays as it is given; what moves in
its own way has to be made of arrays. -/
def retracted (t : VariableType) (x : Literal α) (d : Block α) : Checked (Report α) := do
  match t with
  | .discrete => return .ofLiteral x
  | .lie _ => return .ofValue (← t.retract (← fitting x.arrays?) (.ofBlock d))
  | _ => return .ofValue (← t.retract (← fitting x.value?) (.ofBlock d))

/-- The tangent vector that leads from `x` to `y`. -/
def coordinates (t : VariableType) (x y : Literal α) : Checked (Value α) := do
  match t with
  | .lie _ => t.localCoordinates (← fitting x.arrays?) (← fitting (x.alongside? y))
  | _ => t.localCoordinates (← fitting x.value?) (← fitting y.value?)

/-- The number of elements of a buffer, or of buffers in a collection. -/
def lengthOf : Object C α → Checked Nat
  | .buffer b => b.count
  | o => do return (← fitting o.buffers?).size

/-! ## Collections -/

/-- An object taken apart and put together again. Buffers become new ones, and factors share their
parts; graphs are kept as they are. -/
def rebuilt (id : Nat) : Machine C α (Answer α) := do
  match ← object id with
  | .graph _ | .linear .. => present id
  | .buffer b => create (.buffer { b with serial := none })
  | .factor f origin => create (.factor f origin)
  | .summary s point => do
    let .object point ← rebuiltPoint point | fail
    create (.summary s point)
  | .solved steps point => do
    let .object point ← rebuiltPoint point | fail
    create (.solved steps point)
  | o => create (afresh o)
where
  afresh (o : Object C α) : Object C α :=
    match o.buffers? with
    | some t => o.withBuffers (t.map fun _ b => { b with serial := none })
    | none => o
  rebuiltPoint (id : Nat) : Machine C α (Answer α) := do
    match ← object id with
    | .graph _ | .linear .. => present id
    | o => create (afresh o)

/-! ## Steps -/

def perform : Step C α → Machine C α (Answer α)
  | .typeInfo t => do
    let default ← checked t.default
    answer (.list [.text t.name, .int t.paramDim, .int t.tangentDim,
      .bool t.isDifferentiable, .ofValue default])
  | .realType dim => do answer (.text (← checked (VariableType.ofDim dim)).name)
  | .infer x => do
    let x ← checked x.build
    answer (.text (← checked (VariableType.infer (FactorFamily.tuples C) x)).name)
  | .handleText h => do answer (.text (← checked h.build).text)
  | .retract t x d => do
    let x ← checked x.build
    answer (← checked (retracted t x (← checked (Literal.arrayOf d))))
  | .localCoordinates t x y => do
    let x ← checked x.build
    answer (.ofValue (← checked (coordinates t x (← checked y.build))))
  | .flatten x => do
    let x ← checked (fitting (Literal.value? (← checked x.build)))
    answer (.ofBlock (← checked (Value.flatten x)))
  | .unflatten t flat => do
    answer (.ofValue (← checked (t.unflatten (← checked (Literal.arrayOf flat)))))
  | .noise n => do
    let n ← checked n.build
    answer (.list [.ofTree Report.ofBlock (n.tree id), .int (← checked n.residualDim)])
  | .whiten n residual => do
    let n ← checked n.build
    answer (.ofBlock (← checked (n.whiten (← checked (Literal.arrayOf residual)))))
  | .stack xs axis => do
    let xs ← xs.mapM fun x => checked x.build
    answer (.ofLiteral (← checked (Literal.stack axis xs)))
  | .concat xs axis => do
    let xs ← xs.mapM fun x => checked x.build
    answer (.ofLiteral (← checked (Literal.concat axis xs)))
  | .index x i => do answer (.ofLiteral (← checked (Literal.indexed (← checked x.build) i)))
  | .newBuffer b => do create (.buffer (← checked b.build))
  | .append a x => do
    let b ← bufferOf (← named a)
    create (.buffer (← checked (b.append (← checked x.build))))
  | .replace a i x => do
    let b ← bufferOf (← named a)
    let x ← checked x.build
    create (.buffer (← checked (b.replace (← checked i.placesOf) x)))
  | .jacobians a s => do
    let b ← bufferOf (← named a)
    let (group, jacobians) ← checked (b.jacobians s)
    answer (.list [.text group.name, ← checked (Report.ofBuffer jacobians)])
  | .tangentZeros t count =>
    if count < 0 then fail else create (.buffer (.tangentZeros t count.toNat))
  | .sameContent t u => answer (.bool (t = u))
  | .scaledDotGradient t s x y => do
    let buffer (rows : Literal α) : Machine C α (Buffer C α) := do
      return .ofVectors (.type t) (← checked (Literal.arrayOf rows))
    let (rateS, rateX, rateY) ←
      checked (Buffer.scaledDotGradient s (← buffer x) (← buffer y))
    answer (.list [.ofBlock rateS, .ofStorage rateX.stack, .ofStorage rateY.stack])
  | .arithmetic op a b => arithmetic op a b
  | .neg a => scaleOf a (-Scalar.one)
  | .squaredNorm a => do
    match ← named a with
    | .buffer b => answer (.ofBlock (← checked b.squaredNorm))
    | .vectors v => answer (.number (← checked v.squaredNorm))
    | _ => fail
  | .scaled a s => scaleOf a s
  | .dump a => do present (← reference a)
  | .storage a => do
    answer (← checked (Report.ofEntries Report.ofBuffer (← buffersOf (← named a))))
  | .print a => do answer (← checked (print (← named a)))
  | .length a => do answer (.int (← checked (lengthOf (← named a))))
  | .isEmpty a => do answer (.bool (← bufferOf (← named a)).isEmpty)
  | .keys a => do
    let t ← checked (← named a).entries
    answer (.list (t.keys.map fun key => .text key.name))
  | .counts a => do answer (← checked (Report.ofCounts (← buffersOf (← named a))))
  | .countsFrom a least => do
    let t ← buffersOf (← named a)
    let counts ← checked (t.filterMapM fun _ b => do
      return if least ≤ (← b.count) then some b else none)
    answer (← checked (Report.ofCounts counts))
  | .contains a t => do
    answer (.bool ((← checked (← named a).entries).contains (.type t)))
  | .buffer a t => do
    create (.buffer ((← buffersOf (← named a)).buffer (.type t)))
  | .setBuffer a t b => do
    let id ← reference a
    let o ← object id
    let t' ← buffersOf o
    let b ← bufferOf (← named b)
    assign id (o.withBuffers (t'.insert (.type t) b))
    present id
  | .copy a => do
    let o ← named a
    let _ ← buffersOf o
    create o
  | .restore a b => do
    let id ← reference a
    let o ← object id
    let _ ← buffersOf o
    assign id (o.withBuffers (← buffersOf (← named b)))
    present id
  | .rebuild a => do rebuilt (← reference a)
  | .fillEmpty a b => do
    let id ← reference a
    let o ← object id
    let ours ← buffersOf o
    let theirs ← buffersOf (← named b)
    edit id o.withBuffers ours
      (Buffers.update (fun x y => return if x.isEmpty then y else x) theirs.entries)
    present id
  | .atHandle a h => do
    let o ← named a
    answer (.ofValue (← checked (o.reader (← checked h.build))).value)
  | .atIndex a i => do
    let b ← bufferOf (← named a)
    answer (.ofStack (← checked (b.get (← checked i.placesOf))))
  | .vectors entries => do create (.vectors (← checked (Vectors.ofRows entries)))
  | .scatterAdd a h vectors => do
    let id ← reference a
    let v ← vectorsOf (← object id)
    let h ← checked h.build
    let rows ← checked (Literal.arrayOf vectors)
    let accumulator := v.buffer (.type h.type)
    if !accumulator.isEmpty && accumulator.place = .host then fail
    assign id (.vectors (← checked (v.scatterAdd h rows)))
    present id
  | .like a entries => do
    create (.vectors (← checked (Vectors.refilled (← buffersOf (← named a)) entries)))
  | .values name xs => do
    let id ← allocate (.store .empty)
    if let some name := name then bindName name id
    storeAll id xs
    present id
  | .store a x t => do
    let id ← reference a
    let s ← storeOf (← object id)
    let (s, h) ← checked (s.insert (← checked x.build) t)
    assign id (.store s)
    answer (.ofHandle Report.ofItem h)
  | .write a h x => do
    let id ← reference a
    let s ← storeOf (← object id)
    let h ← checked h.build
    assign id (.store (← checked (s.write h (← checked x.build))))
    present id
  | .stacked a t => do
    let s ← storeOf (← named a)
    answer (.ofStorage (← checked (s.stacked t)))
  | .zeros a => do
    let s ← storeOf (← named a)
    create (.vectors (← checked s.tangentZeros))
  | .move a b => do
    let id ← reference a
    let s ← storeOf (← object id)
    edit id .store s (Store.move (← buffersOf (← named b)))
    present id
  | .moved a b => do
    let s ← storeOf (← named a)
    create (.store (← checked (s.moved (← buffersOf (← named b)))))
  | .factor x => do createFactor (← checked x.build)
  | .groupName x => do answer (.text (GroupKey.ofItems (← checked x.build)).name)
  | .sameGroup x y => do
    let x := GroupKey.ofItems (← checked x.build)
    let y := GroupKey.ofItems (← checked y.build)
    answer (.bool (x = y))
  | .askFactor query a point => askFactor query a point
  | .factorAdjoint a y => factorAdjoint a y
  | .graph name xs => do
    let id ← allocate (.graph .empty)
    if let some name := name then bindName name id
    xs.forM (addFactor id)
    present id
  | .addFactor a x => do
    let id ← reference a
    addFactor id x
    present id
  | .factorCount a => do
    let g ← graphOf (← named a)
    answer (.int (← checked g.factorCount))
  | .askGraph query a point => askGraph query a point
  | .derivative a point => derivativeOf a point
  | .template a => do
    let (_, template) ← linearOf (← named a)
    present template
  | .damp a s => do
    let id ← reference a
    let (g, template) ← linearOf (← object id)
    edit id (fun g => .linear g.buffers template) g (LinearGraph.damp s)
    present id
  | .cgls a x config => cgls a x config
  | .levenbergMarquardt a point config =>
    optimize a point ⟨LevenbergMarquardt.optimize config, LevenbergMarquardt.atRest config⟩
  | .gradientDescent a point config =>
    optimize a point
      ⟨GradientDescent.optimize config, fun error _ => GradientDescent.atRest config error⟩

/-- Perform a step, name what it answers and report it. -/
def performNamed (step : Step C α) (name : Option String) : Machine C α (Report α) := do
  match ← perform step with
  | .data r =>
    if let some name := name then bindName name (← allocate (.other r))
    return r
  | .object id =>
    if let some name := name then bindName name id
    reportOf id

end Machine

abbrev StepResult (α : Type) : Type := Except (StepError α) (Report α)

namespace Session

variable {C α : Type} [DecidableEq C] [FactorFamily C] [Scalar α]

/-- Perform the steps in order, each with the name for what it answers. -/
def run (s : Session C α) : List (Step C α × Option String) →
    List (StepResult α) × Session C α
  | [] => ([], s)
  | (step, name) :: rest =>
    let (result, s) : StepResult α × Session C α :=
      match Machine.performNamed step name s with
      | .ok report t => (.ok report, t)
      | .error e t => (.error e, t)
    let (results, s) := s.run rest
    (result :: results, s)

end Session

/-! ## Errors -/

/-- How an error is reported: its kind, and what is said with it. -/
def StepError.report : StepError Float → Report Float
  | .missingName => .record [("error", .text "MissingName")]
  | .solver (.failed .misfit) => .record [("error", .text "LibraryError")]
  | .solver (.failed (.broken rule)) =>
    .record [("error", .text "AssertionError"), ("message", .text rule.message)]
  | .solver (.gaveUp lambda iterations) =>
    .record [
      ("error", .text "LevenbergMarquardtError"),
      ("message", .text ("maximum lambda reached, giving up (lambda=" ++
        Decimal.format (.general 3) lambda ++ " after " ++ toString iterations ++
        " iterations)")),
      ("lambd", .lambda lambda),
      ("iterations", .int iterations)]

end LeastSquares
