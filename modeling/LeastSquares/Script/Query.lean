import LeastSquares.Graph.Derivative
import LeastSquares.Script.Session
import LeastSquares.Script.Step

/-!
# Questions to factors and graphs

What a script asks of factors, of nonlinear and linear graphs, and of solvers. Whether an object
can be asked is seen before the point is looked up. A point may be any object; what is not read
there does not matter.
-/

namespace LeastSquares.Machine

variable {C α : Type} [DecidableEq C] [FactorFamily C] [Scalar α]

/-! ## Stores and graphs -/

/-- Add values to the store with a number, one by one. -/
def storeAll (id : Nat) : List (Given α) → Machine C α Unit
  | [] => return
  | x :: rest => do
    let s ← storeOf (← object id)
    let (s, _) ← checked (s.insert (← checked x.build) none)
    assign id (.store s)
    storeAll id rest

/-- Add a factor to the graph with a number. -/
def addFactor (id : Nat) (x : GivenFactor C α) : Machine C α Unit := do
  let g ← graphOf (← object id)
  let f ← checked x.build
  if let some e := g.opening f then log e
  assign id (.graph (← checked (g.insert f)))

/-! ## Factors -/

/-- Ask a factor at the values of an object. -/
def askFactor (query : FactorQuery) (a point : String) : Machine C α (Answer α) := do
  let f ← factorOf (← named a)
  if !query.suits f.kind.rank then fail
  let point ← named point
  let values ← checked (f.handles.mapM point.reader)
  let listed (values : List (Found α)) : Report α := .list (values.map (.ofValue ·.value))
  if query = .values then answer (listed values)
  else
    let f ← checked (fitting f.ready?)
    match query with
    | .values => answer (listed values)
    | .error => answer (.ofBlock (← checked (f.error values)))
    | .residual => answer (.ofBlock (← checked (f.residual values)))
    | .component =>
      let (part, values) ← checked (f.component values)
      answer (.list [.ofFactor Report.ofItem Report.ofBlock part, listed values])
    | .linearized =>
      let linear ← checked (f.linearized values)
      createFactor (linear.mapFields (Item.array .device))
    | .forward => answer (.ofBlock (← checked (f.forward values)))

def factorAdjoint (a : String) (y : Literal α) : Machine C α (Answer α) := do
  let f ← factorOf (← named a)
  let f ← checked (fitting f.ready?)
  let parts ← checked (f.adjoint (← checked (Literal.arrayOf y)))
  answer (.list (parts.map Report.ofBlock))

/-! ## Graphs -/

def askNonlinear (query : GraphQuery) (g : FactorGraph C α) (point : Object C α) :
    Machine C α (Answer α) := do
  match query with
  | .error => answer (.number (← checked (g.error point.bulkReader)))
  | .residualError => answer (.number (← checked (g.residualError point.bulkReader)))
  | .residuals => create (.vectors (← checked (g.residuals point.bulkReader)))
  | .gradient => create (.vectors (← checked (g.gradient (← storeOf point))))
  | .linearize =>
    let buffers ← checked (g.linearStacks point.bulkReader)
    log (← checked (g.linearizedEvent buffers.size))
    let zeros ← checked (← storeOf point).tangentZeros
    create (.linear buffers (← allocate (.vectors zeros)))
  | .forward | .adjoint => fail

def askLinear (query : GraphQuery) (g : LinearGraph C α) (point : Object C α) :
    Machine C α (Answer α) := do
  match query with
  | .error => answer (.number (← checked (g.error point.bulkReader)))
  | .residuals => create (.vectors (← checked (g.residuals point.bulkReader)))
  | .forward => create (.vectors (← checked (g.forward point.bulkReader)))
  | .adjoint =>
    let y ← if g.buffers.size = 0 then pure Table.empty else buffersOf point
    create (.vectors (← checked (g.adjoint y)))
  | .residualError | .gradient | .linearize => fail

def askGraph (query : GraphQuery) (a point : String) : Machine C α (Answer α) := do
  match ← named a with
  | .graph g =>
    if !query.suitsNonlinear then fail
    askNonlinear query g (← named point)
  | .linear buffers template =>
    if !query.suitsLinear then fail
    let (g, _) ← linearOf (.linear buffers template)
    askLinear query g (← named point)
  | _ => fail

/-- The derivative of the error of a graph along a displacement of a store. -/
def derivativeOf (a point : String) : Machine C α (Answer α) := do
  let o ← named a
  let point ← named point
  let s ← storeOf point
  match o with
  | .graph g => create (.vectors (← checked (g.buffers.derivative s)))
  | .linear buffers _ => create (.vectors (← checked (buffers.derivative s)))
  | _ => fail

/-! ## Solvers -/

/-- Run a solver from a point. What it did to the point is kept also if it fails. -/
def runSolver {P : Type} (solver : Solve P α (Summary α)) (p : P)
    (keep : P → Machine C α Unit) : Machine C α (Summary α) := do
  let finish (run : Run P α) : Machine C α Unit := do
    keep run.point
    run.events.forM log
  match solver ⟨p, #[]⟩ with
  | .ok summary run =>
    finish run
    return summary
  | .error e run =>
    finish run
    throw (.solver e)

/-- A nonlinear solver, on a store and where it has nothing to move. -/
structure Method (C α : Type) where
  onStore : FactorGraph C α → Solve (Store C α) α (Summary α)
  /-- The run, given the error and what is reported when the graph is linearised. -/
  atRest : Checked α → Checked (Event α) → Solve Unit α (Summary α)

/-- Run a solver of nonlinear problems. Stores are moved in place. -/
def optimize (a point : String) (method : Method C α) : Machine C α (Answer α) := do
  let o ← named a
  let id ← reference point
  let p ← object id
  let rest (error : Checked α) (linearized : Checked (Event α)) : Machine C α (Summary α) :=
    runSolver (method.atRest error linearized) () fun _ => return
  let summary ← match o, p with
    | .graph g, .store s => runSolver (method.onStore g) s fun s => assign id (.store s)
    | .graph g, p =>
      rest (g.error p.bulkReader)
        (do g.linearizedEvent (← g.linearStacks p.bulkReader).size)
    | .linear buffers template, p => do
      let (g, _) ← linearOf (.linear buffers template)
      rest (g.error p.bulkReader) misfit
    | _, _ => fail
  create (.summary summary id)

/-- Solve a linear graph, moving vectors in place. They may be the template of the graph. Another
point must be a solution already. -/
def cgls (a x : String) (config : Cgls.Config α) : Machine C α (Answer α) := do
  let o ← named a
  let id ← reference x
  let p ← object id
  match o, p with
  | .linear buffers template, p =>
    let (g, _) ← linearOf (.linear buffers template)
    let (steps, gamma) ← match p with
      | .vectors v => edit id .vectors v (Cgls.solve config g (id = template))
      | p => do pure (0, ← checked (Cgls.atRest config g p.bulkReader))
    log (.linearSolved steps gamma)
    create (.solved steps id)
  | .graph g, p => do
    let _ ← checked (g.residuals p.bulkReader)
    fail
  | _, _ => fail

end LeastSquares.Machine
