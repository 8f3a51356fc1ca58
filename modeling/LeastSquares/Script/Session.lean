import LeastSquares.Script.Report

/-!
# Sessions

A session holds the objects of a script and the names that refer to them. A computation on a
session may fail; the changes that it had made in place stay.

Objects are told apart by their numbers. A buffer that is kept, by itself or in a collection, is
an object too and carries its number, so that the buffers of a collection can be asked for and
compared. The result of a solver refers to the object that the solver worked on, and changes with
it.
-/

namespace LeastSquares

/-- What a name can refer to. -/
inductive Object (C α : Type) where
  | buffer (b : Buffer C α)
  | vectors (v : Vectors C α)
  | store (s : Store C α)
  | graph (g : FactorGraph C α)
  /-- A linear graph. Its template is an object of its own, which copies share. -/
  | linear (buffers : Buffers C α) (template : Nat)
  /-- A factor, with the number of the object whose parts it shares. -/
  | factor (f : FactorLiteral C α) (origin : Nat)
  /-- The summary of a solver that worked on an object. -/
  | summary (s : Summary α) (point : Nat)
  /-- The steps that a linear solver made, and the object that it worked on. -/
  | solved (steps : Nat) (point : Nat)
  /-- A result that no step works on. -/
  | other (r : Report α)

/-- The objects of a script, the names for them, and the events so far. -/
structure Session (C α : Type) where
  names : List (String × Nat)
  objects : Array (Object C α)
  events : Array (Event α)

inductive StepError (α : Type) where
  /-- It refers to a name that was never given. -/
  | missingName
  | solver (e : SolverError α)

abbrev Machine (C α β : Type) : Type := EStateM (StepError α) (Session C α) β

/-- What a step answers: plain data, or an object. -/
inductive Answer (α : Type) where
  | data (r : Report α)
  | object (id : Nat)

namespace Session

variable {C α : Type}

def empty : Session C α := ⟨[], #[], #[]⟩

end Session

namespace Object

variable {C α : Type}

def buffers? : Object C α → Option (Buffers C α)
  | vectors v => some v.buffers
  | store s => some s.buffers
  | graph g => some g.buffers
  | linear buffers _ => some buffers
  | _ => none

def withBuffers (o : Object C α) (t : Buffers C α) : Object C α :=
  match o with
  | vectors _ => vectors ⟨t⟩
  | store _ => store ⟨t⟩
  | graph _ => graph ⟨t⟩
  | linear _ template => linear t template
  | o => o

variable [DecidableEq C] [FactorFamily C] [Scalar α]

/-- What can be found at a handle in an object that is no collection of values. -/
def stray (o : Object C α) : Checked (Found α) :=
  match o with
  | buffer b =>
    match b.stack with
    | none => .error (.broken .readStored)
    | some (.values v) => if v.leaves.isEmpty then .ok ⟨v, b.place.access⟩ else misfit
    | some (.factors _) => misfit
  | _ => misfit

/-- How values are found in an object, for a single factor. -/
def reader (o : Object C α) : Reader α :=
  match o with
  | store s => s.read
  | vectors v => v.read
  | o => fun _ => o.stray

/-- How values are found in an object, for stacks of factors. -/
def bulkReader (o : Object C α) : Reader α :=
  match o with
  | store s => s.bulk
  | vectors v => v.bulk
  | o => fun _ => o.stray

/-- The report of an object that refers to no other. -/
def plainReport : Object C α → Checked (Report α)
  | buffer b => Report.ofBuffer b
  | vectors v => Report.ofBuffers v.buffers
  | store s => Report.ofBuffers s.buffers
  | graph g => Report.ofCounts g.buffers
  | linear buffers _ => Report.ofBuffers buffers
  | factor f _ => return .ofFactor Report.ofItem Report.ofItem f
  | other r => return r
  | summary .. | solved .. => misfit

end Object

namespace Machine

variable {C α β : Type}

def fail : Machine C α β := throw (.solver (.failed .misfit))

def checked (result : Checked β) : Machine C α β :=
  match result with
  | .ok b => pure b
  | .error e => throw (.solver (.failed e))

/-- The number of the object that a name refers to. -/
def reference (name : String) : Machine C α Nat := do
  match (← get).names.find? (·.1 = name) with
  | some (_, id) => return id
  | none => throw .missingName

def object (id : Nat) : Machine C α (Object C α) := do
  match (← get).objects[id]? with
  | some o => return o
  | none => throw .missingName

def named (name : String) : Machine C α (Object C α) := do object (← reference name)

def bindName (name : String) (id : Nat) : Machine C α Unit :=
  modify fun s => { s with names := (name, id) :: s.names }

def log (e : Event α) : Machine C α Unit :=
  modify fun s => { s with events := s.events.push e }

/-! ## Keeping objects -/

def nextId : Machine C α Nat := do return (← get).objects.size

def push (o : Object C α) : Machine C α Unit :=
  modify fun s => { s with objects := s.objects.push o }

/-- A buffer as it is kept, with its number. -/
def keep (b : Buffer C α) : Machine C α (Buffer C α × Nat) := do
  match b.serial with
  | some id => return (b, id)
  | none =>
    let id ← nextId
    let b := { b with serial := some id }
    push (.buffer b)
    return (b, id)

variable [DecidableEq C]

/-- An object as it is kept: the buffers of a collection have their numbers. -/
def settled (o : Object C α) : Machine C α (Object C α) := do
  match o.buffers? with
  | some t => return o.withBuffers (← t.mapM fun _ b => do return (← keep b).1)
  | none => return o

/-- Add an object. A buffer that is one already stays so. -/
def allocate (o : Object C α) : Machine C α Nat := do
  match o with
  | .buffer b => return (← keep b).2
  | o =>
    let o ← settled o
    let id ← nextId
    push o
    return id

def assign (id : Nat) (o : Object C α) : Machine C α Unit := do
  let o ← settled o
  modify fun s => { s with objects := s.objects.setIfInBounds id o }

/-- Edit an object in place; its changes stay also if the edit fails. -/
def edit {S : Type} (id : Nat) (wrap : S → Object C α) (s : S) (change : Edit S β) :
    Machine C α β := do
  match change s with
  | .ok b t =>
    assign id (wrap t)
    return b
  | .error e t =>
    assign id (wrap t)
    throw (.solver (.failed e))

/-! ## Views of objects -/

def buffersOf (o : Object C α) : Machine C α (Buffers C α) := checked (fitting o.buffers?)

def bufferOf : Object C α → Machine C α (Buffer C α)
  | .buffer b => return b
  | _ => fail

def vectorsOf : Object C α → Machine C α (Vectors C α)
  | .vectors v => return v
  | _ => fail

def storeOf : Object C α → Machine C α (Store C α)
  | .store s => return s
  | _ => fail

def graphOf : Object C α → Machine C α (FactorGraph C α)
  | .graph g => return g
  | _ => fail

/-- A linear graph with its template. -/
def linearOf : Object C α → Machine C α (LinearGraph C α × Nat)
  | .linear buffers template => do
    return (⟨buffers, ← vectorsOf (← object template)⟩, template)
  | _ => fail

def factorOf : Object C α → Machine C α (FactorLiteral C α)
  | .factor f _ => return f
  | _ => fail

/-! ## Answers -/

def answer (r : Report α) : Machine C α (Answer α) := return .data r

def present (id : Nat) : Machine C α (Answer α) := return .object id

def create (o : Object C α) : Machine C α (Answer α) := do present (← allocate o)

def createFactor (f : FactorLiteral C α) : Machine C α (Answer α) := do
  create (.factor f (← nextId))

variable [FactorFamily C] [Scalar α]

/-- The report of an object as it is now. -/
def reportOf (id : Nat) : Machine C α (Report α) := do
  match ← object id with
  | .summary s point => return .ofSummary s (← checked (← object point).plainReport)
  | .solved steps point =>
    return .list [.int steps, ← checked (← object point).plainReport]
  | o => checked o.plainReport

end Machine

end LeastSquares
