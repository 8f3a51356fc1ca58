import LeastSquares.Factor.Comparison
import LeastSquares.Script.Session
import LeastSquares.Script.Step

/-!
# Arithmetic on objects

Sums, inner products and comparisons of the objects of a session. An empty buffer decides
the result of a sum or an inner product alone, so the other operand may be anything. A sum asks
for both of its operands before it looks at them, an inner product looks at the first before it
asks for the second.
-/

namespace LeastSquares

/-- The buffers in which a key can be looked up. -/
def Object.entries {C α : Type} (o : Object C α) : Checked (Buffers C α) :=
  match o with
  | .buffer b => if b.stack.isNone then .error (.broken .readStored) else misfit
  | o => fitting o.buffers?

namespace Machine

variable {C α : Type} [DecidableEq C] [FactorFamily C] [Scalar α]

/-- Sum or difference of two objects. An operation that has nothing to add returns an operand
itself. -/
def sumOf (minus : Bool) (id : Nat) (b : Operand α) : Machine C α (Answer α) := do
  match ← object id, b with
  | .buffer x, .object name =>
    let other ← reference name
    match ← object other with
    | .buffer y => create (.buffer (← checked (if minus then x.sub y else x.add y)))
    | _ => if x.isEmpty && !minus then present other else fail
  | .buffer x, .number s =>
    if x.isEmpty && !minus then answer (.ofItem s) else fail
  | .vectors v, .object name =>
    let other : Vectors C α := ⟨← buffersOf (← named name)⟩
    create (.vectors (← checked (if minus then v.sub other else v.add other)))
  | _, .object name => do
    let _ ← reference name
    fail
  | _, .number _ => fail

/-- Add to an object, or subtract from it. Vectors change in place; of buffers the answer is
a new object. -/
def accumulate (minus : Bool) (id : Nat) (b : Operand α) : Machine C α (Answer α) := do
  match ← object id, b with
  | .vectors v, .object name =>
    let other : Vectors C α := ⟨← buffersOf (← named name)⟩
    edit id .vectors v (if minus then Vectors.decrease other else Vectors.increase other)
    present id
  | _, b => sumOf minus id b

def dotOf (id : Nat) (b : Operand α) : Machine C α (Answer α) := do
  match ← object id, b with
  | .buffer x, .object name =>
    match ← named name with
    | .buffer y => answer (.ofBlock (← checked (x.dot y)))
    | _ => if x.isEmpty then answer (.number Scalar.zero) else fail
  | .buffer x, .number _ =>
    if x.isEmpty then answer (.number Scalar.zero) else fail
  | .vectors v, .object name =>
    let other ← named name
    if v.buffers.size = 0 then answer (.number Scalar.zero)
    else
      let other : Vectors C α := ⟨← checked other.entries⟩
      answer (.number (← checked (v.dot other)))
  | .vectors v, .number _ =>
    if v.buffers.size = 0 then answer (.number Scalar.zero) else fail
  | _, _ => fail

/-- Whether two objects are equal. Vectors, buffers and factors are compared by content, all else
by identity. -/
def equalOf (id : Nat) (b : Operand α) : Machine C α Bool := do
  match b with
  | .number _ => return false
  | .object name =>
    let other ← reference name
    match ← object id, ← object other with
    | .buffer x, .buffer y => checked (x.equal y)
    | .vectors v, .vectors w => checked (v.equal w)
    | .factor e origin, .factor f origin' =>
      if origin = origin' then return true else checked (e.equal f)
    | _, _ => return id = other

def arithmetic (op : Arithmetic) (a : String) (b : Operand α) : Machine C α (Answer α) := do
  let id ← reference a
  match op with
  | .add => sumOf false id b
  | .sub => sumOf true id b
  | .dot => dotOf id b
  | .eq => answer (.bool (← equalOf id b))
  | .ne => answer (.bool (!(← equalOf id b)))
  | .increase => accumulate false id b
  | .decrease => accumulate true id b
  | .same =>
    match b with
    | .number _ => answer (.bool false)
    | .object name => answer (.bool (id = (← reference name)))

def scaleOf (a : String) (s : α) : Machine C α (Answer α) := do
  match ← named a with
  | .buffer b => create (.buffer (← checked (b.scaled s)))
  | .vectors v => create (.vectors (← checked (v.scaled s)))
  | _ => fail

end Machine

end LeastSquares
