import LeastSquares.Numeric.Scalar

/-!
# Traced numbers

A number that remembers how it came about: from which numbers it was computed, and at which
rate it grows along each of them. Arithmetic on traced numbers records a computation, so
whatever is computed over any `Scalar` can be differentiated. Numbers that depend on no input
leave no trace.

Derivatives are found backwards. A result hands its rate down to the numbers that it was
computed from, each time multiplied by the recorded rate, until the inputs are reached. A
number is taken up only when all that was computed from it has been, so that it hands down the
sum of what it received. A rate of zero is handed down too: a result that is not asked about
still shows an infinite rate, as a product that is not a number.
-/

namespace LeastSquares

/-- A number and how it was computed. A function of one number or of two keeps its own value,
the rates along its arguments, and a height above that of the arguments. -/
inductive Traced (α : Type) where
  /-- A number that depends on no input. -/
  | const (value : α)
  /-- An input, by its number. -/
  | input (i : Nat) (value : α)
  | image (value : α) (height : Nat) (x : Traced α) (rate : α)
  | image₂ (value : α) (height : Nat) (x : Traced α) (rateX : α) (y : Traced α) (rateY : α)

namespace Traced

variable {α : Type}

def value : Traced α → α
  | const v => v
  | input _ v => v
  | image v .. => v
  | image₂ v .. => v

def height : Traced α → Nat
  | const _ => 0
  | input .. => 0
  | image _ h .. => h
  | image₂ _ h .. => h

/-- How often numbers are written down if the trace is written without sharing. -/
def extent : Traced α → Nat
  | const _ => 1
  | input .. => 1
  | image _ _ x _ => x.extent + 1
  | image₂ _ _ x _ y _ => x.extent + y.extent + 1

/-! ## Recording -/

def along (value : α) (x : Traced α) (rate : α) : Traced α :=
  match x with
  | const _ => const value
  | x => image value (x.height + 1) x rate

def along₂ (value : α) (x : Traced α) (rateX : α) (y : Traced α) (rateY : α) : Traced α :=
  match x, y with
  | const _, y => along value y rateY
  | x, const _ => along value x rateX
  | x, y => image₂ value (max x.height y.height + 1) x rateX y rateY

/-- Whether two traces are the same. Parts that are shared are not compared. -/
def same [DecidableEq α] : (s t : Traced α) → Decidable (s = t)
  | const v, const w => decidable_of_iff (v = w) (by simp)
  | input i v, input j w => decidable_of_iff (i = j ∧ v = w) (by simp)
  | image v h x r, image w k y s =>
    if top : v = w ∧ h = k ∧ r = s then
      match withPtrEqDecEq x y fun _ => same x y with
      | isTrue equal => isTrue (by obtain ⟨rfl, rfl, rfl⟩ := top; rw [equal])
      | isFalse differ => isFalse fun e => differ (by cases e; rfl)
    else isFalse fun e => top (by cases e; exact ⟨rfl, rfl, rfl⟩)
  | image₂ v h x r x' r', image₂ w k y s y' s' =>
    if top : v = w ∧ h = k ∧ r = s ∧ r' = s' then
      match withPtrEqDecEq x y fun _ => same x y with
      | isTrue equal =>
        match withPtrEqDecEq x' y' fun _ => same x' y' with
        | isTrue equal' => isTrue (by obtain ⟨rfl, rfl, rfl, rfl⟩ := top; rw [equal, equal'])
        | isFalse differ => isFalse fun e => differ (by cases e; rfl)
      | isFalse differ => isFalse fun e => differ (by cases e; rfl)
    else isFalse fun e => top (by cases e; exact ⟨rfl, rfl, rfl, rfl⟩)
  | const _, input .. | const _, image .. | const _, image₂ .. => isFalse nofun
  | input .., const _ | input .., image .. | input .., image₂ .. => isFalse nofun
  | image .., const _ | image .., input .. | image .., image₂ .. => isFalse nofun
  | image₂ .., const _ | image₂ .., input .. | image₂ .., image .. => isFalse nofun

instance [DecidableEq α] : DecidableEq (Traced α) := same

variable [Scalar α]

instance : Elementary (Traced α) where
  sqrt x :=
    let root := Elementary.sqrt x.value
    along root x (Scalar.half / root)
  sin x := along (Elementary.sin x.value) x (Elementary.cos x.value)
  cos x := along (Elementary.cos x.value) x (-(Elementary.sin x.value))
  atan2 y x :=
    let norm := x.value * x.value + y.value * y.value
    along₂ (Elementary.atan2 y.value x.value) y (x.value / norm) x (-y.value / norm)
  abs x :=
    along (Elementary.abs x.value) x
      (if Scalar.atLeastZero x.value then Scalar.one else -Scalar.one)
  round x := const (Elementary.round x.value)
  truncate x := Elementary.truncate x.value
  pi := const Elementary.pi

instance : Scalar (Traced α) where
  default := const default
  sameNumber := inferInstance
  add x y := along₂ (x.value + y.value) x Scalar.one y Scalar.one
  sub x y := along₂ (x.value - y.value) x Scalar.one y (-Scalar.one)
  mul x y := along₂ (x.value * y.value) x y.value y x.value
  div x y :=
    along₂ (x.value / y.value) x (Scalar.one / y.value) y (-x.value / (y.value * y.value))
  neg x := along (-x.value) x (-Scalar.one)
  ofInt i := const (Scalar.ofInt i)
  ofDecimal m e := const (Scalar.ofDecimal m e)
  lt x y := Scalar.lt x.value y.value
  eq x y := Scalar.eq x.value y.value
  wrap := Scalar.wrap α

/-! ## Handing down -/

/-- A number that has received a rate. -/
structure Received (α : Type) where
  number : Traced α
  rate : α

/-- A rate handed to a number. Numbers stand in a list from the highest; one that is there
already adds the rate to what it has received. -/
def hand (x : Traced α) (rate : α) : List (Received α) → List (Received α)
  | [] => [⟨x, rate⟩]
  | r :: rest =>
    if r.number.height < x.height then ⟨x, rate⟩ :: r :: rest
    else if r.number.height = x.height ∧ r.number = x then ⟨x, r.rate + rate⟩ :: rest
    else r :: hand x rate rest

/-- The extent of all numbers of a list. -/
def totalTrace : List (Received α) → Nat
  | [] => 0
  | r :: rest => r.number.extent + totalTrace rest

omit [Scalar α] in
theorem extent_pos (x : Traced α) : 0 < x.extent := by cases x <;> simp [extent]

theorem totalTrace_hand_le (x : Traced α) (rate : α) (l : List (Received α)) :
    totalTrace (hand x rate l) ≤ x.extent + totalTrace l := by
  induction l with
  | nil => simp [hand, totalTrace]
  | cons r rest ih =>
    simp only [hand]
    split
    · simp [totalTrace]
    · split
      · simp only [totalTrace]
        omega
      · simp only [totalTrace]
        omega

/-- The sum of two rates, the first of which may be missing. -/
def plus : Option α → α → α
  | none, d => d
  | some c, d => c + d

/-- Every number of a list hands down what it received. What reaches the inputs is added to
their entries. -/
def handDown (pending : List (Received α)) (inputs : Array (Option α)) : Array (Option α) :=
  match pending with
  | [] => inputs
  | ⟨const _, _⟩ :: rest => handDown rest inputs
  | ⟨input i _, c⟩ :: rest => handDown rest (inputs.modify i fun d => some (plus d c))
  | ⟨image _ _ x r, c⟩ :: rest => handDown (hand x (c * r) rest) inputs
  | ⟨image₂ _ _ x r y s, c⟩ :: rest => handDown (hand y (c * s) (hand x (c * r) rest)) inputs
termination_by totalTrace pending
decreasing_by
  · simp [totalTrace, extent]
  · simp [totalTrace, extent]
  · have := totalTrace_hand_le x (c * r) rest
    simp only [totalTrace, extent]
    omega
  · have h := totalTrace_hand_le x (c * r) rest
    have := totalTrace_hand_le y (c * s) (hand x (c * r) rest)
    simp only [totalTrace, extent]
    omega

/-- The derivative of a combination of results, each with its coefficient, along each of `n`
inputs; none along an input that no result depends on. -/
def slopes (n : Nat) (results : List (Traced α × α)) : Array (Option α) :=
  handDown (results.foldl (fun l (x, c) => hand x c l) []) (Array.replicate n none)

/-- The derivative of a combination of results along each of `n` inputs. -/
def derivatives (n : Nat) (results : List (Traced α × α)) : Array α :=
  (slopes n results).map (·.getD Scalar.zero)

end Traced

end LeastSquares
