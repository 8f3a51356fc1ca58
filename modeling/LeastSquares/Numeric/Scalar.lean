/-!
# Scalars

The arithmetic that every computation of the library is written over. A definition
takes any `Scalar`, so the same text runs on machine numbers, keeps a trace for
differentiation (`Traced`), and is reasoned about in an ordered field.
-/

namespace LeastSquares

/-- The functions of a scalar that are not field arithmetic. -/
class Elementary (α : Type) where
  sqrt : α → α
  sin : α → α
  cos : α → α
  /-- The angle of the point `(x, y)`, as `atan2 y x`. -/
  atan2 : α → α → α
  abs : α → α
  /-- The nearest integer; a half goes to the even neighbour. -/
  round : α → α
  /-- The integer part, toward zero. -/
  truncate : α → Int
  pi : α

/-- Numbers with arithmetic and comparisons that answer yes or no. No law is assumed:
machine numbers satisfy few, and each theorem asks for those it needs. -/
class Scalar (α : Type) extends Inhabited α, Add α, Sub α, Mul α, Div α, Neg α,
    Elementary α where
  /-- Whether two numbers are the same; `eq` may see this otherwise. -/
  sameNumber : DecidableEq α
  ofInt : Int → α
  ofDecimal : Nat → Int → α
  lt : α → α → Bool
  eq : α → α → Bool
  /-- The value that an integer cell keeps when an operation gives this integer. -/
  wrap : Int → Int

attribute [reducible, instance] Scalar.sameNumber

namespace Scalar

variable {α : Type} [Scalar α]

def zero : α := ofInt 0

def one : α := ofInt 1

def two : α := ofInt 2

def half : α := one / two

/-- Below this, an angle or a squared angle counts as small. -/
def small : α := ofDecimal 1 (-10)

/-- `x` lies strictly between `-bound` and `bound`. -/
def within (bound x : α) : Bool := lt (-bound) x && lt x bound

/-- Whether a number is zero or more. -/
def atLeastZero (x : α) : Bool := lt zero x || eq x zero

def sum (xs : Array α) : α := xs.foldl (· + ·) zero

/-- `x`, unless `y` is greater. -/
def larger (x y : α) : α := if lt x y then y else x

end Scalar

end LeastSquares
