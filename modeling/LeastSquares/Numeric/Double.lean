import LeastSquares.Numeric.Scalar

/-!
# Machine numbers

Binary double precision as a `Scalar`. The results of arithmetic have no subnormal
numbers: a result below the smallest normal number becomes a zero of its sign.
Integer cells have 64 bits and wrap.
-/

namespace LeastSquares.Double

/-- The smallest positive normal number. -/
def leastNormal : Float := Float.ofBits 0x0010000000000000

/-- A zero of the same sign in place of a subnormal number. -/
def flush (x : Float) : Float :=
  if x.abs < leastNormal then (if x.toBits >>> 63 == 1 then -0.0 else 0.0) else x

/-- The nearest integer; a half goes to the even neighbour. -/
def roundEven (x : Float) : Float :=
  let below := x.floor
  let gap := x - below
  let nearest :=
    if gap < 0.5 then below else if gap == 0.5 then 2.0 * (x / 2.0).round else below + 1.0
  if nearest == 0.0 then 0.0 * x else nearest

instance : Elementary Float where
  sqrt := Float.sqrt
  sin := Float.sin
  cos := Float.cos
  atan2 := Float.atan2
  abs := Float.abs
  round := roundEven
  truncate x := x.toInt64.toInt
  pi := 3.141592653589793

instance : Scalar Float where
  default := 0.0
  sameNumber := inferInstance
  add x y := flush (x + y)
  sub x y := flush (x - y)
  mul x y := flush (flush x * flush y)
  div x y := flush (x / y)
  neg x := -x
  ofInt := Float.ofInt
  ofDecimal m e := Float.ofScientific m (e < 0) e.natAbs
  lt x y := x < y
  eq x y := x == y
  wrap i := i.bmod Int64.size

end LeastSquares.Double
