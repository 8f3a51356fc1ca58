import Mathlib
import LeastSquares.Numeric.Scalar

/-!
# Exact arithmetic

`ExactScalar α` says that the operations and comparisons of a scalar are those of an ordered
field. Nothing is asked of the elementary functions. The reals are an instance, and so are the
rationals, in which a whole run of a solver can be computed.
-/

namespace LeastSquares

/-- Scalars that compute in an ordered field without rounding. -/
class ExactScalar (α : Type) [LinearOrder α] extends Scalar α, Field α,
    IsStrictOrderedRing α where
  ofInt_eq (i : Int) : ofInt i = (i : α)
  ofDecimal_eq (m : Nat) (e : Int) : ofDecimal m e = (m : α) * (10 : α) ^ e
  lt_iff {x y : α} : lt x y = true ↔ x < y
  eq_iff {x y : α} : eq x y = true ↔ x = y

namespace Scalar

variable {α : Type} [LinearOrder α] [ExactScalar α]

@[simp] theorem ofInt_eq_cast (i : Int) : (ofInt i : α) = (i : α) := ExactScalar.ofInt_eq i

@[simp] theorem zero_eq : (zero : α) = 0 := by simp [zero]

@[simp] theorem one_eq : (one : α) = 1 := by simp [one]

@[simp] theorem half_eq : (half : α) = 1 / 2 := by simp [half, two]

@[simp] theorem lt_eq_decide (x y : α) : lt x y = decide (x < y) := by
  rw [Bool.eq_iff_iff, ExactScalar.lt_iff, decide_eq_true_iff]

@[simp] theorem eq_eq_decide (x y : α) : eq x y = decide (x = y) := by
  rw [Bool.eq_iff_iff, ExactScalar.eq_iff, decide_eq_true_iff]

theorem larger_eq_max (x y : α) : larger x y = max x y := by
  rw [larger, lt_eq_decide, max_def_lt]
  simp only [decide_eq_true_eq]

theorem foldl_add_eq (xs : List α) (x : α) : xs.foldl (· + ·) x = x + xs.sum := by
  induction xs generalizing x with
  | nil => simp
  | cons y ys ih => rw [List.foldl_cons, ih, List.sum_cons, add_assoc]

theorem sum_eq (xs : Array α) : sum xs = xs.toList.sum := by
  rw [sum, ← Array.foldl_toList, foldl_add_eq, zero_eq, zero_add]

end Scalar

/-- The integer that stands below a number, or that above it when the number is a half past an odd
one or nearer to that. -/
def roundEven {K : Type} [Field K] [LinearOrder K] [FloorRing K] (x : K) : ℤ :=
  if Int.fract x = 1 / 2 then (if Even ⌊x⌋ then ⌊x⌋ else ⌊x⌋ + 1) else round x

/-! ## The reals -/

noncomputable instance : Elementary ℝ where
  sqrt := Real.sqrt
  sin := Real.sin
  cos := Real.cos
  atan2 y x := Complex.arg ⟨x, y⟩
  abs x := |x|
  round x := roundEven x
  truncate x := if 0 ≤ x then ⌊x⌋ else ⌈x⌉
  pi := Real.pi

noncomputable instance : ExactScalar ℝ where
  __ := (inferInstance : Field ℝ)
  __ := (inferInstance : IsStrictOrderedRing ℝ)
  default := 0
  sameNumber := inferInstance
  ofInt i := i
  ofDecimal m e := m * 10 ^ e
  lt x y := decide (x < y)
  eq x y := decide (x = y)
  wrap i := i
  ofInt_eq _ := rfl
  ofDecimal_eq _ _ := rfl
  lt_iff := by simp
  eq_iff := by simp

/-! ## The rationals -/

/-- Roots are those of squares. The functions of angles leave the rationals and are left at what
they are of zero. -/
instance : Elementary ℚ where
  sqrt x := (x.num.toNat.sqrt : ℚ) / x.den.sqrt
  sin _ := 0
  cos _ := 1
  atan2 _ _ := 0
  abs x := |x|
  round x := roundEven x
  truncate x := if 0 ≤ x then ⌊x⌋ else ⌈x⌉
  pi := 0

instance : ExactScalar ℚ where
  __ := (inferInstance : Field ℚ)
  __ := (inferInstance : IsStrictOrderedRing ℚ)
  default := 0
  sameNumber := inferInstance
  ofInt i := i
  ofDecimal m e := m * 10 ^ e
  lt x y := decide (x < y)
  eq x y := decide (x = y)
  wrap i := i
  ofInt_eq _ := rfl
  ofDecimal_eq _ _ := rfl
  lt_iff := by simp
  eq_iff := by simp

end LeastSquares
