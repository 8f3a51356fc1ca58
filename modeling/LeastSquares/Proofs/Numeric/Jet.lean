import LeastSquares.Proofs.Numeric.Homomorphism

/-!
# Numbers with their slopes

A traced number, without the way it came about: its value and its slopes along all inputs. Slopes follow
the chain rule, so tracing is arithmetic with such pairs, and they make up a commutative ring. A law of
rings that an operation obeys is thereby a law of its derivatives.
-/

namespace LeastSquares

/-- Scalars that compute in a commutative ring. Nothing is asked of quotients, comparisons and elementary
functions. -/
class RingScalar (β : Type) extends Scalar β, CommRing β where
  ofInt_eq (i : Int) : ofInt i = (i : β)

namespace RingScalar

variable {β : Type} [RingScalar β]

@[simp] theorem zero_eq : (Scalar.zero : β) = 0 := (ofInt_eq 0).trans Int.cast_zero

@[simp] theorem one_eq : (Scalar.one : β) = 1 := (ofInt_eq 1).trans Int.cast_one

end RingScalar

/-- Exact scalars compute in a commutative ring. -/
@[reducible] def ExactScalar.ringScalar (α : Type) [LinearOrder α] [ExactScalar α] : RingScalar α where
  __ := (inferInstance : Scalar α)
  __ := (inferInstance : CommRing α)
  ofInt_eq := ExactScalar.ofInt_eq

/-- A value and its slopes. -/
def Jet (α : Type) : Type := TrivSqZeroExt α (ℕ → α)

namespace Jet

variable {α : Type}

def mk (value : α) (slope : ℕ → α) : Jet α := (value, slope)

def value (x : Jet α) : α := TrivSqZeroExt.fst x

def slope (x : Jet α) : ℕ → α := TrivSqZeroExt.snd x

@[simp] theorem value_mk (v : α) (s : ℕ → α) : (mk v s).value = v := rfl

@[simp] theorem slope_mk (v : α) (s : ℕ → α) : (mk v s).slope = s := rfl

theorem ext {x y : Jet α} (hvalue : x.value = y.value) (hslope : ∀ i, x.slope i = y.slope i) : x = y :=
  TrivSqZeroExt.ext hvalue (funext hslope)

/-- The image under a function of one number with this derivative. -/
def along [Mul α] (v : α) (x : Jet α) (rate : α) : Jet α := mk v fun i => x.slope i * rate

/-- The image under a function of two numbers with these derivatives. -/
def along₂ [Mul α] [Add α] (v : α) (x : Jet α) (rateX : α) (y : Jet α) (rateY : α) : Jet α :=
  mk v fun i => x.slope i * rateX + y.slope i * rateY

variable [LinearOrder α] [ExactScalar α]

noncomputable instance : CommRing (Jet α) := inferInstanceAs (CommRing (TrivSqZeroExt α (ℕ → α)))

theorem add_eq (x y : Jet α) : x + y = along₂ (x.value + y.value) x 1 y 1 :=
  ext rfl fun i => by
    show x.slope i + y.slope i = x.slope i * 1 + y.slope i * 1
    rw [mul_one, mul_one]

theorem sub_eq (x y : Jet α) : x - y = along₂ (x.value - y.value) x 1 y (-1) :=
  ext rfl fun i => by
    show x.slope i - y.slope i = x.slope i * 1 + y.slope i * -1
    ring

theorem mul_eq (x y : Jet α) : x * y = along₂ (x.value * y.value) x y.value y x.value :=
  ext rfl fun i => by
    show x.value * y.slope i + x.slope i * y.value = x.slope i * y.value + y.slope i * x.value
    ring

theorem neg_eq (x : Jet α) : -x = along (-x.value) x (-1) :=
  ext rfl fun i => by
    show -x.slope i = x.slope i * -1
    ring

theorem intCast_eq (n : Int) : (n : Jet α) = mk (n : α) 0 := rfl

noncomputable instance : Elementary (Jet α) where
  sqrt x := along (Elementary.sqrt x.value) x (Scalar.half / Elementary.sqrt x.value)
  sin x := along (Elementary.sin x.value) x (Elementary.cos x.value)
  cos x := along (Elementary.cos x.value) x (-(Elementary.sin x.value))
  atan2 y x :=
    let norm := x.value * x.value + y.value * y.value
    along₂ (Elementary.atan2 y.value x.value) y (x.value / norm) x (-y.value / norm)
  abs x :=
    along (Elementary.abs x.value) x
      (if Scalar.atLeastZero x.value then Scalar.one else -Scalar.one)
  round x := mk (Elementary.round x.value) 0
  truncate x := Elementary.truncate x.value
  pi := mk Elementary.pi 0

noncomputable instance : RingScalar (Jet α) where
  __ := (inferInstance : CommRing (Jet α))
  default := mk default 0
  div x y :=
    along₂ (x.value / y.value) x (Scalar.one / y.value) y (-x.value / (y.value * y.value))
  sameNumber := Classical.decEq _
  ofInt i := mk (Scalar.ofInt i) 0
  ofDecimal m e := mk (Scalar.ofDecimal m e) 0
  lt x y := Scalar.lt x.value y.value
  eq x y := Scalar.eq x.value y.value
  wrap := Scalar.wrap α
  ofInt_eq i := by rw [intCast_eq, Scalar.ofInt_eq_cast]

end Jet

namespace Traced

variable {α : Type} [LinearOrder α] [ExactScalar α]

def jet (x : Traced α) : Jet α := .mk x.value x.slope

theorem jet_along (v : α) (x : Traced α) (r : α) : (along v x r).jet = .along v x.jet r :=
  Jet.ext (value_along ..) fun _ => slope_along ..

theorem jet_along₂ (v : α) (x : Traced α) (r : α) (y : Traced α) (s : α) :
    (along₂ v x r y s).jet = .along₂ v x.jet r y.jet s :=
  Jet.ext (value_along₂ ..) fun _ => slope_along₂ ..

/-- Tracing is arithmetic with slopes. -/
noncomputable def jetHom : ScalarHom (Traced α) (Jet α) where
  toFun := jet
  map_default := rfl
  map_add x y := by
    refine (jet_along₂ ..).trans ?_
    rw [Scalar.one_eq]
    exact (Jet.add_eq x.jet y.jet).symm
  map_sub x y := by
    refine (jet_along₂ ..).trans ?_
    rw [Scalar.one_eq]
    exact (Jet.sub_eq x.jet y.jet).symm
  map_mul x y := (jet_along₂ ..).trans (Jet.mul_eq x.jet y.jet).symm
  map_div x y := jet_along₂ ..
  map_neg x := by
    refine (jet_along ..).trans ?_
    rw [Scalar.one_eq]
    exact (Jet.neg_eq x.jet).symm
  map_sqrt x := jet_along ..
  map_sin x := jet_along ..
  map_cos x := jet_along ..
  map_atan2 y x := jet_along₂ ..
  map_pi := rfl
  map_ofInt _ := rfl
  map_ofDecimal _ _ := rfl
  lt_eq _ _ := rfl
  eq_eq _ _ := rfl
  truncate_eq _ := rfl
  wrap_eq := rfl

/-- Numbers with the same slopes have the same derivatives. -/
theorem derivatives_of_jet {x y : Traced α} (h : x.jet = y.jet) {n i : Nat} (hi : i < n) (c : α) :
    (derivatives n [(x, c)]).getD i Scalar.zero = (derivatives n [(y, c)]).getD i Scalar.zero := by
  have hslope : x.slope i = y.slope i := congrFun (congrArg Jet.slope h) i
  rw [getD_derivatives _ hi, getD_derivatives _ hi]
  simp only [List.map_cons, List.map_nil, hslope]

end Traced

end LeastSquares
