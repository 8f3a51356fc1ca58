import LeastSquares.Proofs.Numeric.Jet
import LeastSquares.Proofs.Manifold.Homomorphism

/-!
# Relative motions

Products and inverses of motions are polynomials in the parameters, and the laws of a group that they
obey are laws of commutative rings. So two elements that are multiplied from the left by one motion,
whose rotation has norm one, keep their relative motion, whatever they are moved by from the right.
-/

namespace LeastSquares

variable {β : Type} [RingScalar β]

/-! ## Motions of the plane -/

namespace SO2

/-- The squared norm of the parameters, which is one for a rotation. -/
def squaredNorm {β : Type} [Scalar β] (r : SO2 β) : β := r.cos * r.cos + r.sin * r.sin

theorem mul_assoc (a b c : SO2 β) : (a.mul b).mul c = a.mul (b.mul c) := by
  simp only [mul, mk.injEq]
  constructor <;> ring

theorem inverse_mul (a b : SO2 β) : (a.mul b).inverse = b.inverse.mul a.inverse := by
  simp only [mul, inverse, mk.injEq]
  constructor <;> ring

theorem apply_mul (a b : SO2 β) (p : Vec2 β) : (a.mul b).apply p = a.apply (b.apply p) := by
  simp only [mul, apply, Vec2.mk.injEq]
  constructor <;> ring

theorem apply_add (a : SO2 β) (p q : Vec2 β) : a.apply (p.add q) = (a.apply p).add (a.apply q) := by
  simp only [apply, Vec2.add, Vec2.mk.injEq]
  constructor <;> ring

theorem inverse_mul_cancel {a : SO2 β} (ha : a.squaredNorm = Scalar.one) (b : SO2 β) :
    a.inverse.mul (a.mul b) = b := by
  have ha : a.cos * a.cos + a.sin * a.sin = 1 := ha.trans RingScalar.one_eq
  obtain ⟨c, s⟩ := b
  simp only [mul, inverse, mk.injEq]
  constructor
  · linear_combination c * ha
  · linear_combination s * ha

theorem inverse_apply_cancel {a : SO2 β} (ha : a.squaredNorm = Scalar.one) (p : Vec2 β) :
    a.inverse.apply (a.apply p) = p := by
  have ha : a.cos * a.cos + a.sin * a.sin = 1 := ha.trans RingScalar.one_eq
  obtain ⟨x, y⟩ := p
  simp only [apply, inverse, Vec2.mk.injEq]
  constructor
  · linear_combination x * ha
  · linear_combination y * ha

theorem inverse_mul_mul {g : SO2 β} (hg : g.squaredNorm = Scalar.one) (a b : SO2 β) :
    (g.mul a).inverse.mul (g.mul b) = a.inverse.mul b := by
  rw [inverse_mul, mul_assoc, inverse_mul_cancel hg]

end SO2

namespace SE2

theorem mul_assoc (a b c : SE2 β) : (a.mul b).mul c = a.mul (b.mul c) := by
  have hadd : ∀ p q r : Vec2 β, p.add (q.add r) = (p.add q).add r := fun p q r => by
    simp only [Vec2.add, add_assoc]
  simp only [mul, SO2.mul_assoc, SO2.apply_mul, SO2.apply_add, hadd]

/-- What both translations have in common cancels. -/
theorem inverse_mul_mul {g : SE2 β} (hg : g.rotation.squaredNorm = Scalar.one) (a b : SE2 β) :
    (g.mul a).inverse.mul (g.mul b) = a.inverse.mul b := by
  have hcancel : ∀ p q r : Vec2 β, (p.add r).add (q.add r).neg = p.add q.neg := fun p q r => by
    simp only [Vec2.add, Vec2.neg, Vec2.mk.injEq]
    constructor <;> ring
  simp only [mul, inverse, SO2.inverse_mul, SO2.mul_assoc, SO2.inverse_mul_cancel hg, SO2.apply_mul, SO2.apply_add,
    SO2.inverse_apply_cancel hg, hcancel]

end SE2

/-! ## Motions of space -/

namespace SO3

/-- The squared norm of the parameters, which is one for a rotation. -/
def squaredNorm {β : Type} [Scalar β] (q : SO3 β) : β := q.w * q.w + q.x * q.x + q.y * q.y + q.z * q.z

theorem mul_assoc (a b c : SO3 β) : (a.mul b).mul c = a.mul (b.mul c) := by
  simp only [mul, mk.injEq]
  refine ⟨?_, ?_, ?_, ?_⟩ <;> ring

theorem inverse_mul (a b : SO3 β) : (a.mul b).inverse = b.inverse.mul a.inverse := by
  simp only [mul, inverse, mk.injEq]
  refine ⟨?_, ?_, ?_, ?_⟩ <;> ring

/-- The quaternion without real part that has the coordinates of a point. -/
def ofPoint (p : Vec3 β) : SO3 β := ⟨Scalar.zero, p.x, p.y, p.z⟩

theorem ofPoint_injective {p q : Vec3 β} (h : ofPoint p = ofPoint q) : p = q := by
  obtain ⟨_, _, _⟩ := p
  obtain ⟨_, _, _⟩ := q
  simpa [ofPoint] using h

/-- A rotated point is a product of quaternions; its real part vanishes. -/
theorem ofPoint_apply (q : SO3 β) (p : Vec3 β) :
    ofPoint (q.apply p) = (q.mul (ofPoint p)).mul q.inverse := by
  simp only [ofPoint, apply, mul, inverse, RingScalar.zero_eq, mk.injEq, and_self, and_true]
  ring

theorem apply_mul (a b : SO3 β) (p : Vec3 β) : (a.mul b).apply p = a.apply (b.apply p) :=
  ofPoint_injective (by simp only [ofPoint_apply, inverse_mul, mul_assoc])

theorem apply_add (a : SO3 β) (p q : Vec3 β) : a.apply (p.add q) = (a.apply p).add (a.apply q) := by
  simp only [apply, mul, inverse, Vec3.add, Vec3.mk.injEq, RingScalar.zero_eq]
  refine ⟨?_, ?_, ?_⟩ <;> ring

theorem inverse_mul_cancel {a : SO3 β} (ha : a.squaredNorm = Scalar.one) (b : SO3 β) :
    a.inverse.mul (a.mul b) = b := by
  have ha : a.w * a.w + a.x * a.x + a.y * a.y + a.z * a.z = 1 := ha.trans RingScalar.one_eq
  obtain ⟨w, x, y, z⟩ := b
  simp only [mul, inverse, mk.injEq]
  refine ⟨?_, ?_, ?_, ?_⟩
  · linear_combination w * ha
  · linear_combination x * ha
  · linear_combination y * ha
  · linear_combination z * ha

theorem inverse_mul_mul {g : SO3 β} (hg : g.squaredNorm = Scalar.one) (a b : SO3 β) :
    (g.mul a).inverse.mul (g.mul b) = a.inverse.mul b := by
  rw [inverse_mul, mul_assoc, inverse_mul_cancel hg]

theorem mul_inverse_cancel {a : SO3 β} (ha : a.squaredNorm = Scalar.one) (b : SO3 β) :
    (b.mul a.inverse).mul a.inverse.inverse = b := by
  have ha : a.w * a.w + a.x * a.x + a.y * a.y + a.z * a.z = 1 := ha.trans RingScalar.one_eq
  obtain ⟨w, x, y, z⟩ := b
  simp only [mul, inverse, mk.injEq]
  refine ⟨?_, ?_, ?_, ?_⟩
  · linear_combination w * ha
  · linear_combination x * ha
  · linear_combination y * ha
  · linear_combination z * ha

theorem inverse_apply_cancel {a : SO3 β} (ha : a.squaredNorm = Scalar.one) (p : Vec3 β) :
    a.inverse.apply (a.apply p) = p := by
  refine ofPoint_injective ?_
  rw [ofPoint_apply, ofPoint_apply, mul_assoc a, inverse_mul_cancel ha, mul_inverse_cancel ha]

end SO3

namespace SE3

theorem mul_assoc (a b c : SE3 β) : (a.mul b).mul c = a.mul (b.mul c) := by
  have hadd : ∀ p q r : Vec3 β, p.add (q.add r) = (p.add q).add r := fun p q r => by
    simp only [Vec3.add, add_assoc]
  simp only [mul, SO3.mul_assoc, SO3.apply_mul, SO3.apply_add, hadd]

/-- What both translations have in common cancels. -/
theorem inverse_mul_mul {g : SE3 β} (hg : g.rotation.squaredNorm = Scalar.one) (a b : SE3 β) :
    (g.mul a).inverse.mul (g.mul b) = a.inverse.mul b := by
  have hcancel : ∀ p q r : Vec3 β, (p.add r).add (q.add r).neg = p.add q.neg := fun p q r => by
    simp only [Vec3.add, Vec3.neg, Vec3.mk.injEq]
    refine ⟨?_, ?_, ?_⟩ <;> ring
  simp only [mul, inverse, SO3.inverse_mul, SO3.mul_assoc, SO3.inverse_mul_cancel hg, SO3.apply_mul, SO3.apply_add,
    SO3.inverse_apply_cancel hg, hcancel]

end SE3

/-! ## Rows -/

/-- The coordinates of a list; past its end they are the default. -/
def listed {β : Type} [Inhabited β] (xs : List β) (i : Nat) : β := xs.getD i default

theorem listed_map {β γ : Type} [Scalar β] [Scalar γ] (φ : ScalarHom β γ) (xs : List β) :
    listed (xs.map φ) = fun i => φ (listed xs i) :=
  funext fun i => by rw [listed, listed, ← φ.map_default, List.getD_map]

namespace LieGroup

/-- The squared norm of the rotation of an element. -/
def squaredNorm {β : Type} [Scalar β] : LieGroup → (Nat → β) → β
  | so2, a => (SO2.read a).squaredNorm
  | se2, a => (SE2.read a).rotation.squaredNorm
  | so3, a => (SO3.read a).squaredNorm
  | se3, a => (SE3.read a).rotation.squaredNorm

theorem squaredNorm_map {β γ : Type} [Scalar β] [Scalar γ] (φ : ScalarHom β γ) (g : LieGroup)
    (a : Nat → β) : g.squaredNorm (fun i => φ (a i)) = φ (g.squaredNorm a) := by
  cases g <;> simp [squaredNorm, SO2.squaredNorm, SO3.squaredNorm, SO2.read, SE2.read, SO3.read, SE3.read]

/-- The parameters of the relative motion of two elements. -/
def relativeRow {β : Type} [Scalar β] (g : LieGroup) (a b : Nat → β) : List β :=
  g.mulRow (listed (g.inverseRow a)) b

theorem relativeRow_map {β γ : Type} [Scalar β] [Scalar γ] (φ : ScalarHom β γ) (g : LieGroup)
    (a b : Nat → β) :
    g.relativeRow (fun i => φ (a i)) (fun i => φ (b i)) = (g.relativeRow a b).map φ := by
  rw [relativeRow, g.inverseRow_map φ, listed_map, g.mulRow_map φ, relativeRow]

variable (g : LieGroup) {G : Nat → β}

/-- Two elements that are multiplied by one motion keep their relative motion. -/
theorem relativeRow_mulRow (hG : g.squaredNorm G = Scalar.one) (a b : Nat → β) :
    g.relativeRow (listed (g.mulRow G a)) (listed (g.mulRow G b)) = g.relativeRow a b := by
  cases g with
  | so2 => exact congrArg SO2.params (SO2.inverse_mul_mul hG (.read a) (.read b))
  | se2 => exact congrArg SE2.params (SE2.inverse_mul_mul hG (.read a) (.read b))
  | so3 => exact congrArg SO3.params (SO3.inverse_mul_mul hG (.read a) (.read b))
  | se3 => exact congrArg SE3.params (SE3.inverse_mul_mul hG (.read a) (.read b))

theorem mulRow_assoc (a b c : Nat → β) :
    g.mulRow (listed (g.mulRow a b)) c = g.mulRow a (listed (g.mulRow b c)) := by
  cases g with
  | so2 => exact congrArg SO2.params (SO2.mul_assoc (.read a) (.read b) (.read c))
  | se2 => exact congrArg SE2.params (SE2.mul_assoc (.read a) (.read b) (.read c))
  | so3 => exact congrArg SO3.params (SO3.mul_assoc (.read a) (.read b) (.read c))
  | se3 => exact congrArg SE3.params (SE3.mul_assoc (.read a) (.read b) (.read c))

/-- They keep it also where each of them is then moved from the right. -/
theorem relativeRow_moved (hG : g.squaredNorm G = Scalar.one) (a b d e : Nat → β) :
    g.relativeRow (listed (g.mulRow (listed (g.mulRow G a)) d))
        (listed (g.mulRow (listed (g.mulRow G b)) e)) =
      g.relativeRow (listed (g.mulRow a d)) (listed (g.mulRow b e)) := by
  rw [mulRow_assoc, mulRow_assoc, relativeRow_mulRow g hG]

end LieGroup

end LeastSquares
