import LeastSquares.Proofs.Numeric.Homomorphism
import LeastSquares.Manifold.LieGroup

/-!
# Motions over other scalars

The operations on motions go along with a map of scalars: the image of what comes out is what comes out
of the images.
-/

namespace LeastSquares

/-! ## The images of coordinates and parameters -/

section Images

variable {β γ : Type} (f : β → γ)

def Vec2.map (p : Vec2 β) : Vec2 γ := ⟨f p.x, f p.y⟩

def SO2.map (r : SO2 β) : SO2 γ := ⟨f r.cos, f r.sin⟩

def SE2.map (a : SE2 β) : SE2 γ := ⟨a.rotation.map f, a.translation.map f⟩

def Twist2.map (v : Twist2 β) : Twist2 γ := ⟨v.linear.map f, f v.angular⟩

def Vec3.map (p : Vec3 β) : Vec3 γ := ⟨f p.x, f p.y, f p.z⟩

def SO3.map (q : SO3 β) : SO3 γ := ⟨f q.w, f q.x, f q.y, f q.z⟩

def SE3.map (a : SE3 β) : SE3 γ := ⟨a.rotation.map f, a.translation.map f⟩

def Twist3.map (v : Twist3 β) : Twist3 γ := ⟨v.linear.map f, v.angular.map f⟩

def Mat3.map (a : Mat3 β) : Mat3 γ := ⟨a.x.map f, a.y.map f, a.z.map f⟩

end Images

variable {β γ : Type} [Scalar β] [Scalar γ] (φ : ScalarHom β γ)

/-! ## Motions of the plane -/

namespace Vec2

@[simp] theorem map_add (p q : Vec2 β) : (p.add q).map φ = (p.map φ).add (q.map φ) := by
  simp [map, add]

@[simp] theorem map_neg (p : Vec2 β) : p.neg.map φ = (p.map φ).neg := by
  simp [map, neg]

end Vec2

namespace SO2

@[simp] theorem map_exp (angle : β) : (exp angle).map φ = exp (φ angle) := by
  simp [map, exp]

@[simp] theorem map_log (r : SO2 β) : φ r.log = (r.map φ).log := by
  simp [map, log]

@[simp] theorem map_mul (a b : SO2 β) : (a.mul b).map φ = (a.map φ).mul (b.map φ) := by
  simp [map, mul]

@[simp] theorem map_inverse (r : SO2 β) : r.inverse.map φ = (r.map φ).inverse := by
  simp [map, inverse]

@[simp] theorem map_apply (r : SO2 β) (p : Vec2 β) : (r.apply p).map φ = (r.map φ).apply (p.map φ) := by
  simp [map, apply, Vec2.map]

end SO2

namespace SE2

@[simp] theorem map_mul (a b : SE2 β) : (a.mul b).map φ = (a.map φ).mul (b.map φ) := by
  simp [map, mul]

@[simp] theorem map_inverse (a : SE2 β) : a.inverse.map φ = (a.map φ).inverse := by
  simp [map, inverse]

@[simp] theorem map_exp (v : Twist2 β) : (exp v).map φ = exp (v.map φ) := by
  simp only [exp, Twist2.map, map, SO2.map_exp, Vec2.map, φ.within_small]
  split <;> simp [*]

@[simp] theorem map_log (a : SE2 β) : a.log.map φ = (a.map φ).log := by
  simp only [log, Twist2.map, map, Vec2.map, ← SO2.map_log, ← φ.map_cos, ← φ.map_one, ← φ.map_sub,
    φ.within_small]
  split <;> simp [*]

end SE2

/-! ## Motions of space -/

namespace Vec3

@[simp] theorem map_add (p q : Vec3 β) : (p.add q).map φ = (p.map φ).add (q.map φ) := by
  simp [map, add]

@[simp] theorem map_sub (p q : Vec3 β) : (p.sub q).map φ = (p.map φ).sub (q.map φ) := by
  simp [map, sub]

@[simp] theorem map_neg (p : Vec3 β) : p.neg.map φ = (p.map φ).neg := by
  simp [map, neg]

@[simp] theorem map_scaled (c : β) (p : Vec3 β) : (p.scaled c).map φ = (p.map φ).scaled (φ c) := by
  simp [map, scaled]

@[simp] theorem map_dot (p q : Vec3 β) : φ (p.dot q) = (p.map φ).dot (q.map φ) := by
  simp [map, dot]

@[simp] theorem map_squaredNorm (p : Vec3 β) : φ p.squaredNorm = (p.map φ).squaredNorm := map_dot φ p p

end Vec3

namespace Mat3

@[simp] theorem map_identity : (identity : Mat3 β).map φ = identity := by
  simp [map, identity, Vec3.map]

@[simp] theorem map_skew (p : Vec3 β) : (skew p).map φ = skew (p.map φ) := by
  simp [map, skew, Vec3.map]

@[simp] theorem map_add (a b : Mat3 β) : (a.add b).map φ = (a.map φ).add (b.map φ) := by
  simp [map, add]

@[simp] theorem map_sub (a b : Mat3 β) : (a.sub b).map φ = (a.map φ).sub (b.map φ) := by
  simp [map, sub]

@[simp] theorem map_scaled (c : β) (a : Mat3 β) : (a.scaled c).map φ = (a.map φ).scaled (φ c) := by
  simp [map, scaled]

@[simp] theorem map_mulVec (a : Mat3 β) (p : Vec3 β) : (a.mulVec p).map φ = (a.map φ).mulVec (p.map φ) := by
  simp [mulVec, Vec3.map, map]

@[simp] theorem map_mul (a b : Mat3 β) : (a.mul b).map φ = (a.map φ).mul (b.map φ) := by
  have hcolumns : b.transpose.map φ = (b.map φ).transpose := rfl
  rw [mul, mul, ← hcolumns]
  show (⟨(b.transpose.mulVec a.x).map φ, (b.transpose.mulVec a.y).map φ,
    (b.transpose.mulVec a.z).map φ⟩ : Mat3 γ) = _
  rw [map_mulVec, map_mulVec, map_mulVec]
  rfl

end Mat3

namespace SO3

@[simp] theorem map_mul (a b : SO3 β) : (a.mul b).map φ = (a.map φ).mul (b.map φ) := by
  simp [map, mul]

@[simp] theorem map_inverse (q : SO3 β) : q.inverse.map φ = (q.map φ).inverse := by
  simp [map, inverse]

@[simp] theorem map_apply (q : SO3 β) (p : Vec3 β) : (q.apply p).map φ = (q.map φ).apply (p.map φ) := by
  have h : ((q.mul ⟨Scalar.zero, p.x, p.y, p.z⟩).mul q.inverse).map φ =
      ((q.map φ).mul ⟨Scalar.zero, φ p.x, φ p.y, φ p.z⟩).mul (q.map φ).inverse := by
    rw [map_mul, map_mul, map_inverse, ← φ.map_zero]
    rfl
  exact congrArg (fun r : SO3 γ => (⟨r.x, r.y, r.z⟩ : Vec3 γ)) h

@[simp] theorem map_matrix (q : SO3 β) : q.matrix.map φ = (q.map φ).matrix := by
  simp [matrix, Mat3.map, Vec3.map, map]

@[simp] theorem map_exp (t : Vec3 β) : (exp t).map φ = exp (t.map φ) := by
  simp only [exp, map, ← Vec3.map_squaredNorm, φ.lt_small]
  split <;> simp [*, Vec3.map]

/-- The cases of the logarithm are told apart by comparisons. -/
@[simp] theorem map_log (q : SO3 β) : q.log.map φ = (q.map φ).log := by
  have hvector : (⟨q.x, q.y, q.z⟩ : Vec3 β).map φ = ⟨φ q.x, φ q.y, φ q.z⟩ := rfl
  have hsmall : Scalar.lt (⟨φ q.x, φ q.y, φ q.z⟩ : Vec3 γ).squaredNorm Scalar.small =
      Scalar.lt (⟨q.x, q.y, q.z⟩ : Vec3 β).squaredNorm Scalar.small := by
    rw [← hvector, ← Vec3.map_squaredNorm, φ.lt_small]
  have hsize : Scalar.lt (if Scalar.lt q.w Scalar.zero then -φ q.w else φ q.w) Scalar.small =
      Scalar.lt (if Scalar.lt q.w Scalar.zero then -q.w else q.w) Scalar.small := by
    rw [← φ.map_neg, ← φ.map_ite, φ.lt_small]
  simp only [log, map, hsmall, φ.lt_zero, φ.zero_lt, hsize, hvector, Vec3.map_scaled, φ.map_ite,
    φ.map_sub, φ.map_div, φ.map_mul, φ.map_neg, φ.map_two, φ.map_one, φ.map_ofInt, φ.map_pi, φ.map_sqrt,
    φ.map_atan2, Vec3.map_squaredNorm]

end SO3

namespace SE3

@[simp] theorem map_mul (a b : SE3 β) : (a.mul b).map φ = (a.map φ).mul (b.map φ) := by
  simp [map, mul]

@[simp] theorem map_inverse (a : SE3 β) : a.inverse.map φ = (a.map φ).inverse := by
  simp [map, inverse]

@[simp] theorem map_expMatrix (angular : Vec3 β) (rotation : SO3 β) :
    (expMatrix angular rotation).map φ = expMatrix (angular.map φ) (rotation.map φ) := by
  simp only [expMatrix, ← Vec3.map_squaredNorm, φ.lt_small]
  split <;> simp [*]

@[simp] theorem map_exp (t : Twist3 β) : (exp t).map φ = exp (t.map φ) := by
  simp [exp, map, Twist3.map]

@[simp] theorem map_logMatrix (angular : Vec3 β) :
    (logMatrix angular).map φ = logMatrix (angular.map φ) := by
  simp only [logMatrix, ← Vec3.map_squaredNorm, φ.lt_small]
  split <;> simp [*]

@[simp] theorem map_log (a : SE3 β) : a.log.map φ = (a.map φ).log := by
  simp [log, map, Twist3.map]

end SE3

/-! ## Rows -/

namespace LieGroup

variable (g : LieGroup)

theorem mulRow_map (a b : Nat → β) :
    g.mulRow (fun i => φ (a i)) (fun i => φ (b i)) = (g.mulRow a b).map φ := by
  cases g with
  | so2 => exact congrArg SO2.params (SO2.map_mul φ (.read a) (.read b)).symm
  | se2 => exact congrArg SE2.params (SE2.map_mul φ (.read a) (.read b)).symm
  | so3 => exact congrArg SO3.params (SO3.map_mul φ (.read a) (.read b)).symm
  | se3 => exact congrArg SE3.params (SE3.map_mul φ (.read a) (.read b)).symm

theorem inverseRow_map (a : Nat → β) :
    g.inverseRow (fun i => φ (a i)) = (g.inverseRow a).map φ := by
  cases g with
  | so2 => exact congrArg SO2.params (SO2.map_inverse φ (.read a)).symm
  | se2 => exact congrArg SE2.params (SE2.map_inverse φ (.read a)).symm
  | so3 => exact congrArg SO3.params (SO3.map_inverse φ (.read a)).symm
  | se3 => exact congrArg SE3.params (SE3.map_inverse φ (.read a)).symm

theorem expRow_map (d : Nat → β) : g.expRow (fun i => φ (d i)) = (g.expRow d).map φ := by
  cases g with
  | so2 => exact congrArg SO2.params (SO2.map_exp φ (d 0)).symm
  | se2 => exact congrArg SE2.params (SE2.map_exp φ (.read d)).symm
  | so3 => exact congrArg SO3.params (SO3.map_exp φ (.read d)).symm
  | se3 => exact congrArg SE3.params (SE3.map_exp φ (.read d)).symm

theorem logRow_map (a : Nat → β) : g.logRow (fun i => φ (a i)) = (g.logRow a).map φ := by
  cases g with
  | so2 => exact congrArg (fun x => [x]) (SO2.map_log φ (.read a)).symm
  | se2 => exact congrArg Twist2.coordinates (SE2.map_log φ (.read a)).symm
  | so3 => exact congrArg Vec3.coordinates (SO3.map_log φ (.read a)).symm
  | se3 => exact congrArg Twist3.coordinates (SE3.map_log φ (.read a)).symm

end LieGroup

end LeastSquares
