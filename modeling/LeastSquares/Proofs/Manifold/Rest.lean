import LeastSquares.Proofs.Numeric.Exact
import LeastSquares.Proofs.Value.Coordinates

/-!
# Standing still

A motion along no tangent vector at all leads back to where it began. In exact arithmetic that takes the
sine and cosine of zero, and nothing else of the functions of angles.
-/

namespace LeastSquares

/-- The sine and cosine of zero. -/
structure ExactAngle (α : Type) [LinearOrder α] [ExactScalar α] : Prop where
  sin_zero : Elementary.sin (0 : α) = 0
  cos_zero : Elementary.cos (0 : α) = 1

theorem exactAngle_real : ExactAngle ℝ := ⟨Real.sin_zero, Real.cos_zero⟩

theorem exactAngle_rat : ExactAngle ℚ := ⟨rfl, rfl⟩

variable {α : Type} [LinearOrder α] [ExactScalar α]

theorem Scalar.small_pos : (0 : α) < small := by
  have h : (small : α) = ((1 : ℕ) : α) * (10 : α) ^ (-10 : ℤ) := ExactScalar.ofDecimal_eq 1 (-10)
  rw [h]
  positivity

/-! ## Elements -/

theorem SO2.mul_identity (a : SO2 α) : a.mul identity = a := by
  simp [mul, identity]

theorem SO2.exp_zero (h : ExactAngle α) : exp (0 : α) = identity := by
  simp [exp, identity, h.sin_zero, h.cos_zero]

theorem SE2.mul_identity (a : SE2 α) : a.mul identity = a := by
  simp [mul, identity, SO2.mul_identity, SO2.apply, Vec2.add]

theorem SE2.exp_zero (h : ExactAngle α) : exp (⟨⟨0, 0⟩, 0⟩ : Twist2 α) = identity := by
  simp [exp, identity, SO2.exp_zero h]

theorem SO3.mul_identity (a : SO3 α) : a.mul identity = a := by
  simp [mul, identity]

theorem SO3.exp_zero : exp (⟨0, 0, 0⟩ : Vec3 α) = identity := by
  simp [exp, identity, Vec3.squaredNorm, Vec3.dot, Scalar.small_pos]

theorem SE3.mul_identity (a : SE3 α) : a.mul identity = a := by
  have happly : ∀ q : SO3 α, q.apply ⟨0, 0, 0⟩ = ⟨0, 0, 0⟩ := fun q => by
    simp [SO3.apply, SO3.mul]
  simp [mul, identity, SO3.mul_identity, happly, Vec3.add]

theorem SE3.exp_zero : exp (⟨⟨0, 0, 0⟩, ⟨0, 0, 0⟩⟩ : Twist3 α) = identity := by
  simp [exp, identity, SO3.exp_zero, Mat3.mulVec, Vec3.dot]

/-! ## Rows -/

namespace LieGroup

theorem expRow_zero (h : ExactAngle α) (g : LieGroup) {d : Nat → α} (hd : ∀ i, d i = 0) :
    g.expRow d = g.identity := by
  cases g with
  | so2 => exact congrArg SO2.params (by rw [hd]; exact SO2.exp_zero h)
  | se2 => exact congrArg SE2.params (by simp only [Twist2.read, hd]; exact SE2.exp_zero h)
  | so3 => exact congrArg SO3.params (by simp only [Vec3.read, hd]; exact SO3.exp_zero)
  | se3 => exact congrArg SE3.params (by simp only [Twist3.read, hd]; exact SE3.exp_zero)

theorem mulRow_identity (g : LieGroup) (a : Nat → α) {b : Nat → α}
    (hb : ∀ i, i < g.paramDim → b i = g.identity.getD i default) :
    g.mulRow a b = (List.range g.paramDim).map a := by
  cases g with
  | so2 =>
    have hread : SO2.read b = SO2.identity := by
      simp only [SO2.read, hb 0 (by decide), hb 1 (by decide)]
      rfl
    exact congrArg SO2.params ((congrArg (SO2.read a).mul hread).trans (SO2.mul_identity _))
  | se2 =>
    have hread : SE2.read b = SE2.identity := by
      simp only [SE2.read, hb 0 (by decide), hb 1 (by decide), hb 2 (by decide), hb 3 (by decide)]
      rfl
    exact congrArg SE2.params ((congrArg (SE2.read a).mul hread).trans (SE2.mul_identity _))
  | so3 =>
    have hread : SO3.read b = SO3.identity := by
      simp only [SO3.read, hb 0 (by decide), hb 1 (by decide), hb 2 (by decide), hb 3 (by decide)]
      rfl
    exact congrArg SO3.params ((congrArg (SO3.read a).mul hread).trans (SO3.mul_identity _))
  | se3 =>
    have hread : SE3.read b = SE3.identity := by
      simp only [SE3.read, hb 0 (by decide), hb 1 (by decide), hb 2 (by decide), hb 3 (by decide),
        hb 4 (by decide), hb 5 (by decide), hb 6 (by decide)]
      rfl
    exact congrArg SE3.params ((congrArg (SE3.read a).mul hread).trans (SE3.mul_identity _))

end LieGroup

/-! ## Values -/

namespace Tensor

variable {β : Type} [Inhabited β]

theorem entry_ofRows_single {width : Nat} {rows : Nat → List β} {k : Nat} (hk : k < width) :
    (ofRows [] width rows).entry k = (rows 0).getD k default := by
  unfold ofRows
  rw [entry_generate (by simpa using hk), Nat.div_eq_of_lt hk, Nat.mod_eq_of_lt hk,
    entry_generate Nat.one_pos]

theorem coordinate_single {t : Tensor β} {width : Nat} (ht : t.shape = [width]) (k : Nat) {i : Nat}
    (hi : i < width) : t.coordinate [] k i = t.entry i := by
  have hwidth : t.width = width := by
    rw [Tensor.width, ht]
    rfl
  have hmin : min i (width - 1) = i := by omega
  show t.entry (0 * t.width + min i (t.width - 1)) = _
  rw [hwidth, hmin, Nat.zero_mul, Nat.zero_add]

end Tensor

/-- A group element that is moved along the zero vector stays. -/
theorem LieGroup.moved?_zero (h : ExactAngle α) (g : LieGroup) {a d : Tensor α}
    (ha : a.shape = [g.paramDim]) (hd : d.shape = [g.tangentDim])
    (hzero : ∀ k, k < g.tangentDim → d.entry k = 0) : g.moved? a d = some a := by
  have hlead : d.lead = [] := by rw [Tensor.lead, hd]; rfl
  have hcoordinate : ∀ i, d.coordinate [] 0 i = 0 := by
    intro i
    have hpos : 0 < g.tangentDim := by cases g <;> decide
    have hwidth : d.width = g.tangentDim := by rw [Tensor.width, hd]; rfl
    show d.entry (0 * d.width + min i (d.width - 1)) = 0
    rw [hwidth, Nat.zero_mul, Nat.zero_add]
    exact hzero _ (by omega)
  have hshape : (d.mapRows g.paramDim g.expRow).shape = [g.paramDim] := by
    rw [Tensor.mapRows, hlead]
    rfl
  have hstep : ∀ i, i < g.paramDim →
      (d.mapRows g.paramDim g.expRow).coordinate [] 0 i = g.identity.getD i default := by
    intro i hi
    rw [Tensor.coordinate_single hshape 0 hi, Tensor.mapRows, hlead, Tensor.entry_ofRows_single hi,
      g.expRow_zero h hcoordinate]
  rw [g.moved?_eq ha hd]
  refine congrArg some (Tensor.ext_entry ha.symm fun k hk => ?_)
  have hk : k < g.paramDim := by simpa [Tensor.ofRows] using hk
  rw [Tensor.entry_ofRows_single hk, g.mulRow_identity _ hstep, List.getD_eq_getElem _ _ (by simpa using hk),
    List.getElem_map, List.getElem_range, Tensor.coordinate_single ha 0 hk]

end LeastSquares
