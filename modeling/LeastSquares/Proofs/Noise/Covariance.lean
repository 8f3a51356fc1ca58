import LeastSquares.Proofs.Noise.Cholesky
import LeastSquares.Proofs.Numeric.Jet
import LeastSquares.Proofs.Value.Homomorphism

/-!
# Noise from a covariance

Over the reals every positive definite matrix has a Cholesky factor, so the root of the precision that
is made from a covariance is the inverse of that factor: a whitened residual has the square of the norm
that the inverse of the covariance gives. For variances in a diagonal, each coordinate is divided by a
standard deviation, as under the noise that is given by the variances alone.
-/

namespace LeastSquares

/-! ## Factors of positive definite matrices -/

section PosDef

open Matrix

variable {n : ℕ} {S : Matrix (Fin n) (Fin n) ℝ}

/-- A lower triangular change of coordinates that makes a positive definite matrix the identity. -/
theorem exists_lower_conj (hS : S.PosDef) :
    ∃ X : Matrix (Fin n) (Fin n) ℝ, X.IsLowerTriangular ∧ (∀ i, 0 < X i i) ∧ X * S * Xᵀ = 1 := by
  have hlower : (LDL.lowerInv hS).IsLowerTriangular := fun i j hij =>
    LDL.lowerInv_triangular hS (OrderDual.toDual_lt_toDual.1 hij)
  have hdiag : LDL.lowerInv hS * S * (LDL.lowerInv hS)ᵀ = diagonal (LDL.diagEntries hS) :=
    (LDL.diag_eq_lowerInv_conj hS).symm
  have hpos : ∀ i, 0 < LDL.diagEntries hS i := by
    have hconj := hS.mul_mul_conjTranspose_same (B := LDL.lowerInv hS)
      (vecMul_injective_of_isUnit (isUnit_of_invertible _))
    rw [conjTranspose_eq_transpose_of_trivial, hdiag] at hconj
    exact posDef_diagonal_iff.1 hconj
  have hne : ∀ i, LDL.lowerInv hS i i ≠ 0 := by
    have hdet := (isUnit_iff_isUnit_det _).1 (isUnit_of_invertible (LDL.lowerInv hS))
    rw [det_of_isLowerTriangular _ hlower] at hdet
    exact fun i => Finset.prod_ne_zero_iff.1 hdet.ne_zero i (Finset.mem_univ i)
  -- each row is scaled to unit length, with the sign that makes its last entry positive
  let scale (i : Fin n) : ℝ := SignType.sign (LDL.lowerInv hS i i) / √(LDL.diagEntries hS i)
  refine ⟨diagonal scale * LDL.lowerInv hS, fun i j hij => ?_, fun i => ?_, ?_⟩
  · rw [diagonal_mul, hlower hij, mul_zero]
  · rw [diagonal_mul, div_mul_eq_mul_div, sign_mul_self]
    exact div_pos (abs_pos.2 (hne i)) (Real.sqrt_pos.2 (hpos i))
  · have hunit : ∀ i, scale i * LDL.diagEntries hS i * scale i = 1 := fun i => by
      have hsign : (SignType.sign (LDL.lowerInv hS i i) : ℝ) * SignType.sign (LDL.lowerInv hS i i) = 1 := by
        rcases lt_or_gt_of_ne (hne i) with h | h <;> simp [h]
      have hroot := Real.mul_self_sqrt (hpos i).le
      have hroot' := (Real.sqrt_pos.2 (hpos i)).ne'
      simp only [scale]
      field_simp
      rw [sq, hsign, one_mul, sq, hroot]
    calc diagonal scale * LDL.lowerInv hS * S * (diagonal scale * LDL.lowerInv hS)ᵀ
        = diagonal scale * (LDL.lowerInv hS * S * (LDL.lowerInv hS)ᵀ) * diagonal scale := by
          rw [transpose_mul, diagonal_transpose]
          simp only [Matrix.mul_assoc]
      _ = 1 := by
          rw [hdiag, diagonal_mul_diagonal, diagonal_mul_diagonal, ← diagonal_one]
          exact congrArg diagonal (funext hunit)

/-- A positive definite matrix has a Cholesky factor, whose inverse is a root of the inverse. -/
theorem exists_factor (hS : S.PosDef) : ∃ L X : Matrix (Fin n) (Fin n) ℝ, L.IsLowerTriangular ∧
    (∀ i, 0 < L i i) ∧ L * Lᵀ = S ∧ X.IsLowerTriangular ∧ L * X = 1 ∧ Xᵀ * X = S⁻¹ := by
  obtain ⟨X, hlower, hpos, hconj⟩ := exists_lower_conj hS
  have hright : X * (S * Xᵀ) = 1 := by rw [← Matrix.mul_assoc, hconj]
  have := invertibleOfRightInverse X _ hright
  have hunit := isUnit_det_of_invertible X
  have hinv : X⁻¹.IsLowerTriangular := blockTriangular_inv_of_blockTriangular hlower
  have hfactor : X⁻¹ * X⁻¹ᵀ = S := by
    rw [transpose_nonsing_inv, ← Matrix.mul_one (X⁻¹), ← hconj]
    have hunit' : IsUnit Xᵀ.det := by rwa [det_transpose]
    simp only [Matrix.mul_assoc, mul_nonsing_inv _ hunit', Matrix.mul_one, nonsing_inv_mul_cancel_left _ _ hunit]
  refine ⟨X⁻¹, X, hinv, fun i => ?_, hfactor, hlower, nonsing_inv_mul _ hunit, ?_⟩
  · have hone : X⁻¹ i i * X i i = 1 := by
      have hentry := congrFun (congrFun (nonsing_inv_mul X hunit) i) i
      rw [mul_apply, one_apply_eq, Finset.sum_eq_single_of_mem i (Finset.mem_univ i)] at hentry
      · exact hentry
      · intro k _ hk
        rcases lt_or_gt_of_ne hk with h | h
        · rw [hlower h, mul_zero]
        · rw [hinv h, zero_mul]
    exact (mul_pos_iff_of_pos_right (hpos i)).1 (hone ▸ one_pos)
  · rw [← hfactor, Matrix.mul_inv_rev, ← transpose_nonsing_inv, nonsing_inv_nonsing_inv _ hunit]

end PosDef

/-! ## Blocks as matrices -/

/-- The coordinates of a vector. -/
noncomputable def Block.coordinates (n : ℕ) (b : Block ℝ) : Fin n → ℝ := fun i => b.toReals.entry i

/-- The matrix whose rows a block holds. -/
noncomputable def Block.matrix (n : ℕ) (b : Block ℝ) : Matrix (Fin n) (Fin n) ℝ :=
  .of fun i j => b.toReals.entry (i * n + j)

/-- A matrix with zeros around it. -/
def padded {n : ℕ} (M : Matrix (Fin n) (Fin n) ℝ) (i j : ℕ) : ℝ :=
  if h : i < n ∧ j < n then M ⟨i, h.1⟩ ⟨j, h.2⟩ else 0

section Padded

variable {n : ℕ} {M L X : Matrix (Fin n) (Fin n) ℝ}

theorem padded_eq {i j : ℕ} (hi : i < n) (hj : j < n) : padded M i j = M ⟨i, hi⟩ ⟨j, hj⟩ :=
  dif_pos ⟨hi, hj⟩

theorem padded_lower (hM : M.IsLowerTriangular) {i j : ℕ} (hij : i < j) : padded M i j = 0 := by
  unfold padded
  split
  next h => exact hM (OrderDual.toDual_lt_toDual.2 hij)
  next => rfl

theorem isFactor_padded (hlower : L.IsLowerTriangular) (hpos : ∀ i, 0 < L i i) (hM : L * L.transpose = M) :
    Noise.IsFactor (padded M) (padded L) n where
  lower _ _ hij := padded_lower hlower hij
  pos i hi := by
    rw [padded_eq hi hi]
    exact hpos _
  product i j hi hj := by
    rw [Finset.sum_range, padded_eq hi hj, ← hM, Matrix.mul_apply]
    exact Finset.sum_congr rfl fun k _ => by rw [padded_eq hi k.2, padded_eq hj k.2]; rfl

theorem isInverse_padded (hlower : X.IsLowerTriangular) (hX : L * X = 1) :
    Noise.IsInverse (padded L) (padded X) n where
  lower _ _ hij := padded_lower hlower hij
  product i j hi hj := by
    have hentry := congrFun (congrFun hX ⟨i, hi⟩) ⟨j, hj⟩
    rw [Matrix.mul_apply, Matrix.one_apply] at hentry
    simp only [Fin.mk.injEq] at hentry
    rw [← hentry, Finset.sum_range]
    exact Finset.sum_congr rfl fun k _ => by rw [padded_eq hi k.2, padded_eq k.2 hj]

end Padded

/-! ## Whitening -/

namespace Noise

variable {n : ℕ} {covariance variances : Block ℝ}

theorem sqrt_pivot {x : ℝ} (hx : 0 < x) : Elementary.sqrt (x * x) = x := Real.sqrt_mul_self hx.le

/-- The noise with a positive definite covariance has a root of the precision as its root. -/
theorem ofCovariance_of_posDef (hshape : covariance.shape = [n, n]) (hpos : (covariance.matrix n).PosDef) :
    ∃ root : Block ℝ, ofCovariance covariance = .ok (full root) ∧ root.shape = [n, n] ∧
      (root.matrix n).transpose * root.matrix n = (covariance.matrix n)⁻¹ := by
  obtain ⟨L, X, hlower, hdiag, hproduct, hlower', hinverse, hroot⟩ := exists_factor hpos
  have hfactor : IsFactor (fun i j => covariance.toReals.entry (i * n + j)) (padded L) n := by
    have h := isFactor_padded hlower hdiag hproduct
    refine ⟨h.lower, h.pos, fun i j hi hj => (h.product i j hi hj).trans ?_⟩
    exact padded_eq hi hj
  refine ⟨_, ofCovariance_of_factor hshape hfactor (fun i hi => sqrt_pivot (hfactor.pos i hi))
    (isInverse_padded hlower' hinverse), rfl, ?_⟩
  have hX : Block.matrix n (.reals (.generate [n, n] fun k => padded X (k / n) (k % n))) = X := by
    ext i j
    exact (entry_generate_cell i.2 j.2).trans (padded_eq i.2 j.2)
  rw [hX, hroot]

/-- A full root weighs a vector as a matrix. -/
theorem whiten_full {root r : Block ℝ} (hroot : root.shape = [n, n]) (hr : r.shape = [n]) :
    ∃ w, (full root).whiten r = .ok w ∧ w.shape = [n] ∧
      w.coordinates n = (root.matrix n).mulVec (r.coordinates n) := by
  obtain ⟨u, hu, hushape, hentry⟩ :=
    Block.mulVec?_reals (a := root) (x := r.toReals) hroot (r.shape_toReals.trans hr)
  have hmul : root.mulVec? r = some (.reals u) := hu
  refine ⟨.reals u, by rw [whiten, hmul, fitting_some], hushape, funext fun i => ?_⟩
  refine (hentry i i.2).trans ?_
  rw [Finset.sum_range]
  rfl

/-- The squared norm of a whitened residual is that of the precision. -/
theorem whiten_ofCovariance (hshape : covariance.shape = [n, n]) (hpos : (covariance.matrix n).PosDef) :
    ∃ noise, ofCovariance covariance = .ok noise ∧ ∀ r, r.shape = [n] →
      ∃ w, noise.whiten r = .ok w ∧ w.shape = [n] ∧ w.coordinates n ⬝ᵥ w.coordinates n =
        r.coordinates n ⬝ᵥ (covariance.matrix n)⁻¹.mulVec (r.coordinates n) := by
  obtain ⟨root, hnoise, hroot, hprecision⟩ := ofCovariance_of_posDef hshape hpos
  refine ⟨_, hnoise, fun r hr => ?_⟩
  obtain ⟨w, hw, hwshape, hcoordinates⟩ := whiten_full hroot hr
  refine ⟨w, hw, hwshape, ?_⟩
  rw [hcoordinates, ← hprecision, ← Matrix.mulVec_mulVec, Matrix.dotProduct_mulVec,
    Matrix.mulVec_transpose, dotProduct_comm]

/-! ## Variances -/

section Alike

variable {β γ : Type}

/-- Every coordinate is weighed alone, and by the same number. -/
inductive Alike [Scalar β] (n : ℕ) : Noise β → Noise β → Prop where
  | weights {root : Block β} {t : Tensor β} : root.shape = [n, n] → t.shape = [n] →
      (∀ i j, i < n → j < n → root.toReals.entry (i * n + j) = if i = j then t.entry i else Scalar.zero) →
      Alike n (full root) (diagonal (.reals t))

theorem Alike.map [Scalar β] [Scalar γ] (φ : ScalarHom β γ) {noise noise' : Noise β}
    (h : Alike n noise noise') : Alike n (noise.map φ) (noise'.map φ) := by
  obtain ⟨hroot, ht, hentry⟩ := h
  have hshape : ∀ b : Block β, (b.mapReals φ).shape = b.shape := fun b => by cases b <;> rfl
  refine .weights ((hshape _).trans hroot) ht fun i j hi hj => ?_
  rw [Block.toReals_map, Tensor.entry_image, hentry i j hi hj, Tensor.entry_image, φ.map_ite, φ.map_zero]

theorem dot_map_range [RingScalar β] (a x : ℕ → β) (n : ℕ) :
    Block.dot ((List.range n).map fun j => (a j, x j)) = ∑ j ∈ Finset.range n, a j * x j := by
  induction n with
  | zero => exact RingScalar.zero_eq
  | succ n ih =>
    rw [List.range_succ, List.map_append, Block.dot, List.foldl_append, Finset.sum_range_succ, ← ih]
    rfl

/-- Vectors of the right length are whitened to the same. -/
theorem Alike.whiten_eq [RingScalar β] {noise noise' : Noise β} (h : Alike n noise noise') {r : Block β}
    (hr : r.shape = [n]) : noise.whiten r = noise'.whiten r := by
  obtain @⟨root, t, hroot, ht, hentry⟩ := h
  have hrr : r.toReals.shape = [n] := by
    rw [← hr]
    cases r <;> rfl
  have hrootr : root.toReals.shape = [n, n] := by
    rw [← hroot]
    cases root <;> rfl
  have hmulVec : root.mulVec? r = some (.reals (.generate [n] fun i => Block.dot <|
      (List.range n).map fun j => (root.toReals.entry (i * n + j), r.toReals.entry j))) := by
    rw [Block.mulVec?, Tensor.mulVec?_of_shape hrootr hrr]
    rfl
  have hmul : (Block.reals t).mul? r =
      some (.reals (.generate [n] fun i => t.entry i * r.toReals.entry i)) := by
    show (Tensor.zipWith? (· * ·) t r.toReals).map Block.reals = _
    rw [Tensor.zipWith?_of_shape_eq (ht.trans hrr.symm), ht]
    rfl
  have hsame : decide (r.shape = (Block.reals t).shape) = true := decide_eq_true (hr.trans ht.symm)
  show fitting (root.mulVec? r) = (require .residualShape (r.shape = (Block.reals t).shape) >>= fun _ =>
    fitting ((Block.reals t).mul? r))
  rw [hmulVec, hsame, require_true, Checked.ok_bind, hmul]
  refine congrArg (fun u => Except.ok (Block.reals u)) (Tensor.generate_congr fun i hi => ?_)
  have hi : i < n := by simpa using hi
  rw [dot_map_range, Finset.sum_eq_single_of_mem i (Finset.mem_range.2 hi), hentry i i hi hi, if_pos rfl]
  intro j hj hij
  rw [hentry i j hi (Finset.mem_range.1 hj), if_neg hij.symm, RingScalar.zero_eq, zero_mul]

end Alike

/-- The standard deviations, as a diagonal matrix. -/
noncomputable def deviations (v : ℕ → ℝ) (i j : ℕ) : ℝ := if i = j then √(v i) else 0

/-- What divides by the standard deviations, as a diagonal matrix. -/
noncomputable def weights (v : ℕ → ℝ) (i j : ℕ) : ℝ := if i = j then 1 / √(v i) else 0

theorem deviations_self (v : ℕ → ℝ) (i : ℕ) : deviations v i i = √(v i) := if_pos rfl

theorem deviations_ne (v : ℕ → ℝ) {i j : ℕ} (h : i ≠ j) : deviations v i j = 0 := if_neg h

theorem isFactor_deviations {v : ℕ → ℝ} (hv : ∀ i, i < n → 0 < v i) :
    IsFactor (fun i j => if i = j then v i else 0) (deviations v) n where
  lower i j hij := deviations_ne v hij.ne
  pos i hi := by
    rw [deviations_self]
    exact Real.sqrt_pos.2 (hv i hi)
  product i j hi hj := by
    rw [Finset.sum_eq_single_of_mem i (Finset.mem_range.2 hi) fun k _ hk => by
      rw [deviations_ne v hk.symm, zero_mul], deviations_self]
    by_cases hij : i = j
    · rw [if_pos hij, ← hij, deviations_self, Real.mul_self_sqrt (hv i hi).le]
    · rw [if_neg hij, deviations_ne v (Ne.symm hij), mul_zero]

theorem isInverse_weights {v : ℕ → ℝ} (hv : ∀ i, i < n → 0 < v i) :
    IsInverse (deviations v) (weights v) n where
  lower i j hij := if_neg hij.ne
  product i j hi hj := by
    rw [Finset.sum_eq_single_of_mem i (Finset.mem_range.2 hi) fun k _ hk => by
      rw [deviations_ne v hk.symm, zero_mul], deviations_self, weights]
    by_cases hij : i = j
    · rw [if_pos hij, if_pos hij, mul_one_div_cancel (Real.sqrt_pos.2 (hv i hi)).ne']
    · rw [if_neg hij, if_neg hij, mul_zero]

/-- A diagonal covariance gives the noise of its variances, with the root in full. -/
theorem ofCovariance_diagonal (hvariances : variances.shape = [n])
    (hpos : ∀ i, 0 < variances.coordinates n i) (hshape : covariance.shape = [n, n])
    (hdiagonal : covariance.matrix n = Matrix.diagonal (variances.coordinates n)) :
    ∃ noise, ofCovariance covariance = .ok noise ∧ Alike n noise (ofVariances variances) := by
  have hv : ∀ i, i < n → 0 < variances.toReals.entry i := fun i hi => hpos ⟨i, hi⟩
  have hfactor : IsFactor (fun i j => covariance.toReals.entry (i * n + j))
      (deviations variances.toReals.entry) n := by
    have h := isFactor_deviations hv
    refine ⟨h.lower, h.pos, fun i j hi hj => (h.product i j hi hj).trans ?_⟩
    have hentry := congrFun (congrFun hdiagonal ⟨i, hi⟩) ⟨j, hj⟩
    simp only [Matrix.diagonal_apply, Fin.mk.injEq] at hentry
    exact hentry.symm
  refine ⟨_, ofCovariance_of_factor hshape hfactor (fun i hi => sqrt_pivot (hfactor.pos i hi))
    (isInverse_weights hv), .weights rfl
      ((Tensor.shape_map ..).trans (variances.shape_toReals.trans hvariances)) fun i j hi hj => ?_⟩
  have hi' : i < variances.toReals.shape.volume := by
    rw [Block.shape_toReals, hvariances, Shape.volume_row]
    exact hi
  rw [Block.toReals_reals, entry_generate_cell hi hj, Tensor.entry_map hi', Scalar.zero_eq,
    Scalar.one_eq]
  rfl

end Noise

end LeastSquares
