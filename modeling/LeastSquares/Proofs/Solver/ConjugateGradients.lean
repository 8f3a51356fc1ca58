import Mathlib

/-!
# Conjugate gradients on the normal equations

The recurrences of the method for `min ‖b - A x‖²` over an ordered field, without a test when to
stop. An iterate has `r = b - A x`, `s = Aᵀ r`, a direction `p` and `γ = ‖s‖²`; with `q = A p` it
goes along `p` by `α = γ / ‖q‖²`. Every iterate keeps `⟨p, s⟩ = γ` and stays with `p` and with the
correction of `x` in the range of `Aᵀ`. Along a run all `s` are orthogonal to each other, and so are
all `q`; so there are at most as many steps as the rank of `A`.
-/

namespace LeastSquares.Conjugate

open Matrix

/-- The vectors of one iterate. -/
structure Iterate (K ι κ : Type) where
  x : ι → K
  r : κ → K
  s : ι → K
  p : ι → K

variable {K ι κ : Type} [Field K] [Fintype ι] [Fintype κ]
  {A : Matrix κ ι K} {b : κ → K} {x₀ : ι → K} {σ : Iterate K ι κ}

namespace Iterate

/-- The squared norm of `s`. -/
def gamma (σ : Iterate K ι κ) : K := σ.s ⬝ᵥ σ.s

/-- The image of the direction. -/
def image (A : Matrix κ ι K) (σ : Iterate K ι κ) : κ → K := A *ᵥ σ.p

/-- The squared norm of the image. -/
def curvature (A : Matrix κ ι K) (σ : Iterate K ι κ) : K := σ.image A ⬝ᵥ σ.image A

/-- The length of the step. -/
def alpha (A : Matrix κ ι K) (σ : Iterate K ι κ) : K := σ.gamma / σ.curvature A

def start (A : Matrix κ ι K) (b : κ → K) (x : ι → K) : Iterate K ι κ :=
  ⟨x, b - A *ᵥ x, Aᵀ *ᵥ (b - A *ᵥ x), Aᵀ *ᵥ (b - A *ᵥ x)⟩

def next (A : Matrix κ ι K) (σ : Iterate K ι κ) : Iterate K ι κ where
  x := σ.x + σ.alpha A • σ.p
  r := σ.r - σ.alpha A • σ.image A
  s := Aᵀ *ᵥ (σ.r - σ.alpha A • σ.image A)
  p := Aᵀ *ᵥ (σ.r - σ.alpha A • σ.image A) +
    ((Aᵀ *ᵥ (σ.r - σ.alpha A • σ.image A)) ⬝ᵥ (Aᵀ *ᵥ (σ.r - σ.alpha A • σ.image A)) / σ.gamma) •
      σ.p

/-! ## One step -/

/-- What every iterate of a run from `x₀` satisfies. -/
structure Sound (A : Matrix κ ι K) (b : κ → K) (x₀ : ι → K) (σ : Iterate K ι κ) : Prop where
  residual : σ.r = b - A *ᵥ σ.x
  normal : σ.s = Aᵀ *ᵥ σ.r
  slope : σ.p ⬝ᵥ σ.s = σ.gamma
  direction : ∃ y, σ.p = Aᵀ *ᵥ y
  correction : ∃ y, σ.x - x₀ = Aᵀ *ᵥ y
  rest : σ.gamma = 0 → σ.p = 0

theorem alpha_mul_curvature (hq : σ.curvature A ≠ 0) : σ.alpha A * σ.curvature A = σ.gamma :=
  div_mul_cancel₀ _ hq

/-- The transpose, applied to the image of the direction, against a vector. -/
theorem image_dot (A : Matrix κ ι K) (σ : Iterate K ι κ) (v : ι → K) :
    v ⬝ᵥ Aᵀ *ᵥ σ.image A = σ.image A ⬝ᵥ A *ᵥ v := dotProduct_transpose_mulVec A v _

theorem next_s (h : σ.Sound A b x₀) : (σ.next A).s = σ.s - σ.alpha A • Aᵀ *ᵥ σ.image A := by
  show Aᵀ *ᵥ (σ.r - σ.alpha A • σ.image A) = _
  rw [mulVec_sub, mulVec_smul, h.normal]

theorem next_p (A : Matrix κ ι K) (σ : Iterate K ι κ) :
    (σ.next A).p = (σ.next A).s + ((σ.next A).gamma / σ.gamma) • σ.p := rfl

/-- After the step the direction is orthogonal to the new `s`: the step went to the minimum on its
line. -/
theorem Sound.direction_dot_next (h : σ.Sound A b x₀) (hq : σ.curvature A ≠ 0) :
    σ.p ⬝ᵥ (σ.next A).s = 0 := by
  calc σ.p ⬝ᵥ (σ.next A).s = σ.p ⬝ᵥ σ.s - σ.alpha A * (σ.p ⬝ᵥ Aᵀ *ᵥ σ.image A) := by
        rw [next_s h, dotProduct_sub, dotProduct_smul, smul_eq_mul]
    _ = σ.gamma - σ.alpha A * σ.curvature A := by
        rw [h.slope, image_dot]
        rfl
    _ = 0 := by rw [alpha_mul_curvature hq, sub_self]

/-- The next direction, at the size of the step. Its two parts are orthogonal. -/
theorem Sound.next_direction_squaredNorm (h : σ.Sound A b x₀) (hq : σ.curvature A ≠ 0) :
    (σ.alpha A • (σ.next A).p) ⬝ᵥ (σ.alpha A • (σ.next A).p) =
      σ.alpha A ^ 2 * (σ.next A).gamma +
        ((σ.next A).gamma / σ.gamma) ^ 2 * ((σ.alpha A • σ.p) ⬝ᵥ (σ.alpha A • σ.p)) := by
  have horth := h.direction_dot_next hq
  have horth' : (σ.next A).s ⬝ᵥ σ.p = 0 := by rw [dotProduct_comm, horth]
  rw [next_p]
  simp only [add_dotProduct, dotProduct_add, smul_dotProduct, dotProduct_smul, smul_eq_mul, horth,
    horth']
  show _ = σ.alpha A ^ 2 * ((σ.next A).s ⬝ᵥ (σ.next A).s) + _
  ring

/-- A step lowers the squared norm of the residual by `γ² / ‖q‖²`. -/
theorem Sound.next_squaredNorm (h : σ.Sound A b x₀) (hq : σ.curvature A ≠ 0) :
    (σ.next A).r ⬝ᵥ (σ.next A).r = σ.r ⬝ᵥ σ.r - σ.gamma ^ 2 / σ.curvature A := by
  have hcross : σ.r ⬝ᵥ σ.image A = σ.gamma := by
    rw [← h.slope, h.normal, dotProduct_transpose_mulVec]
    rfl
  have hcross' : σ.image A ⬝ᵥ σ.r = σ.gamma := by rw [dotProduct_comm, hcross]
  calc (σ.next A).r ⬝ᵥ (σ.next A).r
      = σ.r ⬝ᵥ σ.r - 2 * (σ.alpha A * σ.gamma) +
          σ.alpha A * (σ.alpha A * σ.curvature A) := by
        show (σ.r - σ.alpha A • σ.image A) ⬝ᵥ (σ.r - σ.alpha A • σ.image A) = _
        simp only [sub_dotProduct, dotProduct_sub, smul_dotProduct, dotProduct_smul, smul_eq_mul,
          hcross, hcross']
        show _ = σ.r ⬝ᵥ σ.r - 2 * (σ.alpha A * σ.gamma) +
          σ.alpha A * (σ.alpha A * (σ.image A ⬝ᵥ σ.image A))
        ring
    _ = σ.r ⬝ᵥ σ.r - σ.alpha A * σ.gamma := by
        rw [alpha_mul_curvature hq]
        ring
    _ = σ.r ⬝ᵥ σ.r - σ.gamma ^ 2 / σ.curvature A := by
        rw [alpha, div_mul_eq_mul_div, ← sq]

variable [LinearOrder K] [IsStrictOrderedRing K]

omit [Fintype κ] in
theorem dot_self_nonneg (v : ι → K) : 0 ≤ v ⬝ᵥ v :=
  Finset.sum_nonneg fun i _ => mul_self_nonneg (v i)

omit [Fintype κ] in
theorem gamma_nonneg (σ : Iterate K ι κ) : 0 ≤ σ.gamma := dot_self_nonneg σ.s

theorem curvature_nonneg (A : Matrix κ ι K) (σ : Iterate K ι κ) : 0 ≤ σ.curvature A :=
  dot_self_nonneg (σ.image A)

omit [Fintype κ] in
theorem s_eq_zero_iff : σ.gamma = 0 ↔ σ.s = 0 := dotProduct_self_eq_zero

/-- A direction in the range of `Aᵀ` that `A` sends to zero is zero. -/
theorem eq_zero_of_image_eq_zero {p : ι → K} {y : κ → K} (hp : p = Aᵀ *ᵥ y) (hq : A *ᵥ p = 0) :
    p = 0 := by
  refine dotProduct_self_eq_zero.1 ?_
  calc p ⬝ᵥ p = p ⬝ᵥ Aᵀ *ᵥ y := by rw [← hp]
    _ = y ⬝ᵥ A *ᵥ p := dotProduct_transpose_mulVec A p y
    _ = 0 := by rw [hq, dotProduct_zero]

/-- The image of the direction vanishes exactly when `s` does. -/
theorem Sound.curvature_eq_zero_iff (h : σ.Sound A b x₀) : σ.curvature A = 0 ↔ σ.gamma = 0 := by
  constructor
  · intro hq
    obtain ⟨y, hy⟩ := h.direction
    have hp : σ.p = 0 := eq_zero_of_image_eq_zero hy (dotProduct_self_eq_zero.1 hq)
    rw [← h.slope, hp, zero_dotProduct]
  · intro hγ
    have hq : σ.image A = 0 := by rw [image, h.rest hγ, mulVec_zero]
    rw [curvature, hq, zero_dotProduct]

theorem sound_start (A : Matrix κ ι K) (b : κ → K) (x₀ : ι → K) : (start A b x₀).Sound A b x₀ where
  residual := rfl
  normal := rfl
  slope := rfl
  direction := ⟨_, rfl⟩
  correction := ⟨0, by simp [start]⟩
  rest h := s_eq_zero_iff.1 h

theorem Sound.next (h : σ.Sound A b x₀) (hq : σ.curvature A ≠ 0) : (σ.next A).Sound A b x₀ where
  residual := by
    show σ.r - σ.alpha A • σ.image A = b - A *ᵥ (σ.x + σ.alpha A • σ.p)
    rw [h.residual, mulVec_add, mulVec_smul, sub_sub]
    rfl
  normal := rfl
  slope := by
    rw [next_p, add_dotProduct, smul_dotProduct, h.direction_dot_next hq, smul_zero, add_zero]
    rfl
  direction := by
    obtain ⟨y, hy⟩ := h.direction
    refine ⟨(σ.next A).r + ((σ.next A).gamma / σ.gamma) • y, ?_⟩
    rw [next_p, mulVec_add, mulVec_smul, ← hy]
    rfl
  correction := by
    obtain ⟨y, hy⟩ := h.direction
    obtain ⟨z, hz⟩ := h.correction
    refine ⟨z + σ.alpha A • y, ?_⟩
    show σ.x + σ.alpha A • σ.p - x₀ = _
    rw [mulVec_add, mulVec_smul, ← hy, ← hz, add_sub_right_comm]
  rest hγ := by
    rw [next_p, hγ, s_eq_zero_iff.1 hγ, zero_div, zero_smul, add_zero]

/-! ## Runs -/

/-- The iterate after `k` steps from `x`. -/
def run (A : Matrix κ ι K) (b : κ → K) (x : ι → K) (k : ℕ) : Iterate K ι κ :=
  (next A)^[k] (start A b x)

omit [LinearOrder K] [IsStrictOrderedRing K] in
theorem run_succ (A : Matrix κ ι K) (b : κ → K) (x : ι → K) (k : ℕ) :
    run A b x (k + 1) = (run A b x k).next A := Function.iterate_succ_apply' ..

theorem sound_run {k : ℕ} (h : ∀ i, i < k → (run A b x₀ i).gamma ≠ 0) :
    (run A b x₀ k).Sound A b x₀ := by
  induction k with
  | zero => exact sound_start A b x₀
  | succ k ih =>
    have hk := ih fun i hi => h i (by omega)
    rw [run_succ]
    exact hk.next fun hq => h k (by omega) (hk.curvature_eq_zero_iff.1 hq)

/-- A coordinate at which the slope vanishes wherever the coordinate does stays zero along a run, and so
does that of the direction. -/
theorem run_apply_eq_zero {u : ι} (hstart : x₀ u = 0)
    (hslope : ∀ z : ι → K, z u = 0 → (Aᵀ *ᵥ (b - A *ᵥ z)) u = 0) {k : ℕ}
    (h : ∀ i, i < k → (run A b x₀ i).gamma ≠ 0) : (run A b x₀ k).x u = 0 ∧ (run A b x₀ k).p u = 0 := by
  induction k with
  | zero => exact ⟨hstart, hslope x₀ hstart⟩
  | succ k ih =>
    obtain ⟨hx, hp⟩ := ih fun i hi => h i (by omega)
    have hsound : (run A b x₀ (k + 1)).Sound A b x₀ := sound_run h
    have hx' : (run A b x₀ (k + 1)).x u = 0 := by
      rw [run_succ]
      simp [next, hx, hp]
    have hs : (run A b x₀ (k + 1)).s u = 0 := by
      rw [hsound.normal, hsound.residual]
      exact hslope _ hx'
    refine ⟨hx', ?_⟩
    rw [run_succ] at hs ⊢
    rw [next_p, Pi.add_apply, Pi.smul_apply, hs, hp, smul_zero, add_zero]

theorem curvature_run_ne_zero {k : ℕ} (h : ∀ i, i ≤ k → (run A b x₀ i).gamma ≠ 0) :
    (run A b x₀ k).curvature A ≠ 0 := by
  have hsound : (run A b x₀ k).Sound A b x₀ := sound_run fun i hi => h i hi.le
  exact fun hq => h k le_rfl (hsound.curvature_eq_zero_iff.1 hq)

omit [LinearOrder K] [IsStrictOrderedRing K] in
/-- The image of `s` is a combination of the images of this direction and the one before, if
there is one. -/
theorem image_s (A : Matrix κ ι K) (b : κ → K) (x₀ : ι → K) (k : ℕ) :
    A *ᵥ (run A b x₀ k).s = (run A b x₀ k).image A ∨
      ∃ (j : ℕ) (β : K), k = j + 1 ∧
        A *ᵥ (run A b x₀ k).s = (run A b x₀ k).image A - β • (run A b x₀ j).image A := by
  cases k with
  | zero => exact .inl rfl
  | succ k =>
    refine .inr ⟨k, (run A b x₀ (k + 1)).gamma / (run A b x₀ k).gamma, rfl, ?_⟩
    have hp := next_p A (run A b x₀ k)
    rw [← run_succ] at hp
    rw [image, hp, mulVec_add, mulVec_smul, image, add_sub_cancel_right]

/-- All earlier `s` are orthogonal to the `s` of an iterate, and so are the images. -/
def Orthogonal (A : Matrix κ ι K) (b : κ → K) (x₀ : ι → K) (k : ℕ) : Prop :=
  ∀ i, i < k → (run A b x₀ i).s ⬝ᵥ (run A b x₀ k).s = 0 ∧
    (run A b x₀ i).image A ⬝ᵥ (run A b x₀ k).image A = 0

omit [LinearOrder K] [IsStrictOrderedRing K] in
/-- The image of an earlier `s`, against the image of the direction. -/
theorem image_s_dot_image {k i : ℕ} (hi : i ≤ k) (h : Orthogonal A b x₀ k) :
    A *ᵥ (run A b x₀ i).s ⬝ᵥ (run A b x₀ k).image A =
      if i = k then (run A b x₀ k).curvature A else 0 := by
  have hdot : ∀ j, j ≤ k → (run A b x₀ j).image A ⬝ᵥ (run A b x₀ k).image A =
      if j = k then (run A b x₀ k).curvature A else 0 := by
    intro j hj
    by_cases hjk : j = k
    · rw [if_pos hjk, hjk]
      rfl
    · rw [if_neg hjk]
      exact (h j (by omega)).2
  rcases image_s A b x₀ i with hs | ⟨j, β, rfl, hs⟩
  · rw [hs, hdot i hi]
  · rw [hs, sub_dotProduct, smul_dotProduct, hdot (j + 1) hi, hdot j (by omega),
      if_neg (show j ≠ k by omega), smul_zero, sub_zero]

/-- The next `s` is orthogonal to all before it. -/
theorem s_dot_succ {k i : ℕ} (hi : i ≤ k) (hγ : ∀ j, j ≤ k → (run A b x₀ j).gamma ≠ 0)
    (h : Orthogonal A b x₀ k) : (run A b x₀ i).s ⬝ᵥ (run A b x₀ (k + 1)).s = 0 := by
  have hsound : (run A b x₀ k).Sound A b x₀ := sound_run fun j hj => hγ j (by omega)
  have hstep : (run A b x₀ i).s ⬝ᵥ (run A b x₀ (k + 1)).s =
      (run A b x₀ i).s ⬝ᵥ (run A b x₀ k).s -
        (run A b x₀ k).alpha A * (A *ᵥ (run A b x₀ i).s ⬝ᵥ (run A b x₀ k).image A) := by
    rw [run_succ, next_s hsound, dotProduct_sub, dotProduct_smul, image_dot,
      dotProduct_comm (A *ᵥ _), smul_eq_mul]
  rw [hstep, image_s_dot_image hi h]
  by_cases hik : i = k
  · subst hik
    rw [if_pos rfl, alpha_mul_curvature (curvature_run_ne_zero hγ)]
    exact sub_self _
  · rw [if_neg hik, (h i (by omega)).1, mul_zero, sub_zero]

omit [LinearOrder K] [IsStrictOrderedRing K] in
/-- The image of a direction is told by the change of `s` that its step makes. -/
theorem alpha_mul_image_dot {i : ℕ} (h : (run A b x₀ i).Sound A b x₀) (v : ι → K) :
    (run A b x₀ i).alpha A * ((run A b x₀ i).image A ⬝ᵥ A *ᵥ v) =
      (run A b x₀ i).s ⬝ᵥ v - (run A b x₀ (i + 1)).s ⬝ᵥ v := by
  rw [run_succ A b x₀ i, next_s h, sub_dotProduct, smul_dotProduct, dotProduct_comm (Aᵀ *ᵥ _),
    image_dot, smul_eq_mul, sub_sub_cancel]

/-- The next image is orthogonal to all before it. -/
theorem image_dot_succ {k i : ℕ} (hi : i ≤ k) (hγ : ∀ j, j ≤ k → (run A b x₀ j).gamma ≠ 0)
    (h : Orthogonal A b x₀ k) :
    (run A b x₀ i).image A ⬝ᵥ (run A b x₀ (k + 1)).image A = 0 := by
  have hsound : (run A b x₀ i).Sound A b x₀ := sound_run fun j hj => hγ j (by omega)
  have hq : (run A b x₀ i).curvature A ≠ 0 := curvature_run_ne_zero fun j hj => hγ j (by omega)
  have hchange := alpha_mul_image_dot hsound (run A b x₀ (k + 1)).s
  rw [s_dot_succ hi hγ h, zero_sub] at hchange
  have hdirection : (run A b x₀ i).image A ⬝ᵥ (run A b x₀ (k + 1)).image A =
      (run A b x₀ i).image A ⬝ᵥ A *ᵥ (run A b x₀ (k + 1)).s +
        (run A b x₀ (k + 1)).gamma / (run A b x₀ k).gamma *
          ((run A b x₀ i).image A ⬝ᵥ (run A b x₀ k).image A) := by
    rw [run_succ A b x₀ k, image.eq_def A ((run A b x₀ k).next A), next_p, mulVec_add, mulVec_smul,
      dotProduct_add, dotProduct_smul, smul_eq_mul]
    rfl
  have hα : (run A b x₀ i).alpha A ≠ 0 := div_ne_zero (hγ i hi) hq
  rw [hdirection]
  refine mul_left_cancel₀ hα ?_
  rw [mul_add, hchange, mul_zero]
  by_cases hik : i = k
  · subst hik
    have hcurve : (run A b x₀ i).image A ⬝ᵥ (run A b x₀ i).image A =
        (run A b x₀ i).curvature A := rfl
    have hgamma : (run A b x₀ (i + 1)).s ⬝ᵥ (run A b x₀ (i + 1)).s =
        (run A b x₀ (i + 1)).gamma := rfl
    rw [hcurve, hgamma, mul_left_comm, alpha_mul_curvature hq, div_mul_cancel₀ _ (hγ i hi),
      neg_add_cancel]
  · rw [(h i (by omega)).2, s_dot_succ (by omega) hγ h, mul_zero, mul_zero, neg_zero, add_zero]

theorem orthogonal_succ {k : ℕ} (hγ : ∀ i, i ≤ k → (run A b x₀ i).gamma ≠ 0)
    (h : Orthogonal A b x₀ k) : Orthogonal A b x₀ (k + 1) := fun _ hi =>
  ⟨s_dot_succ (Nat.lt_succ_iff.1 hi) hγ h, image_dot_succ (Nat.lt_succ_iff.1 hi) hγ h⟩

theorem orthogonal_run {k : ℕ} (hγ : ∀ i, i < k → (run A b x₀ i).gamma ≠ 0) :
    ∀ j, j ≤ k → Orthogonal A b x₀ j := by
  induction k with
  | zero =>
    intro j hj i hi
    omega
  | succ k ih =>
    have hprev := ih fun i hi => hγ i (by omega)
    intro j hj
    rcases Nat.lt_or_ge j (k + 1) with hlt | hge
    · exact hprev j (by omega)
    · obtain rfl : j = k + 1 := by omega
      exact orthogonal_succ (fun i hi => hγ i (by omega)) (hprev k le_rfl)

/-- There are at most as many steps as the rank: the images of the directions are orthogonal to
each other, and none of them vanishes. -/
theorem steps_le_rank {k : ℕ} (hγ : ∀ i, i < k → (run A b x₀ i).gamma ≠ 0) : k ≤ A.rank := by
  let q : Fin k → LinearMap.range A.mulVecLin := fun i => ⟨(run A b x₀ i).image A, _, rfl⟩
  have horth : (dotProductBilin K K : (κ → K) →ₗ[K] (κ → K) →ₗ[K] K).IsOrthoᵢ
      fun i : Fin k => (run A b x₀ i).image A := by
    intro i j hij
    show (run A b x₀ i).image A ⬝ᵥ (run A b x₀ j).image A = 0
    rcases Nat.lt_or_gt_of_ne (fun h => hij (Fin.ext h) : (i : ℕ) ≠ j) with h | h
    · exact (orthogonal_run hγ j j.2.le i h).2
    · rw [dotProduct_comm]
      exact (orthogonal_run hγ i i.2.le j h).2
  have hne : ∀ i : Fin k, (dotProductBilin K K : (κ → K) →ₗ[K] (κ → K) →ₗ[K] K)
      ((run A b x₀ i).image A) ((run A b x₀ i).image A) ≠ 0 := by
    intro i
    exact curvature_run_ne_zero fun j hj => hγ j (by omega)
  have hindep := LinearMap.linearIndependent_of_isOrthoᵢ horth hne
  have hq : LinearIndependent K q := LinearIndependent.of_comp (LinearMap.range _).subtype hindep
  have hcard := hq.fintype_card_le_finrank
  rw [Fintype.card_fin] at hcard
  exact hcard

end Iterate

/-! ## Solutions -/

/-- What is orthogonal to the range of `A` does not change under a shift along it. -/
theorem residual_squaredNorm {x z : ι → K} (hx : Aᵀ *ᵥ (b - A *ᵥ x) = 0) :
    (b - A *ᵥ z) ⬝ᵥ (b - A *ᵥ z) =
      (b - A *ᵥ x) ⬝ᵥ (b - A *ᵥ x) + A *ᵥ (x - z) ⬝ᵥ A *ᵥ (x - z) := by
  have hcross : (b - A *ᵥ x) ⬝ᵥ A *ᵥ (x - z) = 0 := by
    rw [← dotProduct_transpose_mulVec, hx, dotProduct_zero]
  have hz : b - A *ᵥ z = (b - A *ᵥ x) + A *ᵥ (x - z) := by
    rw [mulVec_sub]
    abel
  rw [hz, add_dotProduct, dotProduct_add, dotProduct_add, hcross,
    dotProduct_comm (A *ᵥ _) (b - _), hcross, add_zero, zero_add]

variable [LinearOrder K] [IsStrictOrderedRing K]

/-- A solution of the normal equations has the least residual. -/
theorem residual_le_of_normal {x : ι → K} (hx : Aᵀ *ᵥ (b - A *ᵥ x) = 0) (z : ι → K) :
    (b - A *ᵥ x) ⬝ᵥ (b - A *ᵥ x) ≤ (b - A *ᵥ z) ⬝ᵥ (b - A *ᵥ z) := by
  have hnonneg := Iterate.dot_self_nonneg (A *ᵥ (x - z))
  rw [residual_squaredNorm (z := z) hx]
  linarith

/-- A solution whose correction lies in the range of `Aᵀ` is closer to the start than any other. -/
theorem dist_lt_of_normal {x y : ι → K} {w : κ → K} (hx : Aᵀ *ᵥ (b - A *ᵥ x) = 0)
    (hw : x - x₀ = Aᵀ *ᵥ w) (hy : Aᵀ *ᵥ (b - A *ᵥ y) = 0) (hne : y ≠ x) :
    (x - x₀) ⬝ᵥ (x - x₀) < (y - x₀) ⬝ᵥ (y - x₀) := by
  have himage : A *ᵥ (y - x) = 0 := by
    have h := residual_squaredNorm (z := x) hy
    have h' := residual_squaredNorm (z := y) hx
    rw [h', ← neg_sub y x, mulVec_neg, neg_dotProduct, dotProduct_neg, neg_neg] at h
    have hnonneg := Iterate.dot_self_nonneg (A *ᵥ (y - x))
    exact dotProduct_self_eq_zero.1 (by linarith)
  have hcross : (y - x) ⬝ᵥ (x - x₀) = 0 := by
    rw [hw, dotProduct_transpose_mulVec, himage, dotProduct_zero]
  have hpos : 0 < (y - x) ⬝ᵥ (y - x) := by
    refine lt_of_le_of_ne (Iterate.dot_self_nonneg _) fun h => hne ?_
    exact sub_eq_zero.1 (dotProduct_self_eq_zero.1 h.symm)
  have hsum : y - x₀ = (y - x) + (x - x₀) := by abel
  rw [hsum, add_dotProduct, dotProduct_add, dotProduct_add, hcross,
    dotProduct_comm (x - x₀) (y - x), hcross, add_zero, zero_add]
  exact lt_add_of_pos_left _ hpos

end LeastSquares.Conjugate
