import LeastSquares.Proofs.Graph.Adjoint
import LeastSquares.Proofs.Solver.Cgls

/-!
# Descent of conjugate gradients

Whatever precision and budget, the solver keeps its recurrences true at every head of its loop, each
step that it counts lowers the error of the graph by `γ² / (2 ‖A p‖²)`, and it ends within its
budget at a point that is no worse than the start.
-/

namespace LeastSquares.Cgls

open Matrix Conjugate

variable {C α : Type} [DecidableEq C] [FactorFamily C] [LinearOrder α] [ExactScalar α]
  {g : LinearGraph C α} {x x₀ : Vectors C α} {state : State C α} {config : Config α}

/-- What the solver carries is what its names say: `r = b - A x`, where `-b` is the residual at
zero, `s = Aᵀ r`, `γ = ‖s‖²`, and `⟨p, s⟩ = γ`. -/
structure Consistent (g : LinearGraph C α) (state : State C α) (x : Vectors C α) : Prop where
  residual : ∃ e ax, g.residuals (Vectors.empty : Vectors C α).bulk = .ok e ∧
    g.forward x.bulk = .ok ax ∧ ∀ u, state.residual.coordinate u = -e.coordinate u - ax.coordinate u
  normal : ∃ s, g.adjoint state.residual.buffers = .ok s ∧
    ∀ u, state.normal.coordinate u = s.coordinate u
  gamma : state.normal.squaredNorm = .ok state.gamma
  slope : state.direction.dot state.normal = .ok state.gamma

omit [FactorFamily C] [LinearOrder α] [ExactScalar α] in
theorem fits_empty (L : Layout C) : (Vectors.empty : Vectors C α).Fits L := fun _ _ => .inl rfl

omit [FactorFamily C] in
theorem onCells_empty (L : Layout C) : (Vectors.empty : Vectors C α).onCells L = 0 := rfl

theorem Along.consistent (hg : g.WellFormed) (h : Along g x₀ state x) : Consistent g state x where
  residual := by
    obtain ⟨e, he, herep⟩ := hg.residuals_represents (fits_empty g.unknowns)
    obtain ⟨ax, hax, haxrep⟩ := hg.forward_represents h.represents.fits
    refine ⟨e, ax, he, hax, fun u => ?_⟩
    have hresidual := h.represents.residual
    by_cases hu : u ∈ g.equations.cells
    · rw [hresidual.coordinate ⟨u, hu⟩, herep.coordinate ⟨u, hu⟩, haxrep.coordinate ⟨u, hu⟩,
        h.sound.residual, h.represents.point, onCells_empty, mulVec_zero]
      simp
    · rw [hresidual.within.coordinate_eq_zero hu, herep.within.coordinate_eq_zero hu,
        haxrep.within.coordinate_eq_zero hu, neg_zero, sub_zero]
  normal := by
    obtain ⟨s, hs, hsrep⟩ := hg.adjoint_represents h.represents.residual
    rw [← h.sound.normal] at hsrep
    exact ⟨s, hs, h.represents.normal.coordinate_eq hsrep⟩
  gamma := by
    rw [h.represents.normal.squaredNorm, h.represents.gamma]
    rfl
  slope := by
    rw [h.represents.direction.dot h.represents.normal, h.sound.slope, h.represents.gamma]

/-- The error of the graph at an iterate. -/
theorem Along.error (hg : g.WellFormed) (h : Along g x₀ state x) :
    g.error x.bulk =
      .ok (1 / 2 * ((iterate g x₀ state.step).r ⬝ᵥ (iterate g x₀ state.step).r)) := by
  rw [hg.error_eq h.represents.fits, h.represents.point, ← h.sound.residual]

omit [FactorFamily C] in
/-- A step from a point that is no solution comes nearer. -/
theorem iterate_error_succ_lt {k : Nat} (h : ∀ i, i < k + 1 → (iterate g x₀ i).gamma ≠ 0) :
    (iterate g x₀ (k + 1)).r ⬝ᵥ (iterate g x₀ (k + 1)).r <
      (iterate g x₀ k).r ⬝ᵥ (iterate g x₀ k).r := by
  have hsound : (iterate g x₀ k).Sound g.matrix g.rhs (x₀.onCells g.unknowns) :=
    Iterate.sound_run fun i hi => h i (by omega)
  have hγ := h k (by omega)
  have hq := fun hq => hγ (hsound.curvature_eq_zero_iff.1 hq)
  have hpos : 0 < (iterate g x₀ k).curvature g.matrix :=
    lt_of_le_of_ne (Iterate.curvature_nonneg ..) (Ne.symm hq)
  have hstep : iterate g x₀ (k + 1) = (iterate g x₀ k).next g.matrix := Iterate.run_succ ..
  rw [hstep, hsound.next_squaredNorm hq]
  exact sub_lt_self _ (by positivity)

omit [FactorFamily C] in
theorem iterate_error_le {k : Nat} (h : ∀ i, i < k → (iterate g x₀ i).gamma ≠ 0) :
    (iterate g x₀ k).r ⬝ᵥ (iterate g x₀ k).r ≤ (iterate g x₀ 0).r ⬝ᵥ (iterate g x₀ 0).r := by
  induction k with
  | zero => exact le_rfl
  | succ k ih => exact (iterate_error_succ_lt h).le.trans (ih fun i hi => h i (by omega))

omit [FactorFamily C] in
/-- After one step or more the error is less than at the start. -/
theorem iterate_error_lt {k : Nat} (hk : 0 < k) (h : ∀ i, i < k → (iterate g x₀ i).gamma ≠ 0) :
    (iterate g x₀ k).r ⬝ᵥ (iterate g x₀ k).r < (iterate g x₀ 0).r ⬝ᵥ (iterate g x₀ 0).r := by
  obtain ⟨k, rfl⟩ := Nat.exists_eq_succ_of_ne_zero hk.ne'
  exact (iterate_error_succ_lt h).trans_le (iterate_error_le fun i hi => h i (by omega))

/-- A step that counts lowers the error by `γ² / (2 ‖A p‖²)`, which is positive. -/
theorem Along.error_next (hg : g.WellFormed) (h : Along g x₀ state x) {next : State C α}
    {x' : Vectors C α} (hnext : Along g x₀ next x') (hstep : next.step = state.step + 1)
    (hγ : state.gamma ≠ 0) :
    ∃ E, g.error x.bulk = .ok E ∧
      g.error x'.bulk = .ok (E - state.gamma ^ 2 /
        (2 * (iterate g x₀ state.step).curvature g.matrix)) ∧
      0 < state.gamma ^ 2 / (2 * (iterate g x₀ state.step).curvature g.matrix) := by
  rw [h.represents.gamma] at hγ ⊢
  have hq := fun hq => hγ (h.sound.curvature_eq_zero_iff.1 hq)
  have hfall := h.sound.next_squaredNorm hq
  have hiterate : iterate g x₀ next.step = (iterate g x₀ state.step).next g.matrix := by
    rw [hstep]
    exact Iterate.run_succ ..
  have hpos : 0 < (iterate g x₀ state.step).curvature g.matrix :=
    lt_of_le_of_ne (Iterate.curvature_nonneg ..) (Ne.symm hq)
  refine ⟨_, h.error hg, ?_, by positivity⟩
  rw [hnext.error hg, hiterate, hfall]
  refine congrArg Except.ok ?_
  ring

/-- At every head of the loop the recurrences hold. The step from there is uncounted, for one of two
reasons, and leaves everything as it is, or it is counted, divides by numbers that are not zero, and
lowers the error; where the image of the direction vanishes, `γ` does. The solver ends within its
budget, with no greater error. -/
theorem solve_descends (hg : g.WellFormed) (hx : x₀.Fits g.unknowns) (config : Config α) :
    (∀ state x, Head config g x₀ state x → Consistent g state x ∧
      ∃ q norm, g.forward state.direction.bulk = .ok q ∧ q.squaredNorm = .ok norm ∧
        (norm = 0 → state.gamma = 0) ∧
        (0 ≤ config.precision → config.precision < state.gamma → norm ≠ 0) ∧
        ((step config g false state x = .ok (.stopped state.step state.gamma) x ∧
            (¬ config.precision < state.gamma ∨ norm = 0)) ∨
          ∃ next x' E, next.step = state.step + 1 ∧ norm ≠ 0 ∧ state.gamma ≠ 0 ∧
            (step config g false state x = .ok (.continued next) x' ∨
              step config g false state x = .ok (.stopped next.step next.gamma) x') ∧
            g.error x.bulk = .ok E ∧
            g.error x'.bulk = .ok (E - state.gamma ^ 2 / (2 * norm)) ∧
            0 < state.gamma ^ 2 / (2 * norm))) ∧
    ∃ last x E₀ E, solve config g false x₀ = .ok (last.step, last.gamma) x ∧
      Ends config g x₀ config.maxIterations.toNat last x ∧
      (last.step : Int) ≤ max 0 config.maxIterations ∧
      g.error x₀.bulk = .ok E₀ ∧ g.error x.bulk = .ok E ∧ E ≤ E₀ := by
  refine ⟨fun state x hhead => ?_, ?_⟩
  · have h := hhead.along hg hx
    obtain ⟨q, hq, hqrep⟩ := hg.forward_represents h.represents.direction.within.fits
    rw [h.represents.direction.onCells_eq] at hqrep
    have hcurve := h.sound.curvature_eq_zero_iff
    rw [← h.represents.gamma] at hcurve
    refine ⟨h.consistent hg, q, (iterate g x₀ state.step).curvature g.matrix, hq,
      hqrep.squaredNorm, hcurve.1, fun hprecision hγ hzero => ?_, ?_⟩
    · exact absurd (hcurve.1 hzero) (lt_of_le_of_lt hprecision hγ).ne'
    rcases h.step hg config with ⟨hstop, hrun⟩ | ⟨-, hγ, next, x', hnext, hstep, hrun⟩
    · exact .inl ⟨hrun, hstop.imp_right hcurve.2⟩
    · obtain ⟨E, hE, hE', hpos⟩ := h.error_next hg hnext hstep hγ
      refine .inr ⟨next, x', E, hstep, fun hzero => hγ (hcurve.1 hzero), hγ, ?_, hE, hE', hpos⟩
      by_cases hlt : stride g (iterate g x₀ state.step) < config.precision
      · exact .inr (by rw [hrun, if_pos hlt])
      · exact .inl (by rw [hrun, if_neg hlt])
  · obtain ⟨last, x, hlast, hle, hsolve, hends⟩ := solve_along hg hx config
    obtain ⟨state, -, hzero, hstart⟩ := along_start hg hx
    have hE₀ := hstart.error hg
    rw [hzero] at hE₀
    refine ⟨last, x, _, _, hsolve, hends, by omega, hE₀, hlast.error hg, ?_⟩
    have := iterate_error_le hlast.moving
    linarith

open LinearGraph in
/-- Three steps at most, with a precision that no squared norm reaches. -/
theorem sharing_descends : ∃ last x E₀ E,
    solve ⟨-1, 3⟩ sharing false sharedPoint = .ok (last.step, last.gamma) x ∧
      Ends ⟨-1, 3⟩ sharing sharedPoint 3 last x ∧ (last.step : Int) ≤ max 0 3 ∧
      sharing.error sharedPoint.bulk = .ok E₀ ∧ sharing.error x.bulk = .ok E ∧ E ≤ E₀ :=
  (solve_descends sharing_wellFormed sharedPoint_fits ⟨-1, 3⟩).2

end LeastSquares.Cgls
