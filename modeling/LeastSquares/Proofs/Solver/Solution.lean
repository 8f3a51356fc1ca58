import LeastSquares.Proofs.Graph.Adjoint
import LeastSquares.Proofs.Solver.Cgls

/-!
# The least-squares solution

With precision zero and a budget for as many steps as there are unknowns, the solver makes at most
as many steps as the rank of the graph's matrix and ends at the least-squares solution that is
closest to its start. The matrix may have any rank.
-/

namespace LeastSquares.Cgls

open Matrix Conjugate

variable {C α : Type} [DecidableEq C] [FactorFamily C] [LinearOrder α] [ExactScalar α]
  {g : LinearGraph C α} {x x₀ : Vectors C α} {state : State C α} {config : Config α}

omit [FactorFamily C] in
theorem stride_nonneg (g : LinearGraph C α) (σ : Point g) : 0 ≤ stride g σ :=
  Iterate.dot_self_nonneg _

omit [FactorFamily C] in
theorem Along.step_le_rank (h : Along g x₀ state x) : state.step ≤ g.matrix.rank :=
  Iterate.steps_le_rank h.moving

omit [FactorFamily C] in
/-- As many steps as there are unknowns lead to a solution: one step more would exceed the rank. -/
theorem Along.gamma_eq_zero (h : Along g x₀ state x) (hstep : g.unknowns.cells.card ≤ state.step) :
    state.gamma = 0 := by
  by_contra hγ
  rw [h.represents.gamma] at hγ
  have hmoving : ∀ i, i < state.step + 1 → (iterate g x₀ i).gamma ≠ 0 := by
    intro i hi
    rcases Nat.lt_or_ge i state.step with hlt | hge
    · exact h.moving i hlt
    · obtain rfl : i = state.step := by omega
      exact hγ
  have hrank : state.step + 1 ≤ g.matrix.rank := Iterate.steps_le_rank hmoving
  have hwidth := g.matrix.rank_le_card_width
  rw [Fintype.card_coe] at hwidth
  omega

/-- With precision zero, the loop does not end before it has used up its budget, unless it has
come to a solution. -/
theorem Ends.gamma_eq_zero (hg : g.WellFormed) (hx : x₀.Fits g.unknowns) {bound : Nat}
    {last : State C α} (hprecision : config.precision = 0)
    (hbound : g.unknowns.cells.card ≤ bound) (h : Ends config g x₀ bound last x) :
    last.gamma = 0 := by
  rcases h with ⟨hhead, hstep⟩ | ⟨state, x', hhead, hstop⟩
  · exact (hhead.along hg hx).gamma_eq_zero (by omega)
  · have h := hhead.along hg hx
    rcases h.step hg config with ⟨hstop', hrun⟩ | ⟨-, -, next, x'', -, -, hrun⟩
    · rw [hrun] at hstop
      injection hstop with hstop
      injection hstop with _ hγ
      rw [← hγ]
      rcases hstop' with hreached | hzero
      · rw [hprecision, not_lt] at hreached
        have hnonneg : 0 ≤ state.gamma := by
          rw [h.represents.gamma]
          exact Iterate.gamma_nonneg _
        exact le_antisymm hreached hnonneg
      · exact hzero
    · rw [if_neg (by rw [hprecision]; exact not_lt.2 (stride_nonneg g _))] at hrun
      cases hrun.symm.trans hstop

/-- The solver ends at the least-squares solution closest to its start, after at most as many steps
as the rank. The first two parts tell the matrix and the constants from the operators of the
graph. -/
theorem solve_exact (hg : g.WellFormed) (hx : x₀.Fits g.unknowns) (config : Config α)
    (hprecision : config.precision = 0)
    (hbudget : (g.unknowns.cells.card : Int) ≤ config.maxIterations) :
    (∀ v : Vectors C α, v.Fits g.unknowns → ∃ av, g.forward v.bulk = .ok av ∧
      av.onCells g.equations = g.matrix *ᵥ v.onCells g.unknowns) ∧
    (∃ e, g.residuals (Vectors.empty : Vectors C α).bulk = .ok e ∧
      e.onCells g.equations = -g.rhs) ∧
    ∃ steps x, solve config g false x₀ = .ok (steps, 0) x ∧ steps ≤ g.matrix.rank ∧
      x.Fits g.unknowns ∧
      (∃ e s, g.residuals x.bulk = .ok e ∧ g.adjoint e.buffers = .ok s ∧
        ∀ u, s.coordinate u = 0) ∧
      g.matrixᵀ *ᵥ (g.rhs - g.matrix *ᵥ x.onCells g.unknowns) = 0 ∧
      (∃ y, x.onCells g.unknowns - x₀.onCells g.unknowns = g.matrixᵀ *ᵥ y) ∧
      (∀ z, (g.rhs - g.matrix *ᵥ x.onCells g.unknowns) ⬝ᵥ
          (g.rhs - g.matrix *ᵥ x.onCells g.unknowns) ≤
        (g.rhs - g.matrix *ᵥ z) ⬝ᵥ (g.rhs - g.matrix *ᵥ z)) ∧
      ∀ z, g.matrixᵀ *ᵥ (g.rhs - g.matrix *ᵥ z) = 0 → z ≠ x.onCells g.unknowns →
        (x.onCells g.unknowns - x₀.onCells g.unknowns) ⬝ᵥ
            (x.onCells g.unknowns - x₀.onCells g.unknowns) <
          (z - x₀.onCells g.unknowns) ⬝ᵥ (z - x₀.onCells g.unknowns) := by
  refine ⟨fun v hv => ?_, ?_, ?_⟩
  · obtain ⟨av, hav, havrep⟩ := hg.forward_represents hv
    exact ⟨av, hav, havrep.onCells_eq⟩
  · obtain ⟨e, he, herep⟩ :=
      hg.residuals_represents (fun _ _ => .inl rfl : (Vectors.empty : Vectors C α).Fits g.unknowns)
    refine ⟨e, he, ?_⟩
    rw [herep.onCells_eq, show (Vectors.empty : Vectors C α).onCells g.unknowns = 0 from rfl,
      mulVec_zero, zero_sub]
  · obtain ⟨last, x, h, -, hsolve, hends⟩ := solve_along hg hx config
    have hγ : last.gamma = 0 := hends.gamma_eq_zero hg hx hprecision (by omega)
    have hnormal : g.matrixᵀ *ᵥ (g.rhs - g.matrix *ᵥ x.onCells g.unknowns) = 0 := by
      rw [h.represents.point, ← h.sound.residual, ← h.sound.normal]
      exact Iterate.s_eq_zero_iff.1 (h.represents.gamma.symm.trans hγ)
    obtain ⟨y, hy⟩ := h.sound.correction
    rw [← h.represents.point] at hy
    refine ⟨last.step, x, by rw [hsolve, hγ], h.step_le_rank, h.represents.fits, ?_, hnormal,
      ⟨y, hy⟩, residual_le_of_normal hnormal, fun z hz hne => dist_lt_of_normal hnormal hy hz hne⟩
    obtain ⟨e, he, herep⟩ := hg.residuals_represents h.represents.fits
    obtain ⟨s, hs, hsrep⟩ := hg.adjoint_represents herep
    rw [← neg_sub g.rhs, mulVec_neg, hnormal, neg_zero] at hsrep
    refine ⟨e, s, he, hs, fun u => ?_⟩
    by_cases hu : u ∈ g.unknowns.cells
    · exact hsrep.coordinate ⟨u, hu⟩
    · exact hsrep.within.coordinate_eq_zero hu

open LinearGraph in
theorem sharing_card_cells : sharing.unknowns.cells.card = 2 := by
  have hkeys : sharing.unknowns.keys = {Key.type (.real 1)} := rfl
  have hsize : sharing.unknowns.size (.type (.real 1)) = 2 := rfl
  unfold Layout.cells
  rw [hkeys, Finset.singleton_biUnion, Finset.card_map, Finset.card_range, hsize]

open LinearGraph in
/-- Two unknowns in three equations. -/
theorem sharing_solved : ∃ steps x, solve ⟨0, 2⟩ sharing false sharedPoint = .ok (steps, 0) x ∧
    steps ≤ sharing.matrix.rank ∧
    sharing.matrixᵀ *ᵥ (sharing.rhs - sharing.matrix *ᵥ x.onCells sharing.unknowns) = 0 := by
  obtain ⟨-, -, steps, x, hsolve, hsteps, -, -, hnormal, -⟩ :=
    solve_exact sharing_wellFormed sharedPoint_fits ⟨0, 2⟩ rfl (by rw [sharing_card_cells]; rfl)
  exact ⟨steps, x, hsolve, hsteps, hnormal⟩

end LeastSquares.Cgls
