import LeastSquares.Proofs.Graph.Affine
import LeastSquares.Proofs.Solver.DampedStep
import LeastSquares.Proofs.Solver.Descent

/-!
# The fidelity of a trial

On a graph of affine factors the linearisation tells the truth about the error at every point. The
damping adds `λ / 2 ‖x‖²` to the error of the damped problem, which the graph itself does not charge
for. So a step lowers the error by more than was predicted, and it is judged by its decrease alone.
-/

namespace LeastSquares

open Matrix

namespace LinearGraph

variable {C α : Type} [DecidableEq C] [FactorFamily C] [LinearOrder α] [ExactScalar α]
  {g : LinearGraph C α} {buffers : Buffers C α} {s : α} {x : Vectors C α}

/-- The damping charges for the length of a vector. -/
theorem Dampable.error_withBuffers (hg : g.Dampable)
    (hentries : buffers.entries = g.buffers.entries ++ g.template.buffers.keys.map
      (dampingEntry g.unknowns s)) (hx : x.Fits g.unknowns) :
    ∃ E, g.error x.bulk = .ok E ∧ (g.withBuffers buffers).error x.bulk =
      .ok (E + s ^ 2 / 2 * (x.onCells g.unknowns ⬝ᵥ x.onCells g.unknowns)) := by
  refine ⟨_, hg.wellFormed.error_eq hx, ?_⟩
  rw [(hg.wellFormed_withBuffers hentries).error_eq hx]
  refine congrArg Except.ok ?_
  refine (congrArg (1 / 2 * ·)
    (hg.residual_dot_withBuffers hentries (x.onCells g.unknowns))).trans ?_
  ring

end LinearGraph

namespace LevenbergMarquardt

variable {C α : Type} [DecidableEq C] [FactorFamily C] [LinearOrder α] [ExactScalar α]
  {config : Config α} {graph : FactorGraph C α} {linear : LinearGraph C α}
  {r₀ r : Run (Store C α) α} {state : State α} {steps : List (Vectors C α)}
  {trialsLeft left : Nat}

/-! ## Prediction and decrease -/

/-- A prediction that is kept, or better, has fidelity one at least. -/
theorem one_le_fidelity {achieved predicted : α} (hpos : 0 < predicted)
    (h : predicted ≤ achieved) : 1 ≤ fidelity achieved predicted := by
  have hlt : Scalar.lt Scalar.zero predicted = true := by simpa using hpos
  rw [fidelity, if_pos hlt]
  exact (one_le_div hpos).2 h

/-- A factor that is not zero relaxes the damping. -/
theorem exists_relaxed (hfactor : config.lambdaFactor ≠ 0) (lambda : α) :
    ∃ next, relaxed config lambda = .ok next := by
  have heq : ¬ Scalar.eq config.lambdaFactor Scalar.zero = true := by simpa using hfactor
  rw [relaxed, if_neg heq]
  exact ⟨_, rfl⟩

/-- A truncated solve from zero predicts a decrease, or has made no step at all. -/
theorem predicted_pos {problem : LinearGraph C α} (hg : problem.WellFormed)
    {last : Cgls.State C α} {step : Vectors C α}
    (h : Cgls.Along problem problem.template last step) {before after : α}
    (hbefore : problem.error problem.template.bulk = .ok before)
    (hafter : problem.error step.bulk = .ok after) :
    0 < before - after ∨ before = after ∧ step.onCells problem.unknowns = 0 := by
  obtain ⟨_, -, hzero, hstart⟩ := Cgls.along_start hg hg.template_fills.within.fits
  have hfirst := Cgls.Along.error hg hstart
  rw [hzero] at hfirst
  obtain rfl := Except.ok.inj (hfirst.symm.trans hbefore)
  obtain rfl := Except.ok.inj ((Cgls.Along.error hg h).symm.trans hafter)
  rcases Nat.eq_zero_or_pos last.step with hnone | hsome
  · have hpoint := h.represents.point
    rw [hnone] at hpoint ⊢
    exact .inr ⟨rfl, hpoint.trans (onCells_template hg)⟩
  · have := Cgls.iterate_error_lt hsome h.moving
    exact .inl (by linarith)

/-- What a trial comes to on a graph of affine factors: its step, what the damped problem predicted of
it, and the error where it leads. -/
theorem Regular.affine_attempt (hr : Regular config graph r₀) (haffine : graph.Affine)
    (h : Between config graph r₀ (.trying linear (trialsLeft + 1) left) state steps r)
    (hroot : ExactRoot state.lambda) :
    ∃ step before after p error norm,
      Attempt config graph linear state r step before after p error ∧
      step.squaredNorm = .ok norm ∧ 0 ≤ norm ∧
      state.error - error = (before - after) + state.lambda / 2 * norm ∧
      (0 < before - after ∨ before = after ∧ norm = 0) := by
  have hsettled := hr.settled h
  obtain ⟨hdampable, htangent⟩ := hsettled.dampable hr
  have hproper : graph.Proper r.point.layout := by
    rw [hsettled.layout]
    exact hr.proper
  have hlinearize := hsettled.linearized _ _ _ rfl
  obtain ⟨buffers, last, step, before, after, -, hentries, halong, -, -, hbefore, hafter, hrun⟩ :=
    dampedStep_spec hdampable config (hr.lambda_nonneg h)
  have hwell := hdampable.wellFormed_withBuffers hentries
  have hzeros := hdampable.wellFormed.template_fills.within
  have hwithin : step.Within linear.unknowns := halong.within hzeros
  -- the errors at zero and at the step, undamped and damped
  obtain ⟨E₀, hE₀, hdamped₀⟩ := hdampable.error_withBuffers hentries hzeros.fits
  obtain ⟨E, hE, hdamped⟩ := hdampable.error_withBuffers hentries hwithin.fits
  rw [hroot, onCells_template hdampable.wellFormed, dotProduct_zero, mul_zero, add_zero] at hdamped₀
  rw [hroot] at hdamped
  obtain rfl := Except.ok.inj (hdamped₀.symm.trans hbefore)
  obtain rfl := Except.ok.inj (hdamped.symm.trans hafter)
  have hnorm : step.squaredNorm =
      .ok (step.onCells linear.unknowns ⬝ᵥ step.onCells linear.unknowns) :=
    (Vectors.Represents.squaredNorm ⟨hwithin, rfl⟩)
  -- the store moved along zero and along the step
  have hstart : graph.error r.point.bulk = .ok E₀ :=
    (haffine.error_eq hsettled.wellFormed hproper hlinearize
      (hsettled.wellFormed.moves_zero fun u hu =>
        hdampable.wellFormed.template_zero (htangent.mem_cells hu)) hzeros.fits).trans hE₀
  obtain ⟨p, hp⟩ := hsettled.wellFormed.exists_moved (htangent.within hwithin)
  have hend : graph.error p.bulk = .ok E :=
    (haffine.error_eq hsettled.wellFormed hproper hlinearize
      (hsettled.wellFormed.moves (htangent.fits hwithin.fits) hp) hwithin.fits).trans hE
  obtain rfl := Except.ok.inj (h.kept.error.symm.trans hstart)
  obtain ⟨r', hr'⟩ := hrun r
  refine ⟨step, _, _, p, E, _, ⟨⟨r', hr'⟩, hp, hend⟩, hnorm, ?_, by ring, ?_⟩
  · exact Finset.sum_nonneg fun u _ => mul_self_nonneg _
  · refine (predicted_pos hwell halong hbefore hafter).imp_right fun ⟨hsame, hzero⟩ => ⟨hsame, ?_⟩
    have hzero : step.onCells linear.unknowns = 0 := hzero
    rw [hzero, dotProduct_zero]

theorem opposed_affine : opposed.Affine := by
  refine opposed_proper.affine fun key b f hb hf => ?_
  obtain ⟨rfl, rfl⟩ : key = _ ∧ b = _ := by
    have hmem : (key, b) ∈ [(_, _)] := Table.get?_eq_some_iff.1 hb
    simpa using hmem
  cases hf
  rfl

end LevenbergMarquardt

end LeastSquares
