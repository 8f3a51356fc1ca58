import LeastSquares.Proofs.Graph.Adjoint
import LeastSquares.Proofs.Solver.Cgls

/-!
# When the solver stops

After a step the solver measures the next direction at the size of the step it has made. The next
direction is `s + β p`, and the step was `α p`, so what it measures is `α² ‖s‖² + β² ‖α p‖²`, where
`‖α p‖²` is the squared length of the step. Where `α` and `β` are small, that can be below the
precision long before the step or the slope is.
-/

namespace LeastSquares.Cgls

open Matrix Conjugate

variable {C α : Type} [DecidableEq C] [FactorFamily C] [LinearOrder α] [ExactScalar α]
  {g : LinearGraph C α} {x x' x₀ d q : Vectors C α} {state : State C α} {config : Config α}
  {steps : Nat} {gamma norm : α}

theorem image?_eq_some (h : image? config g state = .ok (some (q, norm))) :
    config.precision < state.gamma ∧ g.forward state.direction.bulk = .ok q ∧
      q.squaredNorm = .ok norm := by
  unfold image? at h
  split at h
  · cases h
  next hγ =>
    obtain ⟨q', hq, h⟩ := Checked.bind_eq_ok h
    obtain ⟨norm', hnorm, h⟩ := Checked.bind_eq_ok h
    split at h
    · cases h
    · cases h
      exact ⟨by simpa using hγ, hq, hnorm⟩

/-- A step from one point to another: `q` is the image of the direction, and `d` is what is added to
the point. -/
structure Strides (g : LinearGraph C α) (state : State C α) (x q : Vectors C α) (norm : α)
    (d x' : Vectors C α) : Prop where
  image : g.forward state.direction.bulk = .ok q
  image_norm : q.squaredNorm = .ok norm
  scaled : state.direction.scaled (state.gamma / norm) = .ok d
  increase : Vectors.increase d x = .ok () x'

/-- A step stops at once, or it adds to the point what it should. -/
theorem strides_of_step {shared : Bool} {progress : Progress C α}
    (h : step config g shared state x = .ok progress x') :
    progress = .stopped state.step state.gamma ∧ x' = x ∨
      ∃ q norm d, Strides g state x q norm d x' := by
  unfold step at h
  obtain ⟨found, hfound, h⟩ := Edit.lift_bind_eq_ok h
  cases found with
  | none =>
    cases h
    exact .inl ⟨rfl, rfl⟩
  | some found =>
    obtain ⟨-, hq, hnorm⟩ := image?_eq_some hfound
    obtain ⟨d, hd, h⟩ := Edit.lift_bind_eq_ok h
    obtain ⟨_, x₁, hincrease, h⟩ := Edit.bind_eq_ok h
    obtain ⟨_, -, h⟩ := Edit.lift_bind_eq_ok h
    obtain ⟨_, -, h⟩ := Edit.lift_bind_eq_ok h
    rw [Edit.get_bind] at h
    obtain ⟨_, -, h⟩ := Edit.lift_bind_eq_ok h
    obtain ⟨_, -, h⟩ := Edit.lift_bind_eq_ok h
    split at h
    · cases h
    · obtain ⟨_, -, h⟩ := Edit.lift_bind_eq_ok h
      obtain ⟨_, -, h⟩ := Edit.lift_bind_eq_ok h
      obtain ⟨_, -, h⟩ := Edit.lift_bind_eq_ok h
      obtain ⟨_, -, h⟩ := Edit.lift_bind_eq_ok h
      refine .inr ⟨_, _, d, hq, hnorm, hd, ?_⟩
      split at h <;> cases h <;> exact hincrease

/-- What the solver measures after a step. -/
theorem Along.stride_eq (hg : g.WellFormed) (h : Along g x₀ state x) (hγ : state.gamma ≠ 0)
    {next : State C α} (hnext : Along g x₀ next x') (hstep : next.step = state.step + 1)
    (hs : Strides g state x q norm d x') : ∃ rho, d.squaredNorm = .ok rho ∧ 0 ≤ rho ∧ 0 < norm ∧
      stride g (iterate g x₀ state.step) =
        (state.gamma / norm) ^ 2 * next.gamma + (next.gamma / state.gamma) ^ 2 * rho := by
  have hgamma : (iterate g x₀ state.step).gamma = state.gamma := h.represents.gamma.symm
  have hnext' : ((iterate g x₀ state.step).next g.matrix).gamma = next.gamma := by
    rw [hnext.represents.gamma, hstep, iterate, iterate, Iterate.run_succ]
  obtain ⟨q', hq', hqrep⟩ := hg.forward_represents h.represents.direction.within.fits
  cases hq'.symm.trans hs.image
  rw [h.represents.direction.onCells_eq] at hqrep
  have hnorm : norm = (iterate g x₀ state.step).curvature g.matrix :=
    Except.ok.inj (hs.image_norm.symm.trans hqrep.squaredNorm)
  have halpha : state.gamma / norm = (iterate g x₀ state.step).alpha g.matrix := by
    rw [hnorm, ← hgamma]
    rfl
  obtain ⟨d', hd', hdrep⟩ := h.represents.direction.scaled (state.gamma / norm)
  cases hd'.symm.trans hs.scaled
  have hq : (iterate g x₀ state.step).curvature g.matrix ≠ 0 := by
    rw [Ne, h.sound.curvature_eq_zero_iff, hgamma]
    exact hγ
  refine ⟨_, hdrep.squaredNorm, Iterate.dot_self_nonneg _,
    hnorm ▸ lt_of_le_of_ne (Iterate.curvature_nonneg _ _) (Ne.symm hq), ?_⟩
  rw [stride, h.sound.next_direction_squaredNorm hq, hnext', hgamma, halpha]

/-- If what is measured is below the precision and neither the slope nor the step is, then both
factors are below one. -/
theorem lt_one_of_measured_lt {a c slope rho precision : α}
    (hrho : 0 ≤ rho) (hslope : 0 ≤ slope)
    (h : a ^ 2 * slope + c ^ 2 * rho < precision) (hs : precision ≤ slope) (hr : precision ≤ rho) :
    a < 1 ∧ c < 1 := by
  constructor
  · by_contra hone
    have hsq : 1 ≤ a ^ 2 := one_le_pow₀ (not_lt.1 hone)
    nlinarith [mul_nonneg (sq_nonneg c) hrho]
  · by_contra hone
    have hsq : 1 ≤ c ^ 2 := one_le_pow₀ (not_lt.1 hone)
    nlinarith [mul_nonneg (sq_nonneg a) hslope]

/-- A last step that leaves the slope above the precision. -/
theorem Along.last_step (hg : g.WellFormed) (h : Along g x₀ state x) (hprecision : 0 ≤ config.precision)
    (hstop : Cgls.step config g false state x = .ok (.stopped steps gamma) x')
    (hgamma : config.precision < gamma) : state.step + 1 = steps ∧ ∃ q norm d rho,
      Strides g state x q norm d x' ∧ d.squaredNorm = .ok rho ∧
      (state.gamma / norm) ^ 2 * gamma + (gamma / state.gamma) ^ 2 * rho < config.precision ∧
      (config.precision ≤ rho → gamma < state.gamma ∧ state.gamma < norm) := by
  rcases h.step hg config with ⟨hreached, hrun⟩ | ⟨hγ, hne, next, x'', hnext, hstep, hrun⟩
  · rw [hrun] at hstop
    cases hstop
    exact absurd hgamma (hreached.elim id fun hzero => not_lt.2 (hzero.trans_le hprecision))
  · have hpos : 0 < state.gamma := hprecision.trans_lt hγ
    rw [hrun] at hstop
    split at hstop
    next hstride =>
      cases hstop
      refine ⟨hstep.symm, ?_⟩
      rcases strides_of_step hrun with ⟨hsame, -⟩ | ⟨q, norm, d, hs⟩
      · rw [if_pos hstride] at hsame
        injection hsame with hsame _
        omega
      · obtain ⟨rho, hrho, hrho0, hnorm, hmeasured⟩ := h.stride_eq hg hne hnext hstep hs
        rw [hmeasured] at hstride
        refine ⟨q, norm, d, rho, hs, hrho, hstride, fun hlong => ?_⟩
        have hslope : 0 ≤ next.gamma := hprecision.trans hgamma.le
        obtain ⟨ha, hc⟩ := lt_one_of_measured_lt hrho0 hslope hstride hgamma.le hlong
        exact ⟨(div_lt_one hpos).1 hc, (div_lt_one hnorm).1 ha⟩
    next => cases hstop

/-- The solver returns the squared norm of the slope at the point where it ends. If it has steps left
then, that is at or below the precision, or the last step was one from a head of its loop by `d`, and a
sum of fractions of the slope and of the step is below the precision. So the step itself is below the
precision too, unless the slope has become less steep and the step was shorter than the direction. -/
theorem solve_stops (hg : g.WellFormed) (hx : x₀.Fits g.unknowns) (config : Config α)
    (hprecision : 0 ≤ config.precision) : ∃ steps gamma x,
      solve config g false x₀ = .ok (steps, gamma) x ∧
      (∃ e s, g.residuals x.bulk = .ok e ∧ g.adjoint e.buffers = .ok s ∧
        s.squaredNorm = .ok gamma) ∧
      ((steps : Int) < config.maxIterations → gamma ≤ config.precision ∨
        ∃ state x', Head config g x₀ state x' ∧ state.step + 1 = steps ∧ ∃ q norm d rho,
          Strides g state x' q norm d x ∧ d.squaredNorm = .ok rho ∧
          (state.gamma / norm) ^ 2 * gamma + (gamma / state.gamma) ^ 2 * rho < config.precision ∧
          (config.precision ≤ rho → gamma < state.gamma ∧ state.gamma < norm)) := by
  obtain ⟨last, x, h, -, hsolve, hends⟩ := solve_along hg hx config
  refine ⟨last.step, last.gamma, x, hsolve, ?_, fun hbudget => ?_⟩
  · obtain ⟨e, he, herep⟩ := hg.residuals_represents h.represents.fits
    obtain ⟨s, hs, hsrep⟩ := hg.adjoint_represents herep
    have hslope : g.matrixᵀ *ᵥ (g.matrix *ᵥ x.onCells g.unknowns - g.rhs) =
        -(iterate g x₀ last.step).s := by
      rw [h.sound.normal, h.sound.residual, ← h.represents.point, ← mulVec_neg, neg_sub]
    rw [hslope] at hsrep
    refine ⟨e, s, he, hs, hsrep.squaredNorm.trans ?_⟩
    rw [neg_dotProduct, dotProduct_neg, neg_neg, h.represents.gamma]
    rfl
  · refine or_iff_not_imp_left.2 fun hgamma => ?_
    rcases hends with ⟨-, hstep⟩ | ⟨state, x', hhead, hstop⟩
    · omega
    · exact ⟨state, x', hhead, (hhead.along hg hx).last_step hg hprecision hstop (not_le.1 hgamma)⟩

/-! ## A step that is measured too short -/

/-- The key of a factor on a pair of numbers. -/
def planeKey : Key Catalogue :=
  .group ⟨.jacobian, [.real 2], [[.node .tuple 1, .leaf], [.leaf]], [[], [2, 2], [2]]⟩

/-- The equations `x = 2` and `2 y = 1`. -/
def tilted : LinearGraph Catalogue ℚ where
  buffers :=
    { entries := [(planeKey, .of (.factors
        { kind := .jacobian
          handles := [⟨.real 2, .ints (.generate [1] fun _ => 0)⟩]
          fields := [.node .tuple [.leaf (.reals (.generate [1, 2, 2] fun i =>
              if i = 0 then 1 else if i = 3 then 2 else 0))],
            .leaf (.reals (.generate [1, 2] fun i => if i = 0 then 2 else 1))] })
        (.factors .jacobian))]
      distinct := by decide }
  template := ⟨.ofList [(.type (.real 2), .tangentZeros (.real 2) 1)]⟩

theorem tilted_wellFormed : tilted.WellFormed where
  template key b hb := by
    obtain ⟨rfl, rfl⟩ : key = .type (.real 2) ∧ b = .tangentZeros (.real 2) 1 := by
      have hmem : (key, b) ∈ [(Key.type (.real 2), Buffer.tangentZeros (.real 2) 1)] :=
        Table.get?_eq_some_iff.1 hb
      simpa using hmem
    refine .inr ⟨.real 2, 1, _, rfl, ⟨rfl, rfl⟩, rfl, fun k hk => ?_⟩
    exact (Tensor.entry_generate hk).trans Scalar.zero_eq
  groups key b hb := by
    obtain ⟨rfl, rfl⟩ := Prod.mk.inj (List.mem_singleton.1 (Table.get?_eq_some_iff.1 hb))
    refine ⟨_, 1, 2, rfl, by omega, ?_⟩
    show Factor.Linear _ 1 ⟨.jacobian, _, [.node _ (List.map .leaf [_]), .leaf _]⟩ 2
    refine .jacobian (by simp) (.cons rfl .nil) rfl ?_
    intro a ha
    obtain rfl := List.mem_singleton.1 ha
    exact Handle.addresses_generate (Finset.mem_singleton.2 rfl) fun _ _ => ⟨0, rfl⟩

/-- Precision one, and a budget for ten steps. -/
def coarse : Config ℚ := ⟨1, 10⟩

/-- The squared length of the first step from zero. -/
def firstStride (g : LinearGraph Catalogue ℚ) : Checked ℚ := do
  let state ← start g g.template.bulk
  let q ← g.forward state.direction.bulk
  let d ← state.direction.scaled (state.gamma / (← q.squaredNorm))
  d.squaredNorm

/-- The first step from zero is the last. -/
theorem tilted_solves : ∃ state q norm d x, start tilted tilted.template.bulk = .ok state ∧
    Strides tilted state tilted.template q norm d x ∧ d.squaredNorm = .ok (32 / 25) ∧
    solve coarse tilted false tilted.template = .ok (1, 72 / 25) x := by
  have hfirst : firstStride tilted = .ok (32 / 25) := by decide +kernel
  obtain ⟨state, hstate, hfirst⟩ := Checked.bind_eq_ok hfirst
  obtain ⟨q, hq, hfirst⟩ := Checked.bind_eq_ok hfirst
  obtain ⟨norm, hnorm, hfirst⟩ := Checked.bind_eq_ok hfirst
  obtain ⟨d, hd, hrho⟩ := Checked.bind_eq_ok hfirst
  have hstep : (match start tilted tilted.template.bulk with
      | .error _ => false
      | .ok state => match step coarse tilted false state tilted.template with
        | .ok (.stopped steps gamma) _ => decide (state.step = 0 ∧ steps = 1 ∧ gamma = 72 / 25)
        | _ => false) = true := by decide +kernel
  rw [hstate] at hstep
  dsimp only at hstep
  split at hstep
  next steps gamma x hrun =>
    obtain ⟨hzero, rfl, rfl⟩ := of_decide_eq_true hstep
    rcases strides_of_step hrun with ⟨hsame, -⟩ | ⟨q', norm', d', hs⟩
    · injection hsame with hsame _
      omega
    · cases hs.image.symm.trans hq
      cases hs.image_norm.symm.trans hnorm
      cases hs.scaled.symm.trans hd
      refine ⟨state, _, _, _, x, hstate, hs, hrho, ?_⟩
      rw [solve, Edit.get_bind, Edit.lift_bind hstate]
      show loop coarse tilted false (9 + 1) state tilted.template = _
      rw [loop, Edit.bind_ok hrun]
      rfl
  next => cases hstep

/-- The step is not below the precision, and neither is the slope; yet the solver stops with nine
steps left. -/
theorem tilted_stops_early : tilted.WellFormed ∧ ∃ state q norm d x,
    Head coarse tilted tilted.template state tilted.template ∧
    Strides tilted state tilted.template q norm d x ∧ d.squaredNorm = .ok (32 / 25) ∧
    solve coarse tilted false tilted.template = .ok (1, 72 / 25) x ∧
    ((1 : Nat) : Int) < coarse.maxIterations ∧ ¬ 72 / 25 ≤ coarse.precision ∧
    ¬ 32 / 25 < coarse.precision := by
  obtain ⟨state, q, norm, d, x, hstate, hs, hd, hsolve⟩ := tilted_solves
  exact ⟨tilted_wellFormed, state, q, norm, d, x, .start hstate, hs, hd, hsolve, by decide,
    by decide +kernel, by decide +kernel⟩

/-- What is measured after the step. -/
theorem tilted_measured : ∃ x state x' q norm d rho,
    solve coarse tilted false tilted.template = .ok (1, 72 / 25) x ∧
    Head coarse tilted tilted.template state x' ∧ Strides tilted state x' q norm d x ∧
    d.squaredNorm = .ok rho ∧
    (state.gamma / norm) ^ 2 * (72 / 25) + (72 / 25 / state.gamma) ^ 2 * rho < 1 := by
  obtain ⟨-, -, -, -, x, -, -, -, hsolved⟩ := tilted_solves
  obtain ⟨steps, gamma, x', hsolve, -, hstops⟩ :=
    solve_stops tilted_wellFormed tilted_wellFormed.template_fills.within.fits coarse
      (by decide +kernel)
  cases hsolve.symm.trans hsolved
  rcases hstops (by decide) with hgamma | ⟨state, x', hhead, -, q, norm, d, rho, hs, hd, hmeasured, -⟩
  · exact absurd hgamma (by decide +kernel)
  · exact ⟨x, state, x', q, norm, d, rho, hsolved, hhead, hs, hd, hmeasured⟩

end LeastSquares.Cgls
