import LeastSquares.Proofs.Graph.DesignMatrix
import LeastSquares.Proofs.Solver.ConjugateGradients
import LeastSquares.Solver.Cgls

/-!
# The solver computes conjugate gradients

On a well-formed graph, with a start that fits its template, the start and each step of the solver
succeed, and their vectors are those of the recurrences for the matrix of the graph. A step that
stops at once leaves everything as it is. By induction, so it is at every head of the loop and at
its end.
-/

namespace LeastSquares.Cgls

open Matrix Conjugate

variable {C α : Type} [DecidableEq C] [FactorFamily C] [LinearOrder α] [ExactScalar α]
  {g : LinearGraph C α} {x x₀ : Vectors C α} {state : State C α}

/-- An iterate of the recurrences for a graph. -/
abbrev Point (g : LinearGraph C α) : Type := Iterate α g.unknowns.cells g.equations.cells

/-- The solver has the vectors of an iterate. -/
structure Represents (g : LinearGraph C α) (σ : Point g) (state : State C α) (x : Vectors C α) :
    Prop where
  fits : x.Fits g.unknowns
  point : x.onCells g.unknowns = σ.x
  residual : state.residual.Represents g.equations σ.r
  normal : state.normal.Represents g.unknowns σ.s
  direction : state.direction.Represents g.unknowns σ.p
  gamma : state.gamma = σ.gamma

/-- The iterate before the first step. -/
def first (g : LinearGraph C α) (x₀ : Vectors C α) : Point g :=
  Iterate.start g.matrix g.rhs (x₀.onCells g.unknowns)

theorem start_represents (hg : g.WellFormed) (hx : x₀.Fits g.unknowns) :
    ∃ state, start g x₀.bulk = .ok state ∧ state.step = 0 ∧ Represents g (first g x₀) state x₀ := by
  obtain ⟨e, he, herep⟩ := hg.residuals_represents hx
  obtain ⟨r, hr, hrrep⟩ := herep.neg
  obtain ⟨s, hs, hsrep⟩ := hg.adjoint_represents hrrep
  rw [neg_sub] at hrrep hsrep
  refine ⟨⟨0, r, s, s, _⟩, ?_, rfl, hx, rfl, hrrep, hsrep, hsrep, rfl⟩
  unfold start
  rw [he, Checked.ok_bind, hr, Checked.ok_bind, hs, Checked.ok_bind, hsrep.squaredNorm]
  rfl

variable {σ : Point g} {config : Config α}

/-- The squared length that the next direction would be given at the last step size. -/
def stride (g : LinearGraph C α) (σ : Point g) : α :=
  (σ.alpha g.matrix • (σ.next g.matrix).p) ⬝ᵥ (σ.alpha g.matrix • (σ.next g.matrix).p)

theorem image?_of_reached (h : ¬ config.precision < state.gamma) :
    image? config g state = .ok none := by
  unfold image?
  simp [h]

theorem image?_represents (hg : g.WellFormed) (h : Represents g σ state x)
    (hγ : config.precision < state.gamma) :
    ∃ q, q.Represents g.equations (σ.image g.matrix) ∧ image? config g state =
      .ok (if σ.curvature g.matrix = 0 then none else some (q, σ.curvature g.matrix)) := by
  obtain ⟨q, hq, hqrep⟩ := hg.forward_represents h.direction.within.fits
  rw [h.direction.onCells_eq] at hqrep
  refine ⟨q, hqrep, ?_⟩
  have hnorm : q.squaredNorm = .ok (σ.curvature g.matrix) := hqrep.squaredNorm
  unfold image?
  rw [hq, Checked.ok_bind, hnorm]
  by_cases hzero : σ.curvature g.matrix = 0
  · simp [hγ, hzero]
  · simp [hγ, hzero]

/-- Where the precision is reached or the image vanishes, the solver stops without a step. -/
theorem step_stops (hg : g.WellFormed) (h : Represents g σ state x) {shared : Bool}
    (hstop : ¬ config.precision < state.gamma ∨ σ.curvature g.matrix = 0) :
    step config g shared state x = .ok (.stopped state.step state.gamma) x := by
  have himage : image? config g state = .ok none := by
    by_cases hγ : config.precision < state.gamma
    · obtain ⟨q, -, hq⟩ := image?_represents hg h hγ
      rw [hq, if_pos (hstop.resolve_left (not_not.2 hγ))]
    · exact image?_of_reached hγ
  unfold step
  rw [Edit.lift_bind himage]
  rfl

/-- The transpose in the problem at a point. Where the point is the template, it is what the rows are
added to. -/
theorem problem_adjoint (hg : g.WellFormed) {shared : Bool} (hx : shared = true → x.Fills g.unknowns)
    {y : Vectors C α} (hy : y.Fits g.equations) :
    ∃ s, (problem g shared x).adjoint y.buffers = .ok s ∧ s.Fills g.unknowns := by
  cases shared with
  | false =>
    obtain ⟨s, hs, hfills, -⟩ := hg.adjoint hy
    exact ⟨s, hs, hfills⟩
  | true =>
    obtain ⟨s, hs, hfills, -⟩ := hg.adjoint_into hy (hx rfl)
    exact ⟨s, hs, hfills⟩

/-- The iterate after a step that finds a new `s`. -/
def toward (g : LinearGraph C α) (σ : Point g) (s : g.unknowns.cells → α) : Point g where
  x := σ.x + σ.alpha g.matrix • σ.p
  r := σ.r - σ.alpha g.matrix • σ.image g.matrix
  s := s
  p := s + (s ⬝ᵥ s / σ.gamma) • σ.p

/-- Elsewhere it makes a step, which is that of the recurrences if the point is not the template. -/
theorem step_toward (hg : g.WellFormed) (h : Represents g σ state x) (hγ : config.precision < state.gamma)
    (hq : σ.curvature g.matrix ≠ 0) (hne : σ.gamma ≠ 0) {shared : Bool}
    (hx : shared = true → x.Fills g.unknowns) :
    ∃ f next x', Represents g (toward g σ f) next x' ∧ next.step = state.step + 1 ∧
      (x.Within g.unknowns → x'.Within g.unknowns) ∧ (x.Fills g.unknowns → x'.Fills g.unknowns) ∧
      (shared = false → f = g.matrixᵀ *ᵥ (σ.r - σ.alpha g.matrix • σ.image g.matrix)) ∧
      step config g shared state x = .ok (if (σ.alpha g.matrix • (toward g σ f).p) ⬝ᵥ
          (σ.alpha g.matrix • (toward g σ f).p) < config.precision then
        .stopped next.step next.gamma else .continued next) x' := by
  obtain ⟨q, hqrep, himage⟩ := image?_represents hg h hγ
  rw [if_neg hq] at himage
  have halpha : state.gamma / σ.curvature g.matrix = σ.alpha g.matrix := by rw [h.gamma]; rfl
  obtain ⟨d, hd, hdrep⟩ := h.direction.scaled (σ.alpha g.matrix)
  obtain ⟨x', hx', hfits, hwithin, hfills, hcells⟩ := hdrep.increase h.fits
  obtain ⟨q', hq', hq'rep⟩ := hqrep.scaled (σ.alpha g.matrix)
  obtain ⟨r, hr, hrrep⟩ := h.residual.sub hq'rep
  obtain ⟨s, hs, hsfills⟩ := problem_adjoint hg (x := x') (fun hshared => hfills (hx hshared))
    hrrep.within.fits
  have hsrep : s.Represents g.unknowns (s.onCells g.unknowns) := ⟨hsfills.within, rfl⟩
  let f := s.onCells g.unknowns
  obtain ⟨p', hp', hp'rep⟩ := h.direction.scaled (f ⬝ᵥ f / σ.gamma)
  obtain ⟨p, hp, hprep⟩ := hsrep.add hp'rep
  obtain ⟨z, hz, hzrep⟩ := hprep.scaled (σ.alpha g.matrix)
  have hnorm : s.squaredNorm = .ok (f ⬝ᵥ f) := hsrep.squaredNorm
  refine ⟨f, ⟨state.step + 1, r, s, p, f ⬝ᵥ f⟩, x',
    ⟨hfits, by rw [hcells, h.point]; rfl, hrrep, hsrep, hprep, rfl⟩, rfl, hwithin, hfills, ?_, ?_⟩
  · rintro rfl
    obtain ⟨s', hs', hs'rep⟩ := hg.adjoint_represents hrrep
    obtain rfl := Except.ok.inj (hs'.symm.trans hs)
    exact hs'rep.onCells_eq
  · have hzero : ¬ Scalar.eq σ.gamma Scalar.zero = true := by
      rw [Scalar.eq_eq_decide, Scalar.zero_eq]
      simpa using hne
    have hstride : z.squaredNorm = .ok ((σ.alpha g.matrix • (toward g σ f).p) ⬝ᵥ
      (σ.alpha g.matrix • (toward g σ f).p)) := hzrep.squaredNorm
    unfold step
    rw [Edit.lift_bind himage]
    simp only [halpha]
    rw [Edit.lift_bind hd, Edit.bind_ok hx', Edit.lift_bind hq', Edit.lift_bind hr,
      Edit.get_bind, Edit.lift_bind hs, Edit.lift_bind hnorm]
    simp only [h.gamma]
    rw [if_neg hzero, Edit.lift_bind hp', Edit.lift_bind hp, Edit.lift_bind hz,
      Edit.lift_bind hstride, Scalar.lt_eq_decide]
    by_cases hlt : (σ.alpha g.matrix • (toward g σ f).p) ⬝ᵥ (σ.alpha g.matrix • (toward g σ f).p) <
        config.precision
    · simp only [hlt, decide_true, if_true]
      rfl
    · simp only [hlt, decide_false, Bool.false_eq_true, if_false]
      rfl

/-- The step of the recurrences. -/
theorem step_represents (hg : g.WellFormed) (h : Represents g σ state x)
    (hγ : config.precision < state.gamma) (hq : σ.curvature g.matrix ≠ 0) (hne : σ.gamma ≠ 0) :
    ∃ next x', Represents g (σ.next g.matrix) next x' ∧ next.step = state.step + 1 ∧
      (x.Within g.unknowns → x'.Within g.unknowns) ∧
      step config g false state x = .ok (if stride g σ < config.precision then
        .stopped next.step next.gamma else .continued next) x' := by
  obtain ⟨f, next, x', hrep, hstep, hwithin, -, hf, hrun⟩ := step_toward hg h hγ hq hne
    fun hshared : false = true => absurd hshared Bool.false_ne_true
  obtain rfl := hf rfl
  exact ⟨next, x', hrep, hstep, hwithin, hrun⟩

/-! ## The loop -/

/-- The iterate after `k` steps. -/
def iterate (g : LinearGraph C α) (x₀ : Vectors C α) (k : Nat) : Point g :=
  Iterate.run g.matrix g.rhs (x₀.onCells g.unknowns) k

/-- The solver has made its steps along the recurrences, none of them from a solution. -/
structure Along (g : LinearGraph C α) (x₀ : Vectors C α) (state : State C α) (x : Vectors C α) :
    Prop where
  moving : ∀ i, i < state.step → (iterate g x₀ i).gamma ≠ 0
  represents : Represents g (iterate g x₀ state.step) state x
  within : x₀.Within g.unknowns → x.Within g.unknowns

omit [FactorFamily C] in
theorem Along.sound (h : Along g x₀ state x) :
    (iterate g x₀ state.step).Sound g.matrix g.rhs (x₀.onCells g.unknowns) :=
  Iterate.sound_run h.moving

theorem along_start (hg : g.WellFormed) (hx : x₀.Fits g.unknowns) :
    ∃ state, start g x₀.bulk = .ok state ∧ state.step = 0 ∧ Along g x₀ state x₀ := by
  obtain ⟨state, hstate, hstep, hrep⟩ := start_represents hg hx
  refine ⟨state, hstate, hstep, fun i hi => ?_, ?_, id⟩
  · omega
  · rw [hstep]
    exact hrep

/-- The ways in which a step can go on from a head of the loop. -/
theorem Along.step (hg : g.WellFormed) (h : Along g x₀ state x) (config : Config α) :
    ((¬ config.precision < state.gamma ∨ state.gamma = 0) ∧
      step config g false state x = .ok (.stopped state.step state.gamma) x) ∨
    (config.precision < state.gamma ∧ state.gamma ≠ 0 ∧
      ∃ next x', Along g x₀ next x' ∧ next.step = state.step + 1 ∧
        Cgls.step config g false state x =
          .ok (if stride g (iterate g x₀ state.step) < config.precision then
            .stopped next.step next.gamma else .continued next) x') := by
  have hcurve := h.sound.curvature_eq_zero_iff
  by_cases hstop : ¬ config.precision < state.gamma ∨ state.gamma = 0
  · refine .inl ⟨hstop, step_stops hg h.represents (hstop.imp_right fun hzero => hcurve.2 ?_)⟩
    rw [← h.represents.gamma, hzero]
  · rw [not_or, not_not] at hstop
    have hne : (iterate g x₀ state.step).gamma ≠ 0 := by
      rw [← h.represents.gamma]
      exact hstop.2
    obtain ⟨next, x', hrep, hstep, hwithin, hrun⟩ := step_represents hg h.represents hstop.1
      (fun hq => hne (hcurve.1 hq)) hne
    refine .inr ⟨hstop.1, hstop.2, next, x', ⟨fun i hi => ?_, ?_, hwithin ∘ h.within⟩, hstep, hrun⟩
    · rcases Nat.lt_or_ge i state.step with hlt | hge
      · exact h.moving i hlt
      · obtain rfl : i = state.step := by omega
        exact hne
    · rw [hstep, iterate, Iterate.run_succ]
      exact hrep

/-- A point before a step of the loop, whatever the budget. -/
inductive Head (config : Config α) (g : LinearGraph C α) (x₀ : Vectors C α) :
    State C α → Vectors C α → Prop where
  | start {state : State C α} : start g x₀.bulk = .ok state → Head config g x₀ state x₀
  | continued {state next : State C α} {x x' : Vectors C α} : Head config g x₀ state x →
      step config g false state x = .ok (.continued next) x' → Head config g x₀ next x'

theorem Head.along (hg : g.WellFormed) (hx : x₀.Fits g.unknowns) (h : Head config g x₀ state x) :
    Along g x₀ state x := by
  induction h with
  | start hstart =>
    obtain ⟨state, hstate, -, halong⟩ := along_start hg hx
    obtain rfl := Except.ok.inj (hstate.symm.trans hstart)
    exact halong
  | continued _ hstep ih =>
    rcases ih.step hg config with ⟨-, hstop⟩ | ⟨-, -, next, x', halong, -, hrun⟩
    · cases hstop.symm.trans hstep
    · rw [hrun] at hstep
      split at hstep
      · cases hstep
      · cases hstep
        exact halong

/-- The end of the loop: the head at which the budget was used up, or what a last step left. -/
def Ends (config : Config α) (g : LinearGraph C α) (x₀ : Vectors C α) (bound : Nat)
    (last : State C α) (x : Vectors C α) : Prop :=
  (Head config g x₀ last x ∧ last.step = bound) ∨
    ∃ state x', Head config g x₀ state x' ∧
      step config g false state x' = .ok (.stopped last.step last.gamma) x

theorem Along.loop (hg : g.WellFormed) (config : Config α) (budget : Nat) {state : State C α}
    {x : Vectors C α} (h : Along g x₀ state x) (hhead : Head config g x₀ state x) :
    ∃ last x', Along g x₀ last x' ∧ last.step ≤ state.step + budget ∧
      Cgls.loop config g false budget state x = .ok (last.step, last.gamma) x' ∧
      Ends config g x₀ (state.step + budget) last x' := by
  induction budget generalizing state x with
  | zero => exact ⟨state, x, h, by omega, rfl, .inl ⟨hhead, rfl⟩⟩
  | succ budget ih =>
    rcases h.step hg config with ⟨-, hstop⟩ | ⟨-, -, next, x', halong, hstep, hrun⟩
    · refine ⟨state, x, h, by omega, ?_, .inr ⟨state, x, hhead, hstop⟩⟩
      rw [Cgls.loop, Edit.bind_ok hstop]
      rfl
    · by_cases hlt : stride g (iterate g x₀ state.step) < config.precision
      · rw [if_pos hlt] at hrun
        refine ⟨next, x', halong, by omega, ?_, .inr ⟨state, x, hhead, hrun⟩⟩
        rw [Cgls.loop, Edit.bind_ok hrun]
        rfl
      · rw [if_neg hlt] at hrun
        obtain ⟨last, x'', hlast, hle, hloop, hends⟩ := ih halong (.continued hhead hrun)
        refine ⟨last, x'', hlast, by omega, ?_, ?_⟩
        · rw [Cgls.loop, Edit.bind_ok hrun]
          exact hloop
        · rw [hstep, Nat.add_right_comm] at hends
          exact hends

/-- The solver succeeds, within its budget. -/
theorem solve_along (hg : g.WellFormed) (hx : x₀.Fits g.unknowns) (config : Config α) :
    ∃ last x, Along g x₀ last x ∧ last.step ≤ config.maxIterations.toNat ∧
      solve config g false x₀ = .ok (last.step, last.gamma) x ∧
      Ends config g x₀ config.maxIterations.toNat last x := by
  obtain ⟨state, hstate, hstep, halong⟩ := along_start hg hx
  obtain ⟨last, x, hlast, hle, hloop, hends⟩ :=
    halong.loop hg config config.maxIterations.toNat (.start hstate)
  rw [hstep, Nat.zero_add] at hle hends
  refine ⟨last, x, hlast, hle, ?_, hends⟩
  rw [solve, Edit.get_bind, Edit.lift_bind hstate, hloop]

end LeastSquares.Cgls
