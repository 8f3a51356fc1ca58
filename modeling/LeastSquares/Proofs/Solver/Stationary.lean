import LeastSquares.Proofs.Buffer.Rest
import LeastSquares.Proofs.Solver.DampedStep

/-!
# Solves at a stationary point

Where the slope `Aᵀ b` of the linearisation vanishes, the linear solver stays at zero, whatever the
damping. The store then does not move, the error stays what it was, and every trial is taken back. So
the damping grows by its factor from trial to trial, through all iterations, until it is past its bound
or the iterations are used up.
-/

namespace LeastSquares

open Matrix

namespace Cgls

variable {C α : Type} [DecidableEq C] [FactorFamily C] [LinearOrder α] [ExactScalar α]
  {g : LinearGraph C α} {x₀ : Vectors C α}

/-- Conjugate gradients stay at a point where the slope vanishes. -/
theorem solve_stationary (hg : g.WellFormed) (hx : x₀.Fits g.unknowns)
    (hslope : g.matrixᵀ *ᵥ (g.rhs - g.matrix *ᵥ x₀.onCells g.unknowns) = 0) (config : Config α) :
    ∃ result, solve config g false x₀ = .ok result x₀ := by
  obtain ⟨state, hstate, hstep, halong⟩ := along_start hg hx
  have hgamma : state.gamma = 0 := by
    rw [halong.represents.gamma, hstep, Conjugate.Iterate.s_eq_zero_iff]
    exact hslope
  refine ⟨(state.step, state.gamma), ?_⟩
  rw [solve, Edit.get_bind, Edit.lift_bind hstate]
  cases config.maxIterations.toNat with
  | zero => rfl
  | succ budget =>
    rcases halong.step hg config with ⟨-, hstop⟩ | ⟨-, hmoving, -⟩
    · rw [loop, Edit.bind_ok hstop]
      rfl
    · exact absurd hgamma hmoving

end Cgls

/-- A graph whose error is found has its factors counted. -/
theorem FactorGraph.factorCount_of_error {C α : Type} [DecidableEq C] [FactorFamily C] [Scalar α]
    {graph : FactorGraph C α} {read : Reader α} {error : α} (h : graph.error read = .ok error) :
    ∃ n, graph.factorCount = .ok n := by
  obtain ⟨n, hn, -⟩ := Checked.foldlM_induct (P := fun _ (_ : Nat) => True) (b := 0)
    trivial graph.buffers.entries (f := fun n e => do return n + (← e.2.count)) fun _ e n he _ => by
    obtain ⟨total, total', hstep⟩ := Checked.foldlM_steps h e he
    obtain ⟨f, hf, hstep⟩ := Checked.bind_eq_ok hstep
    obtain ⟨x, hx, -⟩ := Checked.bind_eq_ok hstep
    obtain ⟨errors, herrors, -⟩ := Checked.bind_eq_ok hx
    obtain ⟨each, heach, -⟩ := Checked.bind_eq_ok herrors
    obtain ⟨rows, hrows, -⟩ := Checked.bind_eq_ok heach
    obtain ⟨rowCount, hrowCount, -⟩ := Checked.bind_eq_ok hrows
    obtain ⟨k, hk, -⟩ := Checked.bind_eq_ok hrowCount
    have hcount : e.2.count = .ok k := by
      unfold Buffer.factors at hf
      split at hf
      next hstack =>
        cases hf
        rw [Buffer.count, hstack]
        exact hk
      next => cases hf
    exact ⟨n + k, by rw [hcount]; rfl, trivial⟩
  exact ⟨n, hn⟩

namespace LevenbergMarquardt

open Solve

variable {C α : Type} [DecidableEq C] [FactorFamily C] [LinearOrder α] [ExactScalar α]
  {config : Config α} {graph : FactorGraph C α} {linear : LinearGraph C α} {p : Store C α}
  {r : Run (Store C α) α} {error : α}

/-- The store is a stationary point of the graph: the linearisation there is well-formed, as it is for
graphs of proper factors, and its slope vanishes. -/
structure Stationary (graph : FactorGraph C α) (p : Store C α) (linear : LinearGraph C α) : Prop where
  wellFormed : p.WellFormed
  rests : p.Rests
  undamped : graph.Undamped
  linearized : graph.linearize p = .ok linear
  linear_wellFormed : linear.WellFormed
  slope : linear.matrixᵀ *ᵥ linear.rhs = 0

theorem Stationary.dampable (h : Stationary graph p linear) : linear.Dampable :=
  FactorGraph.dampable_of_linearize h.wellFormed h.undamped h.linearized h.linear_wellFormed

/-! ## One trial -/

/-- The step of a trial is zero, whatever the damping. -/
theorem Stationary.dampedStep_eq (h : Stationary graph p linear) (config : Config α) {lambda : α}
    (hlambda : 0 ≤ lambda) : ∃ before after, ∀ r : Run (Store C α) α, ∃ r',
      dampedStep config linear lambda r = .ok (linear.template, before, after) r' := by
  obtain ⟨buffers, last, step, before, after, -, hentries, -, hsolve, -, -, -, hrun⟩ :=
    dampedStep_spec h.dampable config hlambda
  have hwell := h.dampable.wellFormed_withBuffers hentries
  have hzero : linear.template.onCells linear.unknowns = 0 := onCells_template h.linear_wellFormed
  have hslope : (linear.withBuffers buffers).matrixᵀ *ᵥ ((linear.withBuffers buffers).rhs -
      (linear.withBuffers buffers).matrix *ᵥ linear.template.onCells linear.unknowns) = 0 := by
    rw [h.dampable.normal_withBuffers hentries, hzero, mulVec_zero, sub_zero, smul_zero, sub_zero]
    exact h.slope
  obtain ⟨result, hstay⟩ :=
    Cgls.solve_stationary hwell hwell.template_fills.within.fits hslope config.linear
  obtain rfl : linear.template = step := by
    cases hstay.symm.trans hsolve
    rfl
  exact ⟨before, after, hrun⟩

/-- A trial moves the store nowhere, so it has the same error there. -/
theorem Stationary.attempt (h : Stationary graph p linear) (herror : graph.error p.bulk = .ok error)
    (config : Config α) (state : State α) (hlambda : 0 ≤ state.lambda) (hpoint : r.point = p) :
    ∃ before after p', Attempt config graph linear state r linear.template before after p' error := by
  obtain ⟨before, after, hrun⟩ := h.dampedStep_eq config hlambda
  have htangent := FactorGraph.tangentTo_of_linearize h.wellFormed h.linearized
  have hwithin := htangent.within h.linear_wellFormed.template_fills.within
  obtain ⟨p', hp'⟩ := h.wellFormed.exists_moved hwithin
  have hread := h.wellFormed.bulk_moved_zero h.rests hwithin.fits
    (fun u hu => h.linear_wellFormed.template_zero (htangent.mem_cells hu)) hp'
  exact ⟨before, after, p', hrun r, by rw [hpoint, hp'], by rw [hread, herror]⟩

/-- Every trial is taken back. Past the bound of the damping the solver gives up, as it has accepted no
step. -/
theorem Stationary.trial_eq (h : Stationary graph p linear) (herror : graph.error p.bulk = .ok error)
    (config : Config α) {lambda : α} (hlambda : 0 ≤ lambda) (iterations : Nat) (hpoint : r.point = p) :
    ∃ r', r'.point = p ∧ trial config graph linear ⟨error, lambda, 0, iterations⟩ r =
      if config.lambdaMax < lambda then .error (.gaveUp lambda iterations) r'
      else .ok (.rejected ⟨error, lambda * config.lambdaFactor, 0, iterations⟩) r' := by
  obtain ⟨before, after, p', hattempt⟩ :=
    h.attempt herror config ⟨error, lambda, 0, iterations⟩ hlambda hpoint
  have hfails : ∀ before after,
      passes config ⟨error, lambda, 0, iterations⟩ before after error ≠ true := fun before after => by
    simp [passes, epsilon_pos.le]
  have hout := trial_outcome config graph linear ⟨error, lambda, 0, iterations⟩ r
  generalize trial config graph linear _ r = result at hout ⊢
  cases hout with
  | accepted hother hpasses =>
    obtain ⟨-, rfl, rfl, -, rfl⟩ := hattempt.unique hother
    exact absurd hpasses (hfails _ _)
  | rejected _ _ hmax hp =>
    exact ⟨_, hp.trans hpoint, by rw [if_neg (by simpa using hmax)]⟩
  | converged _ _ _ hsome => exact absurd rfl hsome
  | gaveUp _ _ hmax _ hp => exact ⟨_, hp.trans hpoint, by rw [if_pos (by simpa using hmax)]⟩
  | failed hother => exact absurd (hother _ _ _ _ _ hattempt).1 (hfails _ _)

/-! ## The trials of an iteration -/

/-- The damping grows until it is past its bound, or the trials are used up. -/
theorem Stationary.trials_eq (h : Stationary graph p linear) (herror : graph.error p.bulk = .ok error)
    (hfactor : 0 ≤ config.lambdaFactor) (iterations left : Nat) {lambda : α} (hlambda : 0 ≤ lambda)
    (hpoint : r.point = p) :
    ((∀ k, k < left → lambda * config.lambdaFactor ^ k ≤ config.lambdaMax) → ∃ r', r'.point = p ∧
      trials config graph linear left ⟨error, lambda, 0, iterations⟩ r =
        .ok (.rejected ⟨error, lambda * config.lambdaFactor ^ left, 0, iterations⟩) r') ∧
    ∀ k, k < left → (∀ j, j < k → lambda * config.lambdaFactor ^ j ≤ config.lambdaMax) →
      config.lambdaMax < lambda * config.lambdaFactor ^ k → ∃ r', r'.point = p ∧
        trials config graph linear left ⟨error, lambda, 0, iterations⟩ r =
          .error (.gaveUp (lambda * config.lambdaFactor ^ k) iterations) r' := by
  induction left generalizing lambda r with
  | zero => exact ⟨fun _ => ⟨r, hpoint, by rw [pow_zero, mul_one]; rfl⟩, nofun⟩
  | succ left ih =>
    obtain ⟨r₁, hr₁, htrial⟩ := h.trial_eq herror config hlambda iterations hpoint
    obtain ⟨hrejected, hgaveUp⟩ := ih (mul_nonneg hlambda hfactor) hr₁
    have hnext : ∀ k, lambda * config.lambdaFactor ^ (k + 1) =
        lambda * config.lambdaFactor * config.lambdaFactor ^ k := fun k => by ring
    have hgoes : ¬ config.lambdaMax < lambda →
        trials config graph linear (left + 1) ⟨error, lambda, 0, iterations⟩ r =
          trials config graph linear left
            ⟨error, lambda * config.lambdaFactor, 0, iterations⟩ r₁ := fun hmax => by
      rw [if_neg hmax] at htrial
      rw [trials, Edit.bind_ok htrial]
    refine ⟨fun hall => ?_, fun k hk hbelow hmax => ?_⟩
    · rw [hgoes (by simpa using hall 0 (by omega)), hnext]
      exact hrejected fun k hk => hnext k ▸ hall (k + 1) (by omega)
    · cases k with
      | zero =>
        rw [pow_zero, mul_one] at hmax ⊢
        rw [if_pos hmax] at htrial
        exact ⟨r₁, hr₁, by rw [trials, Edit.bind_error htrial]⟩
      | succ k =>
        rw [hgoes (by simpa using hbelow 0 (by omega)), hnext]
        exact hgaveUp k (by omega) (fun j hj => hnext j ▸ hbelow (j + 1) (by omega)) (hnext k ▸ hmax)

/-! ## Whole runs -/

/-- The damping of trial `n` of a run that accepts no step. -/
def dampingAt (config : Config α) (n : Nat) : α := config.lambdaInitial * config.lambdaFactor ^ n

/-- The number of trials of an iteration. -/
def trialsPerIteration (config : Config α) : Nat := (config.maxLambdaTrials + 1).toNat

/-- The histories of a run after so many iterations without an accepted step. -/
def restingHistory (config : Config α) (error : α) (i : Nat) : History α where
  errors := Array.replicate (i + 1) error
  lambdas := Array.ofFn fun k : Fin i => dampingAt config (trialsPerIteration config * (k + 1))

/-- One iteration: the trials go on with the damping where those before it ended. -/
theorem Stationary.iteration_eq (h : Stationary graph p linear) (herror : graph.error p.bulk = .ok error)
    (hinitial : 0 ≤ config.lambdaInitial) (hfactor : 0 ≤ config.lambdaFactor) (i : Nat)
    (hpoint : r.point = p) :
    ((∀ n, trialsPerIteration config * i ≤ n → n < trialsPerIteration config * (i + 1) →
        dampingAt config n ≤ config.lambdaMax) → ∃ r', r'.point = p ∧
      iteration config graph ⟨error, dampingAt config (trialsPerIteration config * i), 0, i⟩ r =
        .ok (.rejected
          ⟨error, dampingAt config (trialsPerIteration config * (i + 1)), 0, i + 1⟩) r') ∧
    ∀ n, trialsPerIteration config * i ≤ n → n < trialsPerIteration config * (i + 1) →
      (∀ j, j < n → dampingAt config j ≤ config.lambdaMax) → config.lambdaMax < dampingAt config n →
      ∃ r', r'.point = p ∧
        iteration config graph ⟨error, dampingAt config (trialsPerIteration config * i), 0, i⟩ r =
          .error (.gaveUp (dampingAt config n) (i + 1)) r' := by
  obtain ⟨count, hcount⟩ := FactorGraph.factorCount_of_error herror
  obtain ⟨r₁, henter⟩ := enter_of_linearize hcount (hpoint.symm ▸ h.linearized) config
    ⟨error, dampingAt config (trialsPerIteration config * i), 0, i⟩
  have hr₁ : r₁.point = p := (enter_eq_ok henter).1.trans hpoint
  have hlater : ∀ k, dampingAt config (trialsPerIteration config * i) * config.lambdaFactor ^ k =
      dampingAt config (trialsPerIteration config * i + k) := fun k => by
    rw [dampingAt, dampingAt, pow_add, mul_assoc]
  obtain ⟨hrejected, hgaveUp⟩ := h.trials_eq herror hfactor (i + 1) (trialsPerIteration config)
    (mul_nonneg hinitial (pow_nonneg hfactor (trialsPerIteration config * i))) hr₁
  have hiteration : iteration config graph
      ⟨error, dampingAt config (trialsPerIteration config * i), 0, i⟩ r =
        trials config graph linear (trialsPerIteration config)
          ⟨error, dampingAt config (trialsPerIteration config * i), 0, i + 1⟩ r₁ := by
    rw [iteration, Edit.bind_ok henter]
    rfl
  rw [hiteration]
  rw [Nat.mul_succ]
  refine ⟨fun hall => ?_, fun n hn hlt hbelow hmax => ?_⟩
  · rw [← hlater]
    exact hrejected fun k hk => hlater k ▸ hall _ (Nat.le_add_right ..) (by omega)
  · obtain ⟨k, rfl⟩ := Nat.exists_eq_add_of_le hn
    rw [← hlater] at hmax ⊢
    exact hgaveUp k (by omega) (fun j hj => hlater j ▸ hbelow _ (by omega)) hmax

theorem restingHistory_push (config : Config α) (error : α) (i iterations : Nat) :
    (restingHistory config error i).push
        ⟨error, dampingAt config (trialsPerIteration config * (i + 1)), 0, iterations⟩ =
      restingHistory config error (i + 1) := by
  simp only [History.push, restingHistory, Array.replicate_succ, Array.ofFn_succ]
  rfl

/-- The iterations that are left, from where those before them ended. -/
theorem Stationary.loop_eq (h : Stationary graph p linear) (herror : graph.error p.bulk = .ok error)
    (hopen : config.precision < error) (hinitial : 0 ≤ config.lambdaInitial)
    (hfactor : 0 ≤ config.lambdaFactor) (left i : Nat) (hpoint : r.point = p) :
    ((∀ n, n < trialsPerIteration config * (i + left) → dampingAt config n ≤ config.lambdaMax) →
      ∃ r', r'.point = p ∧ loop config graph left
        ⟨error, dampingAt config (trialsPerIteration config * i), 0, i⟩ (restingHistory config error i) r =
          .ok (summary ⟨error, dampingAt config (trialsPerIteration config * (i + left)), 0, i + left⟩
            (restingHistory config error (i + left))) r') ∧
    ∀ n, trialsPerIteration config * i ≤ n → n < trialsPerIteration config * (i + left) →
      (∀ j, j < n → dampingAt config j ≤ config.lambdaMax) → config.lambdaMax < dampingAt config n →
      ∃ r', r'.point = p ∧ loop config graph left
        ⟨error, dampingAt config (trialsPerIteration config * i), 0, i⟩ (restingHistory config error i) r =
          .error (.gaveUp (dampingAt config n) (n / trialsPerIteration config + 1)) r' := by
  have hunsolved : unsolved config error = true := by simpa [unsolved] using hopen
  induction left generalizing i r with
  | zero =>
    refine ⟨fun _ => ?_, fun n hn hlt => absurd hlt (by simpa using hn)⟩
    obtain ⟨r', hr', hp⟩ := reportIf_ok config.verbosity.showsIterations (.terminated i error) r
    refine ⟨r', hp.trans hpoint, ?_⟩
    rw [loop, finish, Edit.bind_ok hr']
    rfl
  | succ left ih =>
    obtain ⟨hrejected, hgaveUp⟩ := h.iteration_eq herror hinitial hfactor i hpoint
    have hmono : trialsPerIteration config * (i + 1) ≤ trialsPerIteration config * (i + (left + 1)) :=
      Nat.mul_le_mul_left _ (by omega)
    have hcarry : i + 1 + left = i + (left + 1) := by omega
    have hgoes : ∀ r₁, iteration config graph
        ⟨error, dampingAt config (trialsPerIteration config * i), 0, i⟩ r = .ok (.rejected
          ⟨error, dampingAt config (trialsPerIteration config * (i + 1)), 0, i + 1⟩) r₁ →
        loop config graph (left + 1) ⟨error, dampingAt config (trialsPerIteration config * i), 0, i⟩
            (restingHistory config error i) r =
          loop config graph left ⟨error, dampingAt config (trialsPerIteration config * (i + 1)), 0, i + 1⟩
            (restingHistory config error (i + 1)) r₁ := fun r₁ hiteration => by
      rw [loop, if_pos hunsolved, Edit.bind_ok hiteration]
      dsimp only
      rw [restingHistory_push]
    refine ⟨fun hall => ?_, fun n hn hlt hbelow hmax => ?_⟩
    · obtain ⟨r₁, hr₁, hiteration⟩ := hrejected fun n _ hn => hall n (hn.trans_le hmono)
      rw [hgoes r₁ hiteration, ← hcarry]
      exact (ih (i + 1) hr₁).1 fun n hn => hall n (hcarry ▸ hn)
    · by_cases hthis : n < trialsPerIteration config * (i + 1)
      · obtain ⟨r₁, hr₁, hiteration⟩ := hgaveUp n hn hthis hbelow hmax
        have hdiv : n / trialsPerIteration config = i :=
          Nat.div_eq_of_lt_le (by rwa [Nat.mul_comm]) (by rwa [Nat.mul_comm])
        rw [hdiv]
        exact ⟨r₁, hr₁, by rw [loop, if_pos hunsolved, Edit.bind_error hiteration]⟩
      · -- the bound is passed later, so this iteration goes through
        have hthis : trialsPerIteration config * (i + 1) ≤ n := by omega
        obtain ⟨r₁, hr₁, hiteration⟩ := hrejected fun j _ hj => hbelow j (hj.trans_le hthis)
        rw [hgoes r₁ hiteration]
        exact (ih (i + 1) hr₁).2 n hthis (hcarry ▸ hlt) hbelow hmax

/-- The two factors ask for three and for one, so two is where their error is least. -/
def balancedStart : Run (Store Catalogue ℚ) ℚ := ⟨opposedPoint 2, #[]⟩

theorem balanced_stationary : ∃ linear, Stationary opposed balancedStart.point linear := by
  have hwell : balancedStart.point.WellFormed := opposedPoint_wellFormed 2
  have hproper : opposed.Proper balancedStart.point.layout := opposed_proper_at 2
  have hlevel : (opposed.linearize balancedStart.point >>= fun linear =>
      opposed.gradient balancedStart.point >>= fun G =>
        .ok (decide (∀ u ∈ linear.unknowns.cells, G.coordinate u = 0))) = .ok true := by decide +kernel
  cases hlinear : opposed.linearize balancedStart.point with
  | error e =>
    rw [hlinear] at hlevel
    cases hlevel
  | ok linear =>
    obtain ⟨G, hG, hrep⟩ := hproper.gradient hwell hlinear
    rw [hlinear, hG] at hlevel
    refine ⟨linear, hwell, fun T hT => VariableType.rests_of_exactAngle exactAngle_rat
      (Store.mem_tangents.1 hT).2, opposed_undamped, hlinear,
      hproper.wellFormed hwell hlinear, ?_⟩
    rw [← neg_eq_zero, ← hrep.onCells_eq]
    exact funext fun u => of_decide_eq_true (Except.ok.inj hlevel) u u.2

/-- Two trials in each of five iterations, from the damping one, by the factor four, to the bound twenty. -/
def balancedConfig : Config ℚ := { opposedConfig with lambdaInitial := 1, lambdaMax := 20 }

end LevenbergMarquardt

end LeastSquares
