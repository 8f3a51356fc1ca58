import LeastSquares.Proofs.Graph.Damping
import LeastSquares.Proofs.Solver.History
import LeastSquares.Proofs.Solver.Rollback
import LeastSquares.Proofs.Solver.Solution

/-!
# The step of a trial

Every trial of an iteration solves the linearisation at the current estimate, damped by the damping of
that trial and nothing else, by conjugate gradients from zero. So its step does not depend on the
trials before it; and where the linear solver is run to the end, it is the solution of
`(Jᵀ J + λ) x = -G`, where `G` is the gradient at the estimate.
-/

namespace LeastSquares

/-- The number has an exact root. -/
def ExactRoot {α : Type} [LinearOrder α] [ExactScalar α] (x : α) : Prop :=
  Elementary.sqrt x ^ 2 = x

theorem exactRoot_real {x : ℝ} (hx : 0 ≤ x) : ExactRoot x := Real.sq_sqrt hx

namespace LevenbergMarquardt

open Solve Matrix

variable {C α : Type} [DecidableEq C] [FactorFamily C] [LinearOrder α] [ExactScalar α]
  {config : Config α} {graph : FactorGraph C α} {linear problem : LinearGraph C α}

/-! ## Solving a linear problem -/

omit [FactorFamily C] in
theorem onCells_template (hg : problem.WellFormed) :
    problem.template.onCells problem.unknowns = 0 :=
  funext fun u => hg.template_zero u.2

/-- The linear problem is solved from zero. -/
theorem solveLinear_spec (hg : problem.WellFormed) (config : Config α) :
    ∃ last step before after, Cgls.Along problem problem.template last step ∧
      Cgls.solve config.linear problem false problem.template = .ok (last.step, last.gamma) step ∧
      Cgls.Ends config.linear problem problem.template config.linear.maxIterations.toNat last step ∧
      problem.error problem.template.bulk = .ok before ∧ problem.error step.bulk = .ok after ∧
      ∀ r : Run (Store C α) α, ∃ r', solveLinear config problem r = .ok (step, before, after) r' := by
  have hzero := hg.template_fills.within.fits
  obtain ⟨last, step, halong, -, hsolve, hends⟩ := Cgls.solve_along hg hzero config.linear
  have hbefore := hg.error_eq hzero
  have hafter := hg.error_eq halong.represents.fits
  refine ⟨last, step, _, _, halong, hsolve, hends, hbefore, hafter, fun r =>
    ⟨⟨r.point, r.events.push (.linearSolved last.step last.gamma)⟩, ?_⟩⟩
  unfold solveLinear
  rw [hbefore, Edit.bind_ok (m := Solve.run _) rfl]
  simp only [hsolve]
  rw [Edit.bind_ok (m := report _) rfl, hafter, Edit.bind_ok (m := Solve.run _) rfl]
  rfl

/-- The step of a damped problem: that of the damped graph, from zero. -/
theorem dampedStep_spec (hg : linear.Dampable) (config : Config α) {lambda : α}
    (hlambda : 0 ≤ lambda) : ∃ buffers last step before after,
      linear.damped (Elementary.sqrt lambda) = .ok (linear.withBuffers buffers) ∧
      buffers.entries = linear.buffers.entries ++ linear.template.buffers.keys.map
        (LinearGraph.dampingEntry linear.unknowns (Elementary.sqrt lambda)) ∧
      Cgls.Along (linear.withBuffers buffers) linear.template last step ∧
      Cgls.solve config.linear (linear.withBuffers buffers) false linear.template =
        .ok (last.step, last.gamma) step ∧
      Cgls.Ends config.linear (linear.withBuffers buffers) linear.template
        config.linear.maxIterations.toNat last step ∧
      (linear.withBuffers buffers).error linear.template.bulk = .ok before ∧
      (linear.withBuffers buffers).error step.bulk = .ok after ∧
      ∀ r : Run (Store C α) α, ∃ r',
        dampedStep config linear lambda r = .ok (step, before, after) r' := by
  obtain ⟨buffers, hdamped, hentries⟩ := hg.damped (Elementary.sqrt lambda)
  obtain ⟨last, step, before, after, halong, hsolve, hends, hbefore, hafter, hrun⟩ :=
    solveLinear_spec (hg.wellFormed_withBuffers hentries) config
  refine ⟨buffers, last, step, before, after, hdamped, hentries, halong, hsolve, hends, hbefore,
    hafter, fun r => ?_⟩
  obtain ⟨r', hr'⟩ := hrun r
  refine ⟨r', ?_⟩
  have hlt : ¬ Scalar.lt lambda Scalar.zero = true := by simpa using hlambda
  unfold dampedStep
  rw [if_neg hlt, hdamped]
  exact hr'

/-! ## Invariants of a run -/

theorem enter_eq_ok {state : State α} {r r' : Run (Store C α) α}
    (h : enter config graph state r = .ok linear r') :
    r'.point = r.point ∧ graph.linearize r.point = .ok linear := by
  refine ⟨(steady_enter config graph state).point_eq h, ?_⟩
  unfold enter at h
  obtain ⟨_, r₁, hannounce, h⟩ := Edit.bind_eq_ok h
  have hpoint := (steady_announce config state).point_eq hannounce
  rw [Edit.bind_ok (m := point) rfl, hpoint] at h
  unfold linearized at h
  obtain ⟨buffers, r₂, hbuffers, h⟩ := Edit.bind_eq_ok h
  obtain ⟨event, r₃, -, h⟩ := Edit.bind_eq_ok h
  obtain ⟨_, r₄, -, h⟩ := Edit.bind_eq_ok h
  obtain ⟨zeros, r₅, hzeros, h⟩ := Edit.bind_eq_ok h
  cases h
  unfold FactorGraph.linearize
  rw [(run_eq_ok hbuffers).1, Checked.ok_bind, (run_eq_ok hzeros).1]
  rfl

/-- An iteration begins wherever the graph is linearised and its factors are counted. -/
theorem enter_of_linearize {r : Run (Store C α) α} {n : Nat} (hcount : graph.factorCount = .ok n)
    (hlinear : graph.linearize r.point = .ok linear) (config : Config α) (state : State α) :
    ∃ r', enter config graph state r = .ok linear r' := by
  obtain ⟨groups, hgroups, hlinear⟩ := Checked.bind_eq_ok hlinear
  obtain ⟨zeros, hzeros, hlinear⟩ := Checked.bind_eq_ok hlinear
  cases hlinear
  obtain ⟨r₁, hr₁, hpoint⟩ := reportIf_ok config.verbosity.showsIterations
    (.iteration state.iterations state.error state.lambda) r
  rw [← hpoint] at hgroups hzeros
  refine ⟨⟨r₁.point, r₁.events.push (.linearized n groups.size)⟩, ?_⟩
  unfold enter announce
  rw [Edit.bind_ok hr₁, Edit.bind_ok (m := point) rfl]
  unfold linearized FactorGraph.linearizedEvent
  rw [hgroups, Edit.bind_ok (m := Solve.run _) rfl, hcount, Edit.bind_ok (m := Solve.run _) rfl,
    Edit.bind_ok (m := report _) rfl, hzeros, Edit.bind_ok (m := Solve.run _) rfl]
  rfl

section Between

variable {r₀ r : Run (Store C α) α} {stage : Stage C α} {state : State α}
  {steps : List (Vectors C α)}

theorem relaxed_eq_ok {lambda next : α} (h : relaxed config lambda = .ok next) :
    next = max (lambda / config.lambdaFactor) config.lambdaMin := by
  unfold relaxed at h
  split at h
  · cases h
  · cases h
    rw [Scalar.larger_eq_max]

/-- The damping starts in a set of numbers and stays there, if the set is not left by an accepted step
nor by growing from a damping that is not past its bound. -/
theorem Between.lambda_of_steps {P : α → Prop} (hinitial : P config.lambdaInitial)
    (hrelaxed : ∀ x y, P x → relaxed config x = .ok y → P y)
    (hgrown : ∀ x, P x → ¬ config.lambdaMax < x → P (x * config.lambdaFactor))
    (h : Between config graph r₀ stage state steps r) : P state.lambda := by
  induction h with
  | start => exact hinitial
  | enter _ _ _ ih => exact ih
  | @accepted linear trialsLeft left state steps r step errors r₁ next r' _ _ ht ih =>
    have hout := trial_outcome config graph linear state r
    rw [ht] at hout
    cases hout with
    | accepted _ _ hnext => exact hrelaxed _ _ ih hnext
  | @rejected linear trialsLeft left state steps r next r' _ ht ih =>
    have hout := trial_outcome config graph linear state r
    rw [ht] at hout
    cases hout with
    | rejected _ _ hbound => exact hgrown _ ih (by simpa using hbound)
  | exhausted _ ih => exact ih
  | @converged linear trialsLeft left state steps r last r' _ ht ih =>
    have hjudged := trial_judged config graph linear state r
    rw [ht] at hjudged
    obtain ⟨-, rfl⟩ := hjudged
    exact ih

/-- The damping starts in a set of numbers and stays there, if the set has all numbers from the least
damping on and the damping does not leave it when it grows. -/
theorem Between.lambda {P : α → Prop} (hinitial : P config.lambdaInitial)
    (hmin : ∀ x, config.lambdaMin ≤ x → P x) (hfactor : ∀ x, P x → P (x * config.lambdaFactor))
    (h : Between config graph r₀ stage state steps r) : P state.lambda :=
  h.lambda_of_steps hinitial
    (fun _ _ _ hnext => hmin _ (by rw [relaxed_eq_ok hnext]; exact le_max_right _ _))
    fun x hx _ => hfactor x hx

/-- A solve of a graph of proper factors from a well-formed store, with damping that is not
negative. -/
structure Regular (config : Config α) (graph : FactorGraph C α) (r₀ : Run (Store C α) α) : Prop where
  wellFormed : r₀.point.WellFormed
  proper : graph.Proper r₀.point.layout
  undamped : graph.Undamped
  lambdaInitial : 0 ≤ config.lambdaInitial
  lambdaMin : 0 ≤ config.lambdaMin
  lambdaFactor : 0 < config.lambdaFactor

theorem Regular.lambda_nonneg (hr : Regular config graph r₀)
    (h : Between config graph r₀ stage state steps r) : 0 ≤ state.lambda :=
  h.lambda hr.lambdaInitial (fun _ hx => hr.lambdaMin.trans hx)
    fun _ hx => mul_nonneg hx hr.lambdaFactor.le

/-- The store is well-formed, with as many values as the first one, and the trials of an iteration
have its linearisation. -/
structure Settled (graph : FactorGraph C α) (r₀ : Run (Store C α) α) (stage : Stage C α)
    (r : Run (Store C α) α) : Prop where
  wellFormed : r.point.WellFormed
  layout : r.point.layout = r₀.point.layout
  linearized : ∀ linear trialsLeft left, stage = .trying linear trialsLeft left →
    graph.linearize r.point = .ok linear

theorem Settled.dampable (hr : Regular config graph r₀) {trialsLeft left : Nat}
    (h : Settled graph r₀ (.trying linear trialsLeft left) r) :
    linear.Dampable ∧ linear.TangentTo r.point := by
  have hproper : graph.Proper r.point.layout := by
    rw [h.layout]
    exact hr.proper
  have hlinear := h.linearized linear trialsLeft left rfl
  exact ⟨hproper.dampable h.wellFormed hr.undamped hlinear,
    (hproper.linearize h.wellFormed hlinear).1⟩

theorem Regular.settled (hr : Regular config graph r₀)
    (h : Between config graph r₀ stage state steps r) : Settled graph r₀ stage r := by
  induction h with
  | start => exact ⟨hr.wellFormed, rfl, nofun⟩
  | enter _ _ he ih =>
    obtain ⟨hpoint, hlinear⟩ := enter_eq_ok he
    exact ⟨hpoint ▸ ih.wellFormed, hpoint ▸ ih.layout, fun _ _ _ hstage => by
      cases hstage
      rw [hpoint]
      exact hlinear⟩
  | @accepted linear trialsLeft left state steps r step errors r₁ next r' hb hd ht ih =>
    have hjudged := trial_judged config graph linear state r
    rw [ht] at hjudged
    obtain ⟨-, -, step', errors', r₂, hd', hmoved⟩ := hjudged
    cases hd.symm.trans hd'
    obtain ⟨hdampable, htangent⟩ := ih.dampable hr
    obtain ⟨buffers, last, step', _, _, -, -, halong, -, -, -, -, hrun⟩ :=
      dampedStep_spec hdampable config (hr.lambda_nonneg hb)
    obtain ⟨r₃, hr₃⟩ := hrun r
    cases hd.symm.trans hr₃
    obtain ⟨hwell, hlayout⟩ :=
      ih.wellFormed.moved (htangent.fits halong.represents.fits) hmoved
    exact ⟨hwell, hlayout.trans ih.layout, nofun⟩
  | @rejected linear trialsLeft left state steps r next r' _ ht ih =>
    have hjudged := trial_judged config graph linear state r
    rw [ht] at hjudged
    obtain ⟨hpoint, -⟩ := hjudged
    exact ⟨hpoint ▸ ih.wellFormed, hpoint ▸ ih.layout, fun _ _ _ hstage => by
      cases hstage
      rw [hpoint]
      exact ih.linearized _ _ _ rfl⟩
  | exhausted _ ih => exact ⟨ih.wellFormed, ih.layout, nofun⟩
  | @converged linear trialsLeft left state steps r last r' _ ht ih =>
    have hjudged := trial_judged config graph linear state r
    rw [ht] at hjudged
    exact ⟨hjudged.1 ▸ ih.wellFormed, hjudged.1 ▸ ih.layout, nofun⟩

end Between

/-! ## The damped normal equations -/

/-- The equations `(Aᵀ A + c) z = Aᵀ b` have one solution. -/
theorem damped_normal_iff {K ι κ : Type} [Field K] [LinearOrder K] [IsStrictOrderedRing K]
    [Fintype ι] [Fintype κ] [DecidableEq ι] {A : Matrix κ ι K} {b : κ → K} {x : ι → K} {c : K}
    (hc : 0 < c) (hx : Aᵀ *ᵥ (b - A *ᵥ x) - c • x = 0) (z : ι → K) :
    (Aᵀ * A + c • (1 : Matrix ι ι K)) *ᵥ z = Aᵀ *ᵥ b ↔ z = x := by
  have happly : ∀ v, (Aᵀ * A + c • (1 : Matrix ι ι K)) *ᵥ v = Aᵀ *ᵥ (A *ᵥ v) + c • v := fun v => by
    rw [add_mulVec, ← mulVec_mulVec, smul_mulVec, one_mulVec]
  have hsolves : (Aᵀ * A + c • (1 : Matrix ι ι K)) *ᵥ x = Aᵀ *ᵥ b := by
    rw [mulVec_sub, sub_sub, sub_eq_zero] at hx
    rw [happly, hx]
  refine ⟨fun hz => ?_, fun hz => hz ▸ hsolves⟩
  have hdiff : Aᵀ *ᵥ (A *ᵥ (z - x)) + c • (z - x) = 0 := by
    rw [← happly, mulVec_sub, hz, hsolves, sub_self]
  have hzero : (A *ᵥ (z - x)) ⬝ᵥ (A *ᵥ (z - x)) + c * ((z - x) ⬝ᵥ (z - x)) = 0 := by
    have h := congrArg ((z - x) ⬝ᵥ ·) hdiff
    simpa only [dotProduct_add, dotProduct_smul, smul_eq_mul, dotProduct_zero, dotProduct_mulVec,
      vecMul_transpose] using h
  have hnonneg : ∀ {η : Type} [Fintype η] (v : η → K), 0 ≤ v ⬝ᵥ v := fun v =>
    Finset.sum_nonneg fun i _ => mul_self_nonneg (v i)
  have hnorm : (z - x) ⬝ᵥ (z - x) = 0 := by
    have hmul := mul_nonneg hc.le (hnonneg (z - x))
    have himage := hnonneg (A *ᵥ (z - x))
    have hprod : c * ((z - x) ⬝ᵥ (z - x)) = 0 := by linarith
    exact (mul_eq_zero.1 hprod).resolve_left hc.ne'
  exact sub_eq_zero.1 (dotProduct_self_eq_zero.1 hnorm)

section Trials

variable {r₀ r : Run (Store C α) α} {state : State α} {steps : List (Vectors C α)}
  {trialsLeft left : Nat}

/-- With precision zero and a budget for as many steps as there are unknowns, the step solves the
damped normal equations, whose right-hand side is the gradient at the estimate. -/
theorem Regular.normal (hr : Regular config graph r₀)
    (h : Between config graph r₀ (.trying linear (trialsLeft + 1) left) state steps r)
    (hlambda : 0 < state.lambda) (hroot : ExactRoot state.lambda) {buffers : Buffers C α}
    (hentries : buffers.entries = linear.buffers.entries ++ linear.template.buffers.keys.map
      (LinearGraph.dampingEntry linear.unknowns (Elementary.sqrt state.lambda)))
    {last : Cgls.State C α} {step : Vectors C α}
    (halong : Cgls.Along (linear.withBuffers buffers) linear.template last step)
    (hends : Cgls.Ends config.linear (linear.withBuffers buffers) linear.template
      config.linear.maxIterations.toNat last step)
    (hprecision : config.linear.precision = 0)
    (hbudget : (linear.unknowns.cells.card : Int) ≤ config.linear.maxIterations) :
    ∃ G, graph.gradient r.point = .ok G ∧ ∀ z : linear.unknowns.cells → α,
      (linear.matrixᵀ * linear.matrix + state.lambda • 1) *ᵥ z = -G.onCells linear.unknowns ↔
        z = step.onCells linear.unknowns := by
  have hsettled := hr.settled h
  obtain ⟨hdampable, -⟩ := hsettled.dampable hr
  have hgraph : graph.Proper r.point.layout := by
    rw [hsettled.layout]
    exact hr.proper
  obtain ⟨G, hG, hrep⟩ := hgraph.gradient hsettled.wellFormed
    (hsettled.linearized _ _ _ rfl)
  have hwell := hdampable.wellFormed_withBuffers hentries
  have hγ : last.gamma = 0 := hends.gamma_eq_zero hwell hwell.template_fills.within.fits hprecision
    (by
      show linear.unknowns.cells.card ≤ _
      omega)
  -- the slope of the damped problem vanishes at the step
  have hslope : (linear.withBuffers buffers).matrixᵀ *ᵥ ((linear.withBuffers buffers).rhs -
      (linear.withBuffers buffers).matrix *ᵥ step.onCells linear.unknowns) = 0 := by
    have hpoint : step.onCells linear.unknowns = _ := halong.represents.point
    rw [hpoint, ← halong.sound.residual, ← halong.sound.normal]
    exact Conjugate.Iterate.s_eq_zero_iff.1 (halong.represents.gamma.symm.trans hγ)
  rw [hdampable.normal_withBuffers hentries, hroot] at hslope
  refine ⟨G, hG, fun z => ?_⟩
  rw [hrep.onCells_eq, neg_neg]
  exact damped_normal_iff hlambda hslope z

end Trials

/-! ## A trial over the rationals -/

/-- One number under the type of the variable of the two factors. -/
def opposedPoint (x : ℚ) : Store Catalogue ℚ where
  buffers := .ofList [(.type (.real 1), .of (.values (.leaf (.full [1, 1] x))) (.values (.real 1)))]

theorem opposedPoint_wellFormed (x : ℚ) : (opposedPoint x).WellFormed := by
  intro key b hb
  obtain ⟨rfl, rfl⟩ : key = .type (.real 1) ∧ b = _ := by
    have hmem : (key, b) ∈ [(Key.type (.real 1), _)] := Table.get?_eq_some_iff.1 hb
    simpa using hmem
  exact ⟨.real 1, _, 1, rfl, rfl, rfl, rfl, Nat.one_pos, fun _ => rfl⟩

/-- The handles of the two factors are in range wherever their variable has a row. -/
theorem opposed_proper_of {L : Layout Catalogue} (hkey : Key.type (.real 1) ∈ L.keys)
    (hrows : 0 < L.rows (.type (.real 1))) : opposed.Proper L := by
  intro key b hb
  obtain ⟨rfl, rfl⟩ : key = _ ∧ b = _ := by
    have hmem : (key, b) ∈ [(_, _)] := Table.get?_eq_some_iff.1 hb
    simpa using hmem
  have haddressed : ∀ a ∈ [(⟨.real 1, .ints (.generate [2] fun _ => 0)⟩ : Handle (Block ℚ))],
      a.Addresses L 2 := by
    intro a ha
    obtain rfl := List.mem_singleton.1 ha
    refine ⟨hkey, _, rfl, rfl, fun i hi => ⟨0, ?_⟩⟩
    rw [Tensor.entry_generate (by simpa using hi)]
    exact Access.locate_of_lt (i := 0) hrows
  refine ⟨_, rfl, rfl, fun _ => ⟨2, rfl, by simp, haddressed, Factor.rowwise_of_inherited rfl, ?_⟩⟩
  refine ⟨?_, 1, ?_⟩
  · intro t ht
    obtain rfl := List.mem_singleton.1 ht
    exact ⟨rfl, rfl⟩
  · show Factor.Linear _ 2 ⟨.jacobian, _, [.node _ (List.map .leaf [_]), .leaf _]⟩ 1
    exact .jacobian (by simp) (.cons rfl .nil) rfl haddressed

theorem opposed_proper_at (x : ℚ) : opposed.Proper (opposedPoint x).layout :=
  opposed_proper_of (List.mem_toFinset.2 (List.mem_singleton.2 rfl)) Nat.one_pos

theorem opposed_wellFormed : opposedStart.point.WellFormed := opposedPoint_wellFormed 0

theorem opposed_proper : opposed.Proper opposedStart.point.layout := opposed_proper_at 0

theorem opposed_undamped : opposed.Undamped := by
  intro group h
  obtain rfl : group = _ := by
    have hmem : Key.group group ∈ [Key.group _] := h
    simpa using hmem
  nofun


/-- Damping by a quarter, whose root is a half. -/
def dampedConfig : Config ℚ :=
  { opposedConfig with lambdaInitial := 1 / 4, lambdaMin := 1 / 4 }

theorem opposed_regular : Regular dampedConfig opposed opposedStart where
  wellFormed := opposed_wellFormed
  proper := opposed_proper
  undamped := opposed_undamped
  lambdaInitial := by decide +kernel
  lambdaMin := by decide +kernel
  lambdaFactor := by decide +kernel

/-- A run of two factors enters its first iteration. -/
theorem opposed_enters : ∃ linear state r,
    Between dampedConfig opposed opposedStart (.trying linear 2 4) state [] r ∧
      state.lambda = 1 / 4 ∧ linear.unknowns.cells.card = 1 := by
  have henters : (match opposed.error opposedStart.point.bulk with
      | .error _ => false
      | .ok error => unsolved dampedConfig error &&
        match enter dampedConfig opposed (.initial dampedConfig error) opposedStart with
        | .ok linear _ => decide (linear.unknowns.cells.card = 1)
        | .error .. => false) = true := by decide +kernel
  cases herror : opposed.error opposedStart.point.bulk with
  | error f =>
    rw [herror] at henters
    cases henters
  | ok error =>
    rw [herror] at henters
    obtain ⟨hopen, henters⟩ := Bool.and_eq_true_iff.1 henters
    cases he : enter dampedConfig opposed (.initial dampedConfig error) opposedStart with
    | error e r =>
      rw [he] at henters
      cases henters
    | ok linear r =>
      rw [he] at henters
      exact ⟨linear, _, r, .enter (.start herror) hopen he, rfl, of_decide_eq_true henters⟩

end LevenbergMarquardt

end LeastSquares
