import LeastSquares.Proofs.Solver.Trial

/-!
# Taking steps back

The solver moves the store before it judges the step. Whatever numbers the factors yield, a trial
that does not accept its step leaves the store as it was. So at every point between two trials the
store is the first one moved along the accepted steps, in order, and the error that the solver has
is that of the store; and when it gives up, the store is the first one.
-/

namespace LeastSquares

namespace Store

variable {C α : Type} [DecidableEq C] [FactorFamily C] [Scalar α]

/-- The store moved along one tangent vector after the other. -/
def movedAlong (s : Store C α) (steps : List (Vectors C α)) : Checked (Store C α) :=
  steps.foldlM (fun s step => s.moved step.buffers) s

omit [FactorFamily C] in
theorem movedAlong_concat (s : Store C α) (steps : List (Vectors C α)) (step : Vectors C α) :
    s.movedAlong (steps ++ [step]) = s.movedAlong steps >>= fun s => s.moved step.buffers := by
  simp only [movedAlong, List.foldlM_append, List.foldlM_cons, List.foldlM_nil, bind_pure]

end Store

namespace LevenbergMarquardt

open Solve

variable {C α : Type} [DecidableEq C] [FactorFamily C] [Scalar α]

/-! ## One trial -/

/-- What a trial comes to. Only an accepted one moves the store. -/
def Judged (config : Config α) (graph : FactorGraph C α) (linear : LinearGraph C α)
    (state : State α) (r : Run (Store C α) α) :
    EStateM.Result (SolverError α) (Run (Store C α) α) (Verdict α) → Prop
  | .ok (.accepted next) r' => next.acceptedSteps = state.acceptedSteps + 1 ∧
      graph.error r'.point.bulk = .ok next.error ∧
      ∃ step errors r₁, dampedStep config linear state.lambda r = .ok (step, errors) r₁ ∧
        r.point.moved step.buffers = .ok r'.point
  | .ok (.rejected next) r' => r'.point = r.point ∧
      next = { state with lambda := state.lambda * config.lambdaFactor }
  | .ok (.converged last) r' => r'.point = r.point ∧ last = state
  | .error (.gaveUp lambda n) r' => r'.point = r.point ∧ lambda = state.lambda ∧
      n = state.iterations ∧ state.acceptedSteps = 0 ∧ Scalar.lt config.lambdaMax lambda = true
  | .error (.failed _) _ => True

theorem trial_judged (config : Config α) (graph : FactorGraph C α) (linear : LinearGraph C α)
    (state : State α) (r : Run (Store C α) α) :
    Judged config graph linear state r (trial config graph linear state r) := by
  have h := trial_outcome config graph linear state r
  generalize trial config graph linear state r = result at h ⊢
  cases h with
  | accepted h _ _ hp =>
    obtain ⟨r₁, hsolved⟩ := h.solved
    exact ⟨rfl, by rw [hp]; exact h.error_eq, _, _, r₁, hsolved, by rw [hp]; exact h.moved⟩
  | rejected _ _ _ hp => exact ⟨hp, rfl⟩
  | converged _ _ _ _ hp => exact ⟨hp, rfl⟩
  | gaveUp _ _ hmax hnone hp => exact ⟨hp, rfl, rfl, hnone, hmax⟩
  | failed => exact trivial

/-! ## Between two trials -/

/-- Where a solve is between two trials. -/
inductive Stage (C α : Type) where
  /-- Between two iterations, with so many left. -/
  | idle (left : Nat)
  /-- In an iteration, with so many trials left in it, and so many iterations after it. -/
  | trying (linear : LinearGraph C α) (trialsLeft left : Nat)
  /-- At a local minimum. -/
  | done

/-- What a solve that begins at `r₀` can be at between two trials: the stage, the state of the
solver, the steps it accepted so far, and the run. -/
inductive Between (config : Config α) (graph : FactorGraph C α) (r₀ : Run (Store C α) α) :
    Stage C α → State α → List (Vectors C α) → Run (Store C α) α → Prop where
  | start {error : α} : graph.error r₀.point.bulk = .ok error →
      Between config graph r₀ (.idle config.maxIterations.toNat) (.initial config error) [] r₀
  | enter {left state steps r linear r'} :
      Between config graph r₀ (.idle (left + 1)) state steps r →
      unsolved config state.error = true → enter config graph state r = .ok linear r' →
      Between config graph r₀ (.trying linear (config.maxLambdaTrials + 1).toNat left)
        { state with iterations := state.iterations + 1 } steps r'
  | accepted {linear trialsLeft left state steps r step errors r₁ next r'} :
      Between config graph r₀ (.trying linear (trialsLeft + 1) left) state steps r →
      dampedStep config linear state.lambda r = .ok (step, errors) r₁ →
      trial config graph linear state r = .ok (.accepted next) r' →
      Between config graph r₀ (.idle left) next (steps ++ [step]) r'
  | rejected {linear trialsLeft left state steps r next r'} :
      Between config graph r₀ (.trying linear (trialsLeft + 1) left) state steps r →
      trial config graph linear state r = .ok (.rejected next) r' →
      Between config graph r₀ (.trying linear trialsLeft left) next steps r'
  | exhausted {linear left state steps r} :
      Between config graph r₀ (.trying linear 0 left) state steps r →
      Between config graph r₀ (.idle left) state steps r
  | converged {linear trialsLeft left state steps r last r'} :
      Between config graph r₀ (.trying linear (trialsLeft + 1) left) state steps r →
      trial config graph linear state r = .ok (.converged last) r' →
      Between config graph r₀ .done last steps r'

/-- What a solve comes to, told of the last point between two trials. -/
inductive Ended (config : Config α) (graph : FactorGraph C α) (r₀ : Run (Store C α) α) :
    EStateM.Result (SolverError α) (Run (Store C α) α) (Summary α) → Prop where
  | unread {f} : graph.error r₀.point.bulk = .error f →
      Ended config graph r₀ (.error (.failed f) r₀)
  | unentered {left state steps r f r'} :
      Between config graph r₀ (.idle (left + 1)) state steps r →
      unsolved config state.error = true → enter config graph state r = .error (.failed f) r' →
      Ended config graph r₀ (.error (.failed f) r')
  | stuck {linear trialsLeft left state steps r e r'} :
      Between config graph r₀ (.trying linear (trialsLeft + 1) left) state steps r →
      trial config graph linear state r = .error e r' →
      Ended config graph r₀ (.error e r')
  | finished {left state steps r history result r'} :
      Between config graph r₀ (.idle left) state steps r →
      left = 0 ∨ unsolved config state.error = false →
      finish config state history r = .ok result r' →
      Ended config graph r₀ (.ok result r')
  | converged {last steps r history} : Between config graph r₀ .done last steps r →
      Ended config graph r₀ (.ok (summary last history) r)

/-- What the trials of an iteration come to, with so many iterations left after it. -/
def Tried (config : Config α) (graph : FactorGraph C α) (r₀ : Run (Store C α) α) (left : Nat) :
    EStateM.Result (SolverError α) (Run (Store C α) α) (Verdict α) → Prop
  | .ok (.accepted next) r | .ok (.rejected next) r =>
      ∃ steps, Between config graph r₀ (.idle left) next steps r
  | .ok (.converged last) r => ∃ steps, Between config graph r₀ .done last steps r
  | .error e r => Ended config graph r₀ (.error e r)

theorem trials_tried {config : Config α} {graph : FactorGraph C α} {r₀ : Run (Store C α) α}
    {linear : LinearGraph C α} {left : Nat} (trialsLeft : Nat) {state : State α}
    {steps : List (Vectors C α)} {r : Run (Store C α) α}
    (h : Between config graph r₀ (.trying linear trialsLeft left) state steps r) :
    Tried config graph r₀ left (trials config graph linear trialsLeft state r) := by
  induction trialsLeft generalizing state r with
  | zero => exact ⟨steps, .exhausted h⟩
  | succ trialsLeft ih =>
    have hjudged := trial_judged config graph linear state r
    unfold trials
    cases ht : trial config graph linear state r with
    | error e r' =>
      rw [Edit.bind_error ht]
      exact .stuck h ht
    | ok verdict r' =>
      rw [Edit.bind_ok ht]
      cases verdict with
      | accepted next =>
        rw [ht] at hjudged
        obtain ⟨_, _, step, errors, r₁, hd, _⟩ := hjudged
        exact ⟨steps ++ [step], .accepted h hd ht⟩
      | rejected next => exact ih (.rejected h ht)
      | converged last => exact ⟨steps, .converged h ht⟩

theorem finish_ended {config : Config α} {graph : FactorGraph C α} {r₀ r : Run (Store C α) α}
    {left : Nat} {state : State α} {steps : List (Vectors C α)} (history : History α)
    (h : Between config graph r₀ (.idle left) state steps r)
    (hstop : left = 0 ∨ unsolved config state.error = false) :
    Ended config graph r₀ (finish config state history r) := by
  obtain ⟨r', hr', -⟩ := reportIf_ok config.verbosity.showsIterations
    (.terminated state.iterations state.error) r
  have hf : finish config state history r = .ok (summary state history) r' := by
    unfold finish
    rw [Edit.bind_ok hr']
    rfl
  rw [hf]
  exact .finished h hstop hf

theorem iteration_tried {config : Config α} {graph : FactorGraph C α} {r₀ r : Run (Store C α) α}
    {left : Nat} {state : State α} {steps : List (Vectors C α)}
    (h : Between config graph r₀ (.idle (left + 1)) state steps r)
    (hopen : unsolved config state.error = true) :
    Tried config graph r₀ left (iteration config graph state r) := by
  have hsteady := steady_enter config graph state r
  unfold iteration
  cases he : enter config graph state r with
  | error e r' =>
    rw [he] at hsteady
    obtain ⟨-, f, rfl⟩ := hsteady
    rw [Edit.bind_error he]
    exact .unentered h hopen he
  | ok linear r' =>
    rw [Edit.bind_ok he]
    exact trials_tried _ (.enter h hopen he)

theorem loop_ended {config : Config α} {graph : FactorGraph C α} {r₀ : Run (Store C α) α}
    (left : Nat) {state : State α} {steps : List (Vectors C α)} {r : Run (Store C α) α}
    (history : History α) (h : Between config graph r₀ (.idle left) state steps r) :
    Ended config graph r₀ (loop config graph left state history r) := by
  induction left generalizing state history steps r with
  | zero => exact finish_ended history h (.inl rfl)
  | succ left ih =>
    unfold loop
    split
    next hopen =>
      have htried := iteration_tried h hopen
      cases hi : iteration config graph state r with
      | error e r' =>
        rw [hi] at htried
        rw [Edit.bind_error hi]
        exact htried
      | ok verdict r' =>
        rw [hi] at htried
        rw [Edit.bind_ok hi]
        cases verdict with
        | accepted next | rejected next =>
          obtain ⟨steps', h'⟩ := htried
          exact ih (history.push next) h'
        | converged last =>
          obtain ⟨steps', h'⟩ := htried
          exact .converged h'
    next hsolved => exact finish_ended history h (.inr (by simpa using hsolved))

/-- A solve goes from one point between two trials to the next, to the last. -/
theorem optimize_ended (config : Config α) (graph : FactorGraph C α) (r₀ : Run (Store C α) α) :
    Ended config graph r₀ (optimize config graph r₀) := by
  unfold optimize
  rw [Edit.bind_ok (m := point) rfl]
  cases he : graph.error r₀.point.bulk with
  | error f =>
    rw [Edit.bind_error (m := Solve.run _) rfl]
    exact .unread he
  | ok error =>
    rw [Edit.bind_ok (m := Solve.run _) rfl]
    exact loop_ended _ _ (.start he)

/-! ## The store between two trials -/

/-- The store is the first one moved along the accepted steps, in order, and the solver has its
error. -/
structure Kept (graph : FactorGraph C α) (r₀ : Run (Store C α) α) (state : State α)
    (steps : List (Vectors C α)) (r : Run (Store C α) α) : Prop where
  moved : r₀.point.movedAlong steps = .ok r.point
  error : graph.error r.point.bulk = .ok state.error
  accepted : state.acceptedSteps = steps.length

theorem Between.kept {config : Config α} {graph : FactorGraph C α} {r₀ r : Run (Store C α) α}
    {stage : Stage C α} {state : State α} {steps : List (Vectors C α)}
    (h : Between config graph r₀ stage state steps r) : Kept graph r₀ state steps r := by
  induction h with
  | start he => exact ⟨rfl, he, rfl⟩
  | @enter left state steps r linear r' _ _ he ih =>
    have hpoint := (steady_enter config graph state).point_eq he
    exact ⟨by rw [hpoint, ih.moved], by rw [hpoint]; exact ih.error, ih.accepted⟩
  | @accepted linear trialsLeft left state steps r step errors r₁ next r' _ hd ht ih =>
    have hjudged := trial_judged config graph linear state r
    rw [ht] at hjudged
    obtain ⟨hcount, herror, step', errors', r₂, hd', hmoved⟩ := hjudged
    obtain ⟨rfl, -⟩ : step = step' ∧ _ := by
      rw [hd] at hd'
      cases hd'
      exact ⟨rfl, trivial⟩
    refine ⟨?_, herror, ?_⟩
    · rw [Store.movedAlong_concat, ih.moved, Checked.ok_bind, hmoved]
    · rw [hcount, ih.accepted, List.length_append, List.length_singleton]
  | @rejected linear trialsLeft left state steps r next r' _ ht ih =>
    have hjudged := trial_judged config graph linear state r
    rw [ht] at hjudged
    obtain ⟨hpoint, rfl⟩ := hjudged
    exact ⟨by rw [hpoint, ih.moved], by rw [hpoint]; exact ih.error, ih.accepted⟩
  | exhausted _ ih => exact ih
  | @converged linear trialsLeft left state steps r last r' _ ht ih =>
    have hjudged := trial_judged config graph linear state r
    rw [ht] at hjudged
    obtain ⟨hpoint, rfl⟩ := hjudged
    exact ⟨by rw [hpoint, ih.moved], by rw [hpoint]; exact ih.error, ih.accepted⟩

/-- A trial that does not accept its step leaves the store as it was, row by row and in the order
of its keys. So the store between two trials is the first one moved along the accepted steps. The
solver gives up only in a trial before which no step was accepted, with the first store in place
and the damping past its bound. -/
theorem optimize_rolls_back (config : Config α) (graph : FactorGraph C α)
    (r₀ : Run (Store C α) α) :
    (∀ linear state r r', (∀ next, trial config graph linear state r = .ok (.rejected next) r' →
        r'.point = r.point) ∧
      (∀ last, trial config graph linear state r = .ok (.converged last) r' →
        r'.point = r.point)) ∧
    (∀ stage state steps r, Between config graph r₀ stage state steps r →
      Kept graph r₀ state steps r) ∧
    Ended config graph r₀ (optimize config graph r₀) ∧
    ∀ lambda n r, optimize config graph r₀ = .error (.gaveUp lambda n) r →
      r.point = r₀.point ∧ Scalar.lt config.lambdaMax lambda = true ∧
      ∃ linear trialsLeft left state rb,
        Between config graph r₀ (.trying linear (trialsLeft + 1) left) state [] rb ∧
        trial config graph linear state rb = .error (.gaveUp lambda n) r := by
  refine ⟨fun linear state r r' => ?_, fun _ _ _ _ h => h.kept, optimize_ended config graph r₀, ?_⟩
  · have hjudged := trial_judged config graph linear state r
    constructor <;> intro _ ht
    · rw [ht] at hjudged
      exact hjudged.1
    · rw [ht] at hjudged
      exact hjudged.1
  · intro lambda n r h
    have hended := optimize_ended config graph r₀
    rw [h] at hended
    cases hended with
    | @stuck linear trialsLeft left state steps rb _ _ hb ht =>
      have hjudged := trial_judged config graph linear state rb
      rw [ht] at hjudged
      obtain ⟨hpoint, -, -, hnone, hmax⟩ := hjudged
      have hsteps : steps = [] := by
        rw [← List.length_eq_zero_iff, ← hb.kept.accepted, hnone]
      subst hsteps
      have hfirst : r₀.point = rb.point := by
        have := hb.kept.moved
        injection this
      exact ⟨by rw [hpoint, hfirst], hmax, linear, trialsLeft, left, state, rb, hb, ht⟩

end LevenbergMarquardt

end LeastSquares
