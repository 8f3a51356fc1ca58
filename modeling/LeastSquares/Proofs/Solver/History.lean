import LeastSquares.Proofs.Numeric.Exact
import LeastSquares.Proofs.Solver.Trial
import LeastSquares.Catalogue

/-!
# The record of a run

The damped solver keeps a history of errors and of dampings beside its state. An iteration leaves the
error as it is or lowers it by more than the least decrease that counts, and counts an accepted step
exactly in the second case. So when a run returns, its summary tells how the errors went from that of
the first store to that of the last, and why the run ended.
-/

namespace LeastSquares.LevenbergMarquardt

open Solve

/-! ## One iteration -/

section Iteration

variable {C α : Type} [DecidableEq C] [FactorFamily C] [Scalar α] {config : Config α}
  {graph : FactorGraph C α} {linear : LinearGraph C α} {state : State α}
  {r r' : Run (Store C α) α} {verdict : Verdict α}

/-- What the trials of an iteration do to the state of the solver and to the store. -/
def Advances (config : Config α) (graph : FactorGraph C α) (state : State α) (p : Store C α) :
    Verdict α → Store C α → Prop
  | .accepted next, p' => graph.error p'.bulk = .ok next.error ∧
      Scalar.lt epsilon (state.error - next.error) = true ∧
      next.acceptedSteps = state.acceptedSteps + 1 ∧ next.iterations = state.iterations
  | .rejected next, p' => p' = p ∧ next.error = state.error ∧
      next.acceptedSteps = state.acceptedSteps ∧ next.iterations = state.iterations
  | .converged last, p' => p' = p ∧ last.error = state.error ∧
      last.acceptedSteps = state.acceptedSteps ∧ last.iterations = state.iterations ∧
      last.acceptedSteps ≠ 0 ∧ Scalar.lt config.lambdaMax last.lambda = true

theorem trial_advances (h : trial config graph linear state r = .ok verdict r') :
    Advances config graph state r.point verdict r'.point := by
  have houtcome := trial_outcome config graph linear state r
  rw [h] at houtcome
  cases houtcome with
  | accepted hattempt hpasses _ hp =>
    rw [passes, Bool.and_eq_true] at hpasses
    exact ⟨by rw [hp]; exact hattempt.error_eq, hpasses.1, rfl, rfl⟩
  | rejected _ _ _ hp => exact ⟨hp, rfl, rfl, rfl⟩
  | converged _ _ hmax hsome hp => exact ⟨hp, rfl, rfl, rfl, hsome, hmax⟩

theorem trials_advances {trialsLeft : Nat}
    (h : trials config graph linear trialsLeft state r = .ok verdict r') :
    Advances config graph state r.point verdict r'.point := by
  induction trialsLeft generalizing state r with
  | zero =>
    cases h
    exact ⟨rfl, rfl, rfl, rfl⟩
  | succ trialsLeft ih =>
    unfold trials at h
    cases ht : trial config graph linear state r with
    | error e r₁ =>
      rw [Edit.bind_error ht] at h
      cases h
    | ok first r₁ =>
      rw [Edit.bind_ok ht] at h
      have hfirst := trial_advances ht
      cases first with
      | accepted next | converged last =>
        cases h
        exact hfirst
      | rejected next =>
        -- the state and the store are those before the trial, but for the damping
        obtain ⟨hpoint, herror, haccepted, hiterations⟩ := hfirst
        have hrest := ih h
        rw [hpoint] at hrest
        unfold Advances at hrest ⊢
        rwa [herror, haccepted, hiterations] at hrest

theorem iteration_advances (h : iteration config graph state r = .ok verdict r') :
    Advances config graph { state with iterations := state.iterations + 1 } r.point verdict
      r'.point := by
  unfold iteration at h
  cases he : enter config graph state r with
  | error e r₁ =>
    rw [Edit.bind_error he] at h
    cases h
  | ok linear r₁ =>
    rw [Edit.bind_ok he] at h
    have htrials := trials_advances h
    rwa [(steady_enter config graph state).point_eq he] at htrials

omit [Scalar α] in
theorem finish_eq {P : Type} {history : History α} {summary' : Summary α} {r r' : Run P α}
    (h : finish config state history r = .ok summary' r') :
    summary' = summary state history ∧ r'.point = r.point := by
  obtain ⟨r₁, hr₁, hp⟩ := reportIf_ok config.verbosity.showsIterations
    (.terminated state.iterations state.error) r
  unfold finish at h
  rw [Edit.bind_ok hr₁] at h
  cases h
  exact ⟨rfl, hp⟩

end Iteration

/-! ## Histories -/

section Histories

variable {α : Type} [LinearOrder α]

/-- How often a list goes down from one entry to the next. -/
def falls : List α → Nat
  | x :: y :: rest => falls (y :: rest) + if y < x then 1 else 0
  | _ => 0

theorem falls_concat {l : List α} {x : α} (h : l.getLast? = some x) (y : α) :
    falls (l ++ [y]) = falls l + if y < x then 1 else 0 := by
  induction l with
  | nil => cases h
  | cons z l ih =>
    cases l with
    | nil =>
      obtain rfl : z = x := by simpa using h
      simp [falls]
    | cons w l =>
      have hrest := ih (by simpa using h)
      simp only [List.cons_append, falls] at hrest ⊢
      omega

variable [ExactScalar α]

theorem epsilon_pos : (0 : α) < epsilon := by
  rw [epsilon, ExactScalar.ofDecimal_eq]
  positivity

/-- An error after another: it is no greater, and less only by a decrease that counts. -/
def Follows (e e' : α) : Prop := e' ≤ e ∧ (e' < e → epsilon < e - e')

theorem follows_rfl (e : α) : Follows e e := ⟨le_rfl, fun h => absurd h (lt_irrefl e)⟩

theorem lt_of_epsilon_lt {e e' : α} (h : epsilon < e - e') : e' < e :=
  sub_pos.1 (epsilon_pos.trans h)

theorem isChain_concat {l : List α} {x y : α} (hl : l.IsChain Follows)
    (hlast : l.getLast? = some x) (h : Follows x y) : (l ++ [y]).IsChain Follows := by
  refine List.isChain_append.2 ⟨hl, List.isChain_singleton y, fun u hu v hv => ?_⟩
  obtain rfl : x = u := by simpa [hlast] using hu
  obtain rfl : y = v := by simpa using hv
  exact h

end Histories

/-! ## Whole runs -/

section Runs

variable {C α : Type} [DecidableEq C] [FactorFamily C] [LinearOrder α] [ExactScalar α]
  {config : Config α} {graph : FactorGraph C α} {r₀ r r' : Run (Store C α) α}
  {state next : State α} {history : History α} {left : Nat}

/-- The histories tell how the errors went from that of the first store to that of this one. -/
structure Recorded (graph : FactorGraph C α) (r₀ : Run (Store C α) α) (state : State α)
    (history : History α) (r : Run (Store C α) α) : Prop where
  errors : history.errors.size = state.iterations + 1
  lambdas : history.lambdas.size = state.iterations
  first : ∃ e, graph.error r₀.point.bulk = .ok e ∧ history.errors.toList.head? = some e
  last : graph.error r.point.bulk = .ok state.error ∧
    history.errors.toList.getLast? = some state.error
  chain : history.errors.toList.IsChain Follows
  accepted : state.acceptedSteps = falls history.errors.toList

theorem Recorded.push (h : Recorded graph r₀ state history r)
    (hiterations : next.iterations = state.iterations + 1)
    (herror : graph.error r'.point.bulk = .ok next.error) (hfollows : Follows state.error next.error)
    (haccepted : next.acceptedSteps =
      state.acceptedSteps + if next.error < state.error then 1 else 0) :
    Recorded graph r₀ next (history.push next) r' where
  errors := by simp [History.push, h.errors, hiterations]
  lambdas := by simp [History.push, h.lambdas, hiterations]
  first := by
    obtain ⟨e, he, hhead⟩ := h.first
    exact ⟨e, he, by simp [History.push, hhead]⟩
  last := ⟨herror, by simp [History.push]⟩
  chain := by
    rw [History.push, Array.toList_push]
    exact isChain_concat h.chain h.last.2 hfollows
  accepted := by
    rw [History.push, Array.toList_push, falls_concat h.last.2, ← h.accepted, haccepted]

/-- An iteration that does not end the run, with its error and damping added to the histories. -/
theorem Recorded.continued (h : Recorded graph r₀ state history r)
    (hi : iteration config graph state r = .ok (.accepted next) r' ∨
      iteration config graph state r = .ok (.rejected next) r') :
    Recorded graph r₀ next (history.push next) r' ∧ next.iterations = state.iterations + 1 := by
  rcases hi with hi | hi
  · obtain ⟨herror, hfall, haccepted, hiterations⟩ := iteration_advances hi
    have hfall : epsilon < state.error - next.error := by simpa using hfall
    have hlt := lt_of_epsilon_lt hfall
    refine ⟨h.push hiterations herror ⟨hlt.le, fun _ => hfall⟩ ?_, hiterations⟩
    rw [haccepted, if_pos hlt]
  · obtain ⟨hpoint, herror, haccepted, hiterations⟩ := iteration_advances hi
    have hsame : next.error = state.error := herror
    refine ⟨h.push hiterations (by rw [hpoint, hsame]; exact h.last.1) ?_ ?_, hiterations⟩
    · rw [hsame]
      exact follows_rfl _
    · rw [haccepted, hsame, if_neg (lt_irrefl _), add_zero]

/-- An iteration that ends the run at a local minimum. -/
theorem Recorded.converged (h : Recorded graph r₀ state history r)
    (hi : iteration config graph state r = .ok (.converged next) r') :
    Recorded graph r₀ next (history.push next) r' ∧ next.iterations = state.iterations + 1 ∧
      1 ≤ next.acceptedSteps ∧ config.lambdaMax < next.lambda := by
  obtain ⟨hpoint, herror, haccepted, hiterations, hsome, hmax⟩ := iteration_advances hi
  have hsame : next.error = state.error := herror
  refine ⟨h.push hiterations (by rw [hpoint, hsame]; exact h.last.1) ?_ ?_, hiterations,
    Nat.one_le_iff_ne_zero.2 hsome, by simpa using hmax⟩
  · rw [hsame]
    exact follows_rfl _
  · rw [haccepted, hsame, if_neg (lt_irrefl _), add_zero]

/-- What a run returns: the record at its last store, and why it ended there. -/
structure Concluded (config : Config α) (graph : FactorGraph C α) (r₀ : Run (Store C α) α)
    (result : Summary α) (r : Run (Store C α) α) : Prop where
  recorded : ∃ state history, result = summary state history ∧
    Recorded graph r₀ state history r ∧ state.iterations ≤ config.maxIterations.toNat ∧
    (state.iterations < config.maxIterations.toNat → state.error ≤ config.precision ∨
      1 ≤ state.acceptedSteps ∧
        ∃ lambda, history.lambdas.toList.getLast? = some lambda ∧ config.lambdaMax < lambda)

theorem finish_concluded {result : Summary α} (h : Recorded graph r₀ state history r)
    (hbudget : state.iterations + left = config.maxIterations.toNat)
    (hstop : left = 0 ∨ unsolved config state.error = false)
    (hf : finish config state history r = .ok result r') :
    Concluded config graph r₀ result r' := by
  obtain ⟨rfl, hpoint⟩ := finish_eq hf
  refine ⟨state, history, rfl, ⟨h.errors, h.lambdas, h.first, ?_, h.chain, h.accepted⟩, by omega,
    fun hlt => .inl ?_⟩
  · rw [hpoint]
    exact h.last
  · have hsolved := hstop.resolve_left (by omega)
    simpa [unsolved] using hsolved

theorem loop_concluded {result : Summary α} (h : Recorded graph r₀ state history r)
    (hbudget : state.iterations + left = config.maxIterations.toNat)
    (hl : loop config graph left state history r = .ok result r') :
    Concluded config graph r₀ result r' := by
  induction left generalizing state history r with
  | zero => exact finish_concluded h hbudget (.inl rfl) hl
  | succ left ih =>
    unfold loop at hl
    split at hl
    next =>
      cases hi : iteration config graph state r with
      | error e r₁ =>
        rw [Edit.bind_error hi] at hl
        cases hl
      | ok verdict r₁ =>
        rw [Edit.bind_ok hi] at hl
        cases verdict with
        | accepted next =>
          obtain ⟨hnext, hcount⟩ := h.continued (.inl hi)
          exact ih hnext (by omega) hl
        | rejected next =>
          obtain ⟨hnext, hcount⟩ := h.continued (.inr hi)
          exact ih hnext (by omega) hl
        | converged last =>
          obtain ⟨hlast, hcount, hsome, hmax⟩ := h.converged hi
          cases hl
          exact ⟨last, history.push last, rfl, hlast, by omega, fun _ =>
            .inr ⟨hsome, last.lambda, by simp [History.push], hmax⟩⟩
    next hsolved => exact finish_concluded h hbudget (.inr (by simpa using hsolved)) hl

/-- The summary of a run that returns. The history of errors leads from the error of the store as it
was to that of the store as it is left; it never goes up, and it goes down, by a decrease that counts,
once for each accepted step. A run that does not use up its iterations has reached the precision, or
it has made progress and then passed the bound of the damping. -/
theorem optimize_summarises {result : Summary α}
    (h : optimize config graph r₀ = .ok result r) :
    (result.lambdaHistory.size : Int) = result.iterations ∧
    (result.errorHistory.size : Int) = result.iterations + 1 ∧
    result.iterations ≤ max 0 config.maxIterations ∧
    ∃ first last, graph.error r₀.point.bulk = .ok first ∧
      result.errorHistory.toList.head? = some first ∧
      graph.error r.point.bulk = .ok last ∧
      result.errorHistory.toList.getLast? = some last ∧
      (result.errorHistory.toList.IsChain fun e e' => e' ≤ e ∧ (e' < e → epsilon < e - e')) ∧
      result.acceptedSteps = falls result.errorHistory.toList ∧
      (result.iterations < config.maxIterations → last ≤ config.precision ∨
        1 ≤ result.acceptedSteps ∧ ∃ lambda,
          result.lambdaHistory.toList.getLast? = some lambda ∧ config.lambdaMax < lambda) := by
  unfold optimize at h
  rw [Edit.bind_ok (m := point) rfl] at h
  cases he : graph.error r₀.point.bulk with
  | error f =>
    rw [he, Edit.bind_error (m := Solve.run _) rfl] at h
    cases h
  | ok first =>
    rw [he, Edit.bind_ok (m := Solve.run _) rfl] at h
    have hstart : Recorded graph r₀ (.initial config first) ⟨#[first], #[]⟩ r₀ :=
      ⟨rfl, rfl, ⟨first, he, rfl⟩, ⟨he, rfl⟩, List.isChain_singleton first, rfl⟩
    obtain ⟨state, history, rfl, hrecord, hbound, hstop⟩ :=
      (loop_concluded hstart (Nat.zero_add _) h).recorded
    obtain ⟨e, he', hhead⟩ := hrecord.first
    obtain rfl := Except.ok.inj (he.symm.trans he')
    refine ⟨congrArg Nat.cast hrecord.lambdas, congrArg Nat.cast hrecord.errors, ?_, first,
      state.error, rfl, hhead, hrecord.last.1, hrecord.last.2, hrecord.chain,
      congrArg Nat.cast hrecord.accepted, fun hlt => ?_⟩
    · show (state.iterations : Int) ≤ _
      omega
    · have hlt : (state.iterations : Int) < config.maxIterations := hlt
      refine (hstop (by omega)).imp_right fun ⟨hsome, hlambda⟩ => ⟨?_, hlambda⟩
      show (1 : Int) ≤ (state.acceptedSteps : Int)
      omega

end Runs

/-! ## A run over the rationals -/

/-- Two factors that ask one number to be three and to be one. -/
def opposed : FactorGraph Catalogue ℚ where
  buffers := ⟨[(.group ⟨.jacobian, [.real 1], [[.node .tuple 1, .leaf], [.leaf]], [[], [1, 1], [1]]⟩,
    .of (.factors ⟨.jacobian, [⟨.real 1, .ints (.generate [2] fun _ => 0)⟩],
      [.node .tuple [.leaf (.full [2, 1, 1] 1)],
        .leaf (.reals (.generate [2, 1] fun i => if i = 0 then 3 else 1))]⟩)
      (.factors .jacobian))], by decide⟩

def opposedStart : Run (Store Catalogue ℚ) ℚ where
  point := ⟨.ofList [(.type (.real 1),
    .of (.values (.leaf (.full [1, 1] 0))) (.values (.real 1)))]⟩
  events := #[]

def opposedConfig : Config ℚ where
  maxIterations := 5
  maxLambdaTrials := 1
  lambdaInitial := 0
  lambdaFactor := 4
  lambdaMin := 1
  lambdaMax := 3
  minModelFidelity := 1 / 2
  precision := 0
  linear := ⟨0, 1⟩
  verbosity := .silent

/-- An undamped step to the minimum, then two damped ones that are taken back. -/
theorem opposed_summarised : ∃ result r,
    optimize opposedConfig opposed opposedStart = .ok result r ∧
    result.errorHistory = #[5, 1, 1] ∧ result.lambdaHistory = #[1, 4] ∧
    (result.lambdaHistory.size : Int) = result.iterations ∧
    result.acceptedSteps = falls result.errorHistory.toList := by
  have hreturns : (match optimize opposedConfig opposed opposedStart with
      | .ok result _ => decide (result.errorHistory = #[5, 1, 1] ∧ result.lambdaHistory = #[1, 4])
      | .error .. => false) = true := by decide +kernel
  cases h : optimize opposedConfig opposed opposedStart with
  | error e r =>
    rw [h] at hreturns
    cases hreturns
  | ok result r =>
    rw [h] at hreturns
    obtain ⟨herrors, hlambdas⟩ := of_decide_eq_true hreturns
    obtain ⟨hsize, -, -, -, -, -, -, -, -, -, haccepted, -⟩ := optimize_summarises h
    exact ⟨result, r, rfl, herrors, hlambdas, hsize, haccepted⟩

end LeastSquares.LevenbergMarquardt
