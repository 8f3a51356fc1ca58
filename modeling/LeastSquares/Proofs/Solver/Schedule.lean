import LeastSquares.Proofs.Solver.DampedStep

/-!
# The schedule of the damping

The damping changes in two ways. It grows by its factor after a rejected trial, unless it is past its
bound, and it is relaxed once when a step is accepted. So it never leaves a range that the settings
tell, in whatever order the settings are, and the history of a run that returns tells, iteration by
iteration, how often it grew and whether it was relaxed.
-/

namespace LeastSquares.LevenbergMarquardt

open Solve

variable {C α : Type} [DecidableEq C] [FactorFamily C] [LinearOrder α] [ExactScalar α]
  {config : Config α} {graph : FactorGraph C α} {linear : LinearGraph C α} {state : State α}
  {r₀ r r' : Run (Store C α) α} {verdict : Verdict α}

/-! ## The range of the damping -/

/-- The numbers between the lesser and the greater of the first damping and the least one, where the
greatest number is also reached by growing from the bound. -/
def dampingRange (config : Config α) : Set α :=
  Set.Icc (min config.lambdaInitial config.lambdaMin)
    (max config.lambdaInitial (max config.lambdaMin (config.lambdaFactor * config.lambdaMax)))

/-- Settings with which the damping stays positive and a rejected trial does not lower it. -/
structure Growing (config : Config α) : Prop where
  initial_pos : 0 < config.lambdaInitial
  min_pos : 0 < config.lambdaMin
  one_le_factor : 1 ≤ config.lambdaFactor

theorem Growing.pos_of_mem (h : Growing config) {lambda : α} (hmem : lambda ∈ dampingRange config) :
    0 < lambda := (lt_min h.initial_pos h.min_pos).trans_le hmem.1

theorem initial_mem (config : Config α) : config.lambdaInitial ∈ dampingRange config :=
  ⟨min_le_left _ _, le_max_left _ _⟩

/-- An accepted step relaxes the damping within the range. -/
theorem Growing.relaxed_mem (h : Growing config) {lambda next : α} (hmem : lambda ∈ dampingRange config)
    (hnext : relaxed config lambda = .ok next) : next ∈ dampingRange config := by
  have hless : lambda / config.lambdaFactor ≤ lambda :=
    div_le_self (h.pos_of_mem hmem).le h.one_le_factor
  obtain rfl := relaxed_eq_ok hnext
  refine ⟨(min_le_right _ _).trans (le_max_right _ _), max_le (hless.trans hmem.2) ?_⟩
  exact (le_max_left _ _).trans (le_max_right _ _)

/-- A rejected trial lets the damping grow within the range, as it was not past its bound. -/
theorem Growing.grown_mem (h : Growing config) {lambda : α} (hmem : lambda ∈ dampingRange config)
    (hbound : ¬ config.lambdaMax < lambda) : lambda * config.lambdaFactor ∈ dampingRange config := by
  have hfactor : 0 ≤ config.lambdaFactor := zero_le_one.trans h.one_le_factor
  refine ⟨hmem.1.trans (le_mul_of_one_le_right (h.pos_of_mem hmem).le h.one_le_factor), ?_⟩
  calc lambda * config.lambdaFactor ≤ config.lambdaMax * config.lambdaFactor :=
        mul_le_mul_of_nonneg_right (not_lt.1 hbound) hfactor
    _ = config.lambdaFactor * config.lambdaMax := mul_comm _ _
    _ ≤ _ := (le_max_right _ _).trans (le_max_right _ _)

/-- Between any two trials of a run the damping is in the range. -/
theorem Between.lambda_mem (hg : Growing config) {stage : Stage C α} {steps : List (Vectors C α)}
    (h : Between config graph r₀ stage state steps r) : state.lambda ∈ dampingRange config :=
  h.lambda_of_steps (initial_mem config) (fun _ _ => hg.relaxed_mem) fun _ => hg.grown_mem

/-! ## Turns -/

/-- What an iteration does to the damping: how often it grows, and whether it is relaxed then, as a step
is accepted. -/
structure Turn where
  growths : Nat
  accepted : Bool

/-- The damping after a turn. -/
def Turn.next (config : Config α) (lambda : α) (t : Turn) : α :=
  let grown := lambda * config.lambdaFactor ^ t.growths
  if t.accepted then max (grown / config.lambdaFactor) config.lambdaMin else grown

/-- The number of trials in which the turn can be made. The trial that accepts a step lets nothing
grow. -/
def Turn.trials (t : Turn) : Nat := t.growths + if t.accepted then 1 else 0

/-- The state that a verdict comes with. -/
def Verdict.after : Verdict α → State α
  | accepted s | rejected s | converged s => s

def Verdict.isAccepted : Verdict α → Bool
  | accepted _ => true
  | rejected _ | converged _ => false

/-- The turn that trials make. -/
theorem trials_turn {left : Nat} (h : trials config graph linear left state r = .ok verdict r') :
    ∃ t : Turn, t.trials ≤ left ∧ t.accepted = verdict.isAccepted ∧
      verdict.after.lambda = t.next config state.lambda := by
  induction left generalizing state r with
  | zero =>
    cases h
    exact ⟨⟨0, false⟩, le_rfl, rfl, by simp [Turn.next, Verdict.after]⟩
  | succ left ih =>
    unfold trials at h
    obtain ⟨first, r₁, ht, h⟩ := Edit.bind_eq_ok h
    have hout := trial_outcome config graph linear state r
    rw [ht] at hout
    cases hout with
    | accepted _ _ hrelaxed _ =>
      cases h
      exact ⟨⟨0, true⟩, Nat.le_add_left 1 left, rfl, by
        simpa [Turn.next, Verdict.after] using relaxed_eq_ok hrelaxed⟩
    | rejected _ _ _ _ =>
      obtain ⟨t, htrials, haccepted, hlambda⟩ := ih h
      refine ⟨⟨t.growths + 1, t.accepted⟩, ?_, haccepted, ?_⟩
      · unfold Turn.trials at htrials ⊢
        dsimp only
        omega
      · rw [hlambda]
        simp only [Turn.next, pow_succ']
        rw [mul_assoc]
    | converged _ _ _ _ _ =>
      cases h
      exact ⟨⟨0, false⟩, Nat.zero_le _, rfl, by simp [Turn.next, Verdict.after]⟩

/-- The turn of an iteration. It accepts a step exactly if the error falls. -/
theorem iteration_turn (h : iteration config graph state r = .ok verdict r') :
    ∃ t : Turn, t.trials ≤ (config.maxLambdaTrials + 1).toNat ∧
      verdict.after.lambda = t.next config state.lambda ∧
      t.accepted = decide (verdict.after.error < state.error) ∧
      verdict.after.acceptedSteps = state.acceptedSteps + if t.accepted then 1 else 0 := by
  have hadvances := iteration_advances h
  unfold iteration at h
  obtain ⟨linear, r₁, -, h⟩ := Edit.bind_eq_ok h
  obtain ⟨t, htrials, haccepted, hlambda⟩ := trials_turn h
  refine ⟨t, htrials, hlambda, ?_⟩
  rw [haccepted]
  cases verdict with
  | accepted next =>
    obtain ⟨-, hfall, hcount, -⟩ := hadvances
    have hless : next.error < state.error := lt_of_epsilon_lt (by simpa using hfall)
    exact ⟨(decide_eq_true hless).symm, hcount⟩
  | rejected next =>
    obtain ⟨-, hsame, hcount, -⟩ := hadvances
    exact ⟨(decide_eq_false (by rw [Verdict.after, hsame]; exact lt_irrefl _)).symm, hcount⟩
  | converged last =>
    obtain ⟨-, hsame, hcount, -⟩ := hadvances
    exact ⟨(decide_eq_false (by rw [Verdict.after, hsame]; exact lt_irrefl _)).symm, hcount⟩

/-! ## Whole runs -/

/-- Where a list goes down from one entry to the next. -/
def fallsAt (l : List α) : List Bool := l.zipWith (fun e e' => decide (e' < e)) l.tail

omit [ExactScalar α] in
theorem fallsAt_concat {l : List α} {x : α} (h : l.getLast? = some x) (y : α) :
    fallsAt (l ++ [y]) = fallsAt l ++ [decide (y < x)] := by
  induction l with
  | nil => cases h
  | cons z l ih =>
    cases l with
    | nil =>
      obtain rfl : z = x := by simpa using h
      rfl
    | cons w l =>
      have hrest := ih (by simpa using h)
      simp only [fallsAt, List.cons_append, List.tail_cons, List.zipWith_cons_cons] at hrest ⊢
      rw [hrest]

/-- Turns that lead through the histories to the present state. -/
structure Paced (config : Config α) (turns : List Turn) (state : State α) (history : History α) : Prop where
  lambdas : config.lambdaInitial :: history.lambdas.toList =
    turns.scanl (Turn.next config) config.lambdaInitial
  lambda : state.lambda = turns.foldl (Turn.next config) config.lambdaInitial
  trials : ∀ t ∈ turns, t.trials ≤ (config.maxLambdaTrials + 1).toNat
  errors : turns.map Turn.accepted = fallsAt history.errors.toList
  error : history.errors.toList.getLast? = some state.error
  accepted : state.acceptedSteps = turns.countP Turn.accepted

/-- One more iteration. -/
theorem Paced.push {turns : List Turn} {history : History α} (h : Paced config turns state history)
    (hi : iteration config graph state r = .ok verdict r') :
    ∃ t, Paced config (turns ++ [t]) verdict.after (history.push verdict.after) := by
  obtain ⟨t, htrials, hlambda, haccepted, hcount⟩ := iteration_turn hi
  have hnext : verdict.after.lambda = (turns ++ [t]).foldl (Turn.next config) config.lambdaInitial := by
    rw [List.foldl_append, ← h.lambda, hlambda]
    rfl
  refine ⟨t, ⟨?_, hnext, ?_, ?_, ?_, ?_⟩⟩
  · rw [History.push, Array.toList_push, ← List.cons_append, h.lambdas, List.scanl_append, ← h.lambda,
      hlambda]
    rfl
  · intro u hu
    rcases List.mem_append.1 hu with hu | hu
    · exact h.trials u hu
    · obtain rfl := List.mem_singleton.1 hu
      exact htrials
  · rw [History.push, Array.toList_push, fallsAt_concat h.error, ← h.errors, List.map_append, haccepted.symm]
    rfl
  · rw [History.push, Array.toList_push, List.getLast?_concat]
  · rw [List.countP_append, ← h.accepted, hcount, List.countP_singleton]

/-- The histories are those of turns, and every damping in them is in the range. -/
structure Scheduled (config : Config α) (state : State α) (history : History α) : Prop where
  mem_range : ∀ lambda ∈ history.lambdas, lambda ∈ dampingRange config
  paced : ∃ turns, Paced config turns state history

theorem Scheduled.push {history : History α} (h : Scheduled config state history)
    (hi : iteration config graph state r = .ok verdict r')
    (hmem : verdict.after.lambda ∈ dampingRange config) :
    Scheduled config verdict.after (history.push verdict.after) where
  mem_range := by
    intro lambda hlambda
    rcases Array.mem_push.1 hlambda with hold | rfl
    · exact h.mem_range lambda hold
    · exact hmem
  paced := by
    obtain ⟨turns, hpaced⟩ := h.paced
    obtain ⟨t, hpaced⟩ := hpaced.push hi
    exact ⟨_, hpaced⟩

theorem loop_scheduled (hg : Growing config) {left : Nat} {history : History α}
    {steps : List (Vectors C α)} {result : Summary α} (h : Scheduled config state history)
    (hb : Between config graph r₀ (.idle left) state steps r)
    (hl : loop config graph left state history r = .ok result r') :
    ∃ last history', result = summary last history' ∧ Scheduled config last history' := by
  induction left generalizing state history steps r with
  | zero => exact ⟨state, history, (finish_eq hl).1, h⟩
  | succ left ih =>
    unfold loop at hl
    split at hl
    next hopen =>
      obtain ⟨verdict, r₁, hi, hl⟩ := Edit.bind_eq_ok hl
      have htried := iteration_tried hb hopen
      rw [hi] at htried
      cases verdict with
      | accepted next | rejected next =>
        obtain ⟨steps', hnext⟩ := htried
        exact ih (h.push hi (hnext.lambda_mem hg)) hnext hl
      | converged last =>
        obtain ⟨steps', hlast⟩ := htried
        cases hl
        exact ⟨last, _, rfl, h.push hi (hlast.lambda_mem hg)⟩
    next => exact ⟨state, history, (finish_eq hl).1, h⟩

/-- Every damping of a run, with which a trial is made, with which the solver gives up, or which is in
the history of a run that returns, is in the range that the settings tell. The history begins at the
first damping and goes on by turns: in each the damping grows a number of times, at most once for each
trial, and it is relaxed at the end exactly where the error falls, so where a step is accepted; then
one trial less is left to let it grow. -/
theorem optimize_scheduled (hinitial : 0 < config.lambdaInitial) (hmin : 0 < config.lambdaMin)
    (hfactor : 1 ≤ config.lambdaFactor) (htrials : 0 ≤ config.maxLambdaTrials)
    (graph : FactorGraph C α) (r₀ : Run (Store C α) α) :
    (∀ linear trialsLeft left state steps r,
      Between config graph r₀ (.trying linear (trialsLeft + 1) left) state steps r →
      state.lambda ∈ dampingRange config) ∧
    (∀ lambda n r, optimize config graph r₀ = .error (.gaveUp lambda n) r →
      lambda ∈ dampingRange config) ∧
    ∀ result r, optimize config graph r₀ = .ok result r →
      (∀ lambda ∈ result.lambdaHistory, lambda ∈ dampingRange config) ∧
      ∃ turns : List Turn,
        config.lambdaInitial :: result.lambdaHistory.toList =
          turns.scanl (Turn.next config) config.lambdaInitial ∧
        (∀ t ∈ turns, (t.growths : Int) ≤
          if t.accepted then config.maxLambdaTrials else config.maxLambdaTrials + 1) ∧
        turns.map Turn.accepted = fallsAt result.errorHistory.toList ∧
        result.acceptedSteps = turns.countP Turn.accepted := by
  have hg : Growing config := ⟨hinitial, hmin, hfactor⟩
  refine ⟨fun _ _ _ _ _ _ h => h.lambda_mem hg, fun lambda n r h => ?_, fun result r h => ?_⟩
  · have hended := optimize_ended config graph r₀
    rw [h] at hended
    cases hended with
    | @stuck linear trialsLeft left state steps rb e r' hb ht =>
      have hjudged := trial_judged config graph linear state rb
      rw [ht] at hjudged
      obtain ⟨-, rfl, -⟩ := hjudged
      exact hb.lambda_mem hg
  · unfold optimize at h
    rw [Edit.bind_ok (m := point) rfl] at h
    obtain ⟨first, r₁, he, hl⟩ := Edit.bind_eq_ok h
    obtain ⟨he, rfl⟩ := run_eq_ok he
    have hstart : Scheduled config (.initial config first) ⟨#[first], #[]⟩ :=
      ⟨by simp, [], rfl, rfl, by simp, rfl, rfl, rfl⟩
    obtain ⟨last, history, rfl, hrange, turns, hpaced⟩ := loop_scheduled hg hstart (.start he) hl
    refine ⟨hrange, turns, hpaced.lambdas, fun t ht => ?_, hpaced.errors,
      congrArg Nat.cast hpaced.accepted⟩
    have hcount : t.growths + (if t.accepted then 1 else 0) ≤ (config.maxLambdaTrials + 1).toNat :=
      hpaced.trials t ht
    split at hcount
    next haccepted =>
      rw [if_pos haccepted]
      omega
    next haccepted =>
      rw [if_neg haccepted]
      omega

/-! ## A run over the rationals -/

/-- Damping that begins far below its least value. -/
def pacedConfig : Config ℚ :=
  { opposedConfig with lambdaInitial := 1 / 10 ^ 12, lambdaMax := 20 }

/-- A step that is accepted, which raises the damping to its least value, then two iterations in which
it grows, twice and once. -/
theorem opposed_scheduled : ∃ result r,
    optimize pacedConfig opposed opposedStart = .ok result r ∧
    result.lambdaHistory = #[1, 16, 64] ∧
    (∀ lambda ∈ result.lambdaHistory, lambda ∈ Set.Icc (1 / 10 ^ 12 : ℚ) 80) ∧
    ∃ turns : List Turn,
      [1 / 10 ^ 12, 1, 16, 64] = turns.scanl (Turn.next pacedConfig) (1 / 10 ^ 12) ∧
      turns.map Turn.accepted = [true, false, false] := by
  have hreturns : (match optimize pacedConfig opposed opposedStart with
      | .ok result _ => decide (result.lambdaHistory = #[1, 16, 64] ∧
          fallsAt result.errorHistory.toList = [true, false, false])
      | .error .. => false) = true := by decide +kernel
  have hrange : dampingRange pacedConfig = Set.Icc (1 / 10 ^ 12) 80 :=
    congrArg₂ Set.Icc (by decide +kernel) (by decide +kernel)
  cases h : optimize pacedConfig opposed opposedStart with
  | error e r =>
    rw [h] at hreturns
    cases hreturns
  | ok result r =>
    rw [h] at hreturns
    obtain ⟨hlambdas, hfalls⟩ := of_decide_eq_true hreturns
    have hinitial : 0 < pacedConfig.lambdaInitial := by decide +kernel
    obtain ⟨-, -, hall⟩ := optimize_scheduled hinitial (by decide +kernel) (by decide +kernel)
      (by decide +kernel) opposed opposedStart
    obtain ⟨hmem, turns, hturns, -, haccepted, -⟩ := hall result r h
    rw [hlambdas] at hturns
    exact ⟨result, r, rfl, hlambdas, hrange ▸ hmem, turns, hturns, haccepted.trans hfalls⟩

end LeastSquares.LevenbergMarquardt
