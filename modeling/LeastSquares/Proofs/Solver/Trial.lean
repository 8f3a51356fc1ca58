import LeastSquares.Proofs.Edit
import LeastSquares.Solver.LevenbergMarquardt

/-!
# One trial

What one trial of the damped solver can do, whatever the numbers. Before it judges its step it has
solved the damped problem, moved the store and read the error there, and none of its parts but the
move touches the store. Then it accepts the step, or takes it back and asks for more damping, or ends
the solve. All that is said of whole runs is derived from this.
-/

namespace LeastSquares

namespace Solve

variable {P α β γ : Type}

/-- A part of a solve that leaves the point as it is, also where it fails, and does not give up. -/
def Steady (m : Solve P α β) : Prop := ∀ r, match m r with
  | .ok _ r' => r'.point = r.point
  | .error e r' => r'.point = r.point ∧ ∃ f, e = .failed f

theorem Steady.bind {m : Solve P α β} {f : β → Solve P α γ} (hm : Steady m)
    (hf : ∀ b, Steady (f b)) : Steady (m >>= f) := by
  intro r
  have h := hm r
  cases hr : m r with
  | ok b r' =>
    rw [hr] at h
    rw [Edit.bind_ok hr]
    have h' := hf b r'
    rw [show r'.point = r.point from h] at h'
    exact h'
  | error e r' =>
    rw [hr] at h
    rw [Edit.bind_error hr]
    exact h

theorem steady_pure (b : β) : Steady (pure b : Solve P α β) := fun _ => rfl

theorem steady_failed (f : Failure) : Steady (throw (.failed f) : Solve P α β) :=
  fun _ => ⟨rfl, f, rfl⟩

theorem steady_run (x : Checked β) : Steady (run x : Solve P α β) := by
  cases x with
  | ok b => exact steady_pure b
  | error e => exact steady_failed e

theorem steady_point : Steady (point : Solve P α P) := fun _ => rfl

theorem steady_report (e : Event α) : Steady (report e : Solve P α Unit) := fun _ => rfl

theorem steady_reportIf (condition : Bool) (e : Event α) :
    Steady (reportIf condition e : Solve P α Unit) := by
  unfold reportIf
  split
  · exact steady_report e
  · exact steady_pure ()

theorem run_eq_ok {x : Checked β} {b : β} {r r' : Run P α} (h : (run x : Solve P α β) r = .ok b r') :
    x = .ok b ∧ r' = r := by
  cases x with
  | ok b' =>
    cases h
    exact ⟨rfl, rfl⟩
  | error e => cases h

theorem reportIf_ok (condition : Bool) (e : Event α) (r : Run P α) :
    ∃ r', reportIf condition e r = .ok () r' ∧ r'.point = r.point := by
  cases condition with
  | false => exact ⟨r, rfl, rfl⟩
  | true => exact ⟨⟨r.point, r.events.push e⟩, rfl, rfl⟩

theorem onPoint_ok {edit : Edit P β} {b : β} {p : P} {r : Run P α}
    (h : edit r.point = .ok b p) : onPoint edit r = .ok b ⟨p, r.events⟩ := by
  rw [onPoint, h]

theorem onPoint_error {edit : Edit P β} {e : Failure} {p : P} {r : Run P α}
    (h : edit r.point = .error e p) : onPoint edit r = .error (.failed e) ⟨p, r.events⟩ := by
  rw [onPoint, h]

theorem Steady.point_eq {m : Solve P α β} (hm : Steady m) {b : β} {r r' : Run P α}
    (h : m r = .ok b r') : r'.point = r.point := by
  have := hm r
  rwa [h] at this

end Solve

namespace LevenbergMarquardt

open Solve

variable {C α : Type} [DecidableEq C] [FactorFamily C] [Scalar α]

/-- The linear problem is solved apart from the store. -/
theorem steady_solveLinear (config : Config α) (problem : LinearGraph C α) :
    Steady (solveLinear config problem) := by
  unfold solveLinear
  refine .bind (steady_run _) fun before => ?_
  split
  · exact steady_failed _
  · exact .bind (steady_report _) fun _ => .bind (steady_run _) fun after => steady_pure _

theorem steady_dampedStep (config : Config α) (linear : LinearGraph C α) (lambda : α) :
    Steady (dampedStep config linear lambda) := by
  have hsolve : Steady (Solve.run (linear.damped (Elementary.sqrt lambda)) >>=
      solveLinear config) :=
    .bind (steady_run _) fun problem => steady_solveLinear config problem
  unfold dampedStep
  split
  · exact .bind (steady_failed _) fun _ => hsolve
  · exact hsolve

theorem steady_linearized (graph : FactorGraph C α) (point : Store C α) :
    Steady (linearized graph point) := by
  unfold linearized
  refine .bind (steady_run _) fun _ => .bind (steady_run _) fun _ => ?_
  exact .bind (steady_report _) fun _ => .bind (steady_run _) fun _ => steady_pure _

omit [DecidableEq C] [FactorFamily C] [Scalar α] in
theorem steady_announce (config : Config α) (state : State α) :
    Steady (announce (P := Store C α) config state) := steady_reportIf _ _

theorem steady_enter (config : Config α) (graph : FactorGraph C α) (state : State α) :
    Steady (enter config graph state) :=
  .bind (steady_announce config state) fun _ =>
    .bind steady_point fun point => steady_linearized graph point

/-! ## Judging a step -/

section Judging

variable {config : Config α} {graph : FactorGraph C α} {linear : LinearGraph C α} {state : State α}
  {r : Run (Store C α) α}

/-- What a trial has computed when it comes to judge its step: the step, the errors of the damped
problem before and after it, the store moved along it, and the error there. -/
structure Attempt (config : Config α) (graph : FactorGraph C α) (linear : LinearGraph C α)
    (state : State α) (r : Run (Store C α) α) (step : Vectors C α) (before after : α)
    (p : Store C α) (error : α) : Prop where
  solved : ∃ r₁, dampedStep config linear state.lambda r = .ok (step, before, after) r₁
  moved : r.point.moved step.buffers = .ok p
  error_eq : graph.error p.bulk = .ok error

/-- The decrease counts, and it is enough of what was predicted. -/
def passes (config : Config α) (state : State α) (before after error : α) : Bool :=
  Scalar.lt epsilon (state.error - error) &&
    Scalar.lt config.minModelFidelity (fidelity (state.error - error) (before - after))

/-- What a trial comes to. -/
inductive Outcome (config : Config α) (graph : FactorGraph C α) (linear : LinearGraph C α)
    (state : State α) (r : Run (Store C α) α) :
    EStateM.Result (SolverError α) (Run (Store C α) α) (Verdict α) → Prop where
  | accepted {step before after p error lambda r'} :
      Attempt config graph linear state r step before after p error →
      passes config state before after error = true → relaxed config state.lambda = .ok lambda →
      r'.point = p →
      Outcome config graph linear state r (.ok (.accepted { state with
        error := error, lambda := lambda, acceptedSteps := state.acceptedSteps + 1 }) r')
  | rejected {step before after p error r'} :
      Attempt config graph linear state r step before after p error →
      passes config state before after error = false →
      Scalar.lt config.lambdaMax state.lambda = false → r'.point = r.point →
      Outcome config graph linear state r
        (.ok (.rejected { state with lambda := state.lambda * config.lambdaFactor }) r')
  | converged {step before after p error r'} :
      Attempt config graph linear state r step before after p error →
      passes config state before after error = false →
      Scalar.lt config.lambdaMax state.lambda = true → state.acceptedSteps ≠ 0 →
      r'.point = r.point → Outcome config graph linear state r (.ok (.converged state) r')
  | gaveUp {step before after p error r'} :
      Attempt config graph linear state r step before after p error →
      passes config state before after error = false →
      Scalar.lt config.lambdaMax state.lambda = true → state.acceptedSteps = 0 →
      r'.point = r.point →
      Outcome config graph linear state r (.error (.gaveUp state.lambda state.iterations) r')
  | failed {f r'} :
      (∀ step before after p error, Attempt config graph linear state r step before after p error →
        passes config state before after error = true ∧ ∃ e, relaxed config state.lambda = .error e) →
      Outcome config graph linear state r (.error (.failed f) r')

theorem Attempt.unique {step step' : Vectors C α} {before before' after after' : α}
    {p p' : Store C α} {error error' : α}
    (h : Attempt config graph linear state r step before after p error)
    (h' : Attempt config graph linear state r step' before' after' p' error') :
    step' = step ∧ before' = before ∧ after' = after ∧ p' = p ∧ error' = error := by
  obtain ⟨r₁, hsolved⟩ := h.solved
  obtain ⟨r₂, hsolved'⟩ := h'.solved
  rw [hsolved] at hsolved'
  cases hsolved'
  obtain rfl := Except.ok.inj (h.moved.symm.trans h'.moved)
  exact ⟨rfl, rfl, rfl, rfl, Except.ok.inj (h'.error_eq.symm.trans h.error_eq)⟩

theorem takeBack_outcome {step : Vectors C α} {before after error : α} {p : Store C α}
    (h : Attempt config graph linear state r step before after p error)
    (hpasses : passes config state before after error = false) (r₁ : Run (Store C α) α) :
    Outcome config graph linear state r (takeBack config state r.point r₁) := by
  unfold takeBack
  rw [Edit.bind_ok (m := restore _) rfl]
  split
  next hmax =>
    split
    next hnone => exact .gaveUp h hpasses hmax hnone rfl
    next hsome => exact .converged h hpasses hmax hsome rfl
  next hmax => exact .rejected h hpasses (by simpa using hmax) rfl

theorem trial_outcome (config : Config α) (graph : FactorGraph C α) (linear : LinearGraph C α)
    (state : State α) (r : Run (Store C α) α) :
    Outcome config graph linear state r (trial config graph linear state r) := by
  have hsteady := steady_dampedStep config linear state.lambda r
  unfold trial
  cases hd : dampedStep config linear state.lambda r with
  | error e r₁ =>
    rw [hd] at hsteady
    obtain ⟨-, f, rfl⟩ := hsteady
    rw [Edit.bind_error hd]
    refine .failed fun _ _ _ _ _ h => ?_
    obtain ⟨_, hsolved⟩ := h.solved
    cases hd.symm.trans hsolved
  | ok result r₁ =>
    obtain ⟨step, before, after⟩ := result
    rw [hd] at hsteady
    have hpoint : r₁.point = r.point := hsteady
    have hstep : ∀ {step' before' after' p error},
        Attempt config graph linear state r step' before' after' p error → step' = step := by
      intro _ _ _ _ _ h
      obtain ⟨_, hsolved⟩ := h.solved
      cases hd.symm.trans hsolved
      rfl
    rw [Edit.bind_ok hd]
    dsimp only
    rw [Edit.bind_ok (m := point) (s := r₁) rfl, hpoint]
    cases hm : Store.move step.buffers r.point with
    | error e p =>
      rw [Edit.bind_error (onPoint_error (hpoint.symm ▸ hm))]
      refine .failed fun _ _ _ _ _ h => ?_
      have hmoved := h.moved
      rw [hstep h, Store.moved, hm] at hmoved
      cases hmoved
    | ok _ p =>
      have hmoved : r.point.moved step.buffers = .ok p := by
        rw [Store.moved, hm]
      rw [Edit.bind_ok (onPoint_ok (hpoint.symm ▸ hm)), Edit.bind_ok (m := point) rfl]
      cases he : graph.error p.bulk with
      | error e =>
        rw [Edit.bind_error (m := Solve.run _) rfl]
        refine .failed fun _ _ _ p' _ h => ?_
        have hmoved' := h.moved
        rw [hstep h] at hmoved'
        obtain rfl := Except.ok.inj (hmoved.symm.trans hmoved')
        cases he.symm.trans h.error_eq
      | ok error =>
        have hattempt : Attempt config graph linear state r step before after p error :=
          ⟨⟨r₁, hd⟩, hmoved, he⟩
        rw [Edit.bind_ok (m := Solve.run _) rfl]
        obtain ⟨r₂, hr₂, hp⟩ := reportIf_ok config.verbosity.showsTrials
          (.trial state.lambda error (fidelity (state.error - error) (before - after)))
          (⟨p, r₁.events⟩ : Run (Store C α) α)
        rw [Edit.bind_ok hr₂]
        split
        next hpasses =>
          cases hl : relaxed config state.lambda with
          | error e =>
            rw [Edit.bind_error (m := Solve.run _) rfl]
            refine .failed fun _ _ _ _ _ h => ?_
            obtain ⟨rfl, rfl, rfl, rfl, rfl⟩ := hattempt.unique h
            exact ⟨hpasses, e, hl⟩
          | ok lambda =>
            rw [Edit.bind_ok (m := Solve.run _) rfl]
            exact .accepted hattempt hpasses hl hp
        next hfails => exact takeBack_outcome hattempt (by simpa [passes] using hfails) r₂

end Judging

end LevenbergMarquardt

end LeastSquares
