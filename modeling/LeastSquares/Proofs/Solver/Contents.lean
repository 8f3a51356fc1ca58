import LeastSquares.Proofs.Buffer.Contents
import LeastSquares.Solver.GradientDescent
import LeastSquares.Solver.LevenbergMarquardt

/-!
# Graphs and solvers on equal contents

A graph that grows, a linear graph that is damped, and the solvers do the same to collections that hold the
same: they read contents only, and numbers of buffers do not come back into what they compute.
-/

namespace LeastSquares

variable {C α : Type}

/-! ## Runs -/

namespace Solve

variable {β : Type}

/-- Two runs at stores that hold the same, with the same events. -/
def Same (r r' : Run (Store C α) α) : Prop := r.point.Same r'.point ∧ r'.events = r.events

theorem alike_run (x : Checked β) : Edit.Alike Same Eq (run x : Solve (Store C α) α β) (run x) := by
  intro r r' h
  cases x with
  | ok b => exact .ok rfl h
  | error e => exact .error _ h

/-- Runs that go on alike after the same operation. -/
theorem alike_run_bind {γ : Type} (x : Checked β) {f g : β → Solve (Store C α) α γ}
    (h : ∀ b, Edit.Alike Same Eq (f b) (g b)) : Edit.Alike Same Eq (run x >>= f) (run x >>= g) :=
  (alike_run x).bind fun b _ hb => hb ▸ h b

theorem alike_point : Edit.Alike Same Store.Same (point : Solve (Store C α) α (Store C α)) point :=
  fun _ _ h => .ok h.1 h

theorem alike_report (e : Event α) : Edit.Alike Same Eq (report e : Solve (Store C α) α Unit) (report e) :=
  fun _ _ h => .ok rfl ⟨h.1, congrArg (·.push e) h.2⟩

theorem alike_reportIf (condition : Bool) (e : Event α) :
    Edit.Alike Same Eq (reportIf condition e : Solve (Store C α) α Unit) (reportIf condition e) := by
  unfold reportIf
  split
  · exact alike_report e
  · exact Edit.alike_pure rfl

theorem alike_restore {p p' : Store C α} (hp : p.Same p') :
    Edit.Alike Same Eq (restore p : Solve (Store C α) α Unit) (restore p') :=
  fun _ _ h => .ok rfl ⟨hp, h.2⟩

theorem alike_onPoint {edit : Edit (Store C α) β} (hedit : Edit.Alike Store.Same Eq edit edit) :
    Edit.Alike Same Eq (onPoint edit : Solve (Store C α) α β) (onPoint edit) := by
  intro r r' h
  have hrelated := hedit _ _ h.1
  unfold onPoint
  cases he : edit r.point <;> cases he' : edit r'.point <;> rw [he, he'] at hrelated <;> cases hrelated
  case ok.ok hanswer hleft => exact .ok hanswer ⟨hleft, h.2⟩
  case error.error hleft => exact .error _ ⟨hleft, h.2⟩

end Solve

variable [DecidableEq C] [FactorFamily C] [Scalar α]

/-! ## Graphs -/

omit [FactorFamily C] in
theorem Factor.alike_accumulate (contributions : List (List (Handle (Block α) × Block α)))
    {v v' : Vectors C α} (h : v.Same v') :
    Checked.Alike Vectors.Same (accumulate contributions v) (accumulate contributions v') := by
  refine Checked.Alike.bind (Checked.Alike.foldlM (List.forall₂_same.2 fun _ _ => rfl)
    (fun v v' slot slot' hv hslot => ?_) h) fun v v' hv => .ok hv.renewed
  obtain rfl : slot = slot' := hslot
  exact Checked.alike_bind _ fun index => Checked.alike_bind _ fun vectors => hv.scatterAdd _ _

/-- The transpose sums up in a copy of the template. -/
theorem LinearGraph.alike_adjoint (buffers : Buffers C α) {v v' : Vectors C α} (h : v.Same v')
    (y : Buffers C α) : Checked.Alike Vectors.Same (adjoint ⟨buffers, v⟩ y) (adjoint ⟨buffers, v'⟩ y) := by
  refine Checked.Alike.foldlM (List.forall₂_same.2 fun _ _ => rfl) (fun v v' e e' hv he => ?_) h
  obtain rfl : e = e' := he
  dsimp only
  split
  · exact .ok hv
  · refine Checked.alike_bind _ fun f => Checked.alike_bind _ fun rows => Checked.alike_bind _ fun fs => ?_
    split
    · exact .error _
    · exact Checked.alike_bind _ fun contributions => Factor.alike_accumulate _ hv

/-- A linear graph grows alike by damping, whatever the numbers of its buffers. -/
theorem LinearGraph.alike_damp (s : α) : Edit.Alike
    (fun g g' : LinearGraph C α => g.buffers.Same g'.buffers ∧ g'.template = g.template) Eq (damp s)
    (damp s) := by
  refine Edit.alike_get.bind fun g g' hg => ?_
  rw [hg.2]
  generalize g.template.buffers.entries = steps
  induction steps with
  | nil => exact Edit.alike_pure rfl
  | cons e rest ih =>
    obtain ⟨key, zeros⟩ := e
    simp only [dampAlong]
    refine Edit.alike_lift_bind _ fun pair => ?_
    obtain ⟨group, jacobians⟩ := pair
    cases key with
    | group k => exact fun _ _ h => .error _ h
    | type T =>
      refine Edit.alike_get.bind fun h h' hh => ?_
      rw [hh.1.contains]
      refine Edit.alike_lift_bind _ fun _ => ?_
      exact (Edit.alike_modify fun g g' hg => ⟨hg.1.insert _ rfl, hg.2⟩).bind fun _ _ _ => ih

namespace FactorGraph

variable {graph graph' : FactorGraph C α}

/-- Two graphs hold the same factors. -/
def Same (graph graph' : FactorGraph C α) : Prop := graph.buffers.Same graph'.buffers

theorem Same.insert (h : graph.Same graph') (f : FactorLiteral C α) :
    Checked.Alike Same (graph.insert f) (graph'.insert f) := by
  have hbuffer : (graph.buffers.buffer (.group (.ofItems f))).Same
      (graph'.buffers.buffer (.group (.ofItems f))) := Buffers.Same.buffer h _
  unfold FactorGraph.insert
  dsimp only
  have hbase : ∀ {b c : Buffer C α}, b.Same c → c.appendFactor f = b.appendFactor f := fun hb => by
    rw [hb.eq]
    rfl
  rw [hbase (c := if (graph'.buffers.buffer (.group (.ofItems f))).isEmpty then _ else _)
    (b := if (graph.buffers.buffer (.group (.ofItems f))).isEmpty then _ else _) ?_]
  · exact Checked.alike_bind _ fun b => .ok (Buffers.Same.insert h _ rfl)
  · rw [hbuffer.eq]
    show Buffer.Same _ (if (graph.buffers.buffer (.group (.ofItems f))).isEmpty then _ else _)
    split <;> rfl

end FactorGraph

/-! ## Conjugate gradients -/

namespace Cgls

variable {config : Config α} {g : LinearGraph C α} {shared : Bool} {state state' : State C α}

/-- Two states that differ at most in the numbers of buffers. -/
structure State.Same (state state' : State C α) : Prop where
  step : state'.step = state.step
  residual : state'.residual = state.residual
  normal : state.normal.Same state'.normal
  direction : state.direction.Same state'.direction
  gamma : state'.gamma = state.gamma

inductive Progress.Same : Progress C α → Progress C α → Prop
  | continued {state state' : State C α} (h : state.Same state') : Same (.continued state) (.continued state')
  | stopped (steps : Nat) (gamma : α) : Same (.stopped steps gamma) (.stopped steps gamma)

theorem State.Same.step_alike (h : state.Same state') : Edit.Alike Vectors.Same Progress.Same
    (Cgls.step config g shared state) (Cgls.step config g shared state') := by
  have himage : image? config g state' = image? config g state := by
    unfold image?
    rw [h.gamma, h.direction.bulk]
  unfold Cgls.step
  rw [himage, h.gamma, h.residual, h.step]
  refine Edit.alike_lift_bind _ fun image => ?_
  cases image with
  | none => exact Edit.alike_pure (.stopped _ _)
  | some image =>
    obtain ⟨q, norm⟩ := image
    refine (Edit.alike_lift (h.direction.scaled _)).bind fun d d' hd => ?_
    refine (Vectors.alike_updateWith Buffer.Same.add hd).bind fun _ _ _ => ?_
    refine Edit.alike_lift_bind _ fun part => Edit.alike_lift_bind _ fun residual => ?_
    refine Edit.alike_get.bind fun x x' hx => ?_
    have hproblem : Checked.Alike Vectors.Same ((problem g shared x).adjoint residual.buffers)
        ((problem g shared x').adjoint residual.buffers) := by
      unfold problem
      split
      · exact LinearGraph.alike_adjoint _ hx _
      · exact LinearGraph.alike_adjoint _ rfl _
    refine (Edit.alike_lift hproblem).bind fun s s' hs => ?_
    rw [hs.squaredNorm]
    refine Edit.alike_lift_bind _ fun gamma => ?_
    split
    · exact fun _ _ hx => .error _ hx
    · refine (Edit.alike_lift (h.direction.scaled _)).bind fun p p' hp => ?_
      refine (Edit.alike_lift (Vectors.Same.zipWith Buffer.Same.add hs hp)).bind fun next next' hnext => ?_
      refine (Edit.alike_lift (hnext.scaled _)).bind fun along along' halong => ?_
      rw [halong.squaredNorm]
      refine Edit.alike_lift_bind _ fun stride => ?_
      split
      · exact Edit.alike_pure (.stopped _ _)
      · exact Edit.alike_pure (.continued ⟨rfl, rfl, hs, hnext, rfl⟩)

theorem State.Same.loop_alike (budget : Nat) (h : state.Same state') : Edit.Alike Vectors.Same Eq
    (loop config g shared budget state) (loop config g shared budget state') := by
  induction budget generalizing state state' with
  | zero => exact Edit.alike_pure (by rw [h.step, h.gamma])
  | succ budget ih =>
    refine h.step_alike.bind fun next next' hnext => ?_
    cases hnext with
    | continued h => exact ih h
    | stopped => exact Edit.alike_pure rfl

theorem alike_solve : Edit.Alike Vectors.Same Eq (solve config g shared) (solve config g shared) := by
  refine Edit.alike_get.bind fun x x' hx => ?_
  rw [hx.bulk]
  exact Edit.alike_lift_bind _ fun state => State.Same.loop_alike _ ⟨rfl, rfl, rfl, rfl, rfl⟩

end Cgls


/-! ## Nonlinear solvers -/

theorem Solve.alike_error (graph : FactorGraph C α) {p p' : Store C α} (h : p.Same p') :
    Edit.Alike Same Eq (run (graph.error p.bulk) : Solve (Store C α) α α) (run (graph.error p'.bulk)) := by
  rw [h.bulk]
  exact alike_run _

namespace LevenbergMarquardt

open Solve

variable {config : Config α} {graph : FactorGraph C α} {linear : LinearGraph C α} {state : State α}

theorem alike_dampedStep (lambda : α) :
    Edit.Alike Solve.Same Eq (dampedStep config linear lambda) (dampedStep config linear lambda) := by
  unfold dampedStep
  split
  · exact fun _ _ h => .error _ h
  · refine alike_run_bind _ fun problem => alike_run_bind _ fun before => ?_
    split
    · exact Edit.alike_throw _
    · exact (alike_report _).bind fun _ _ _ => alike_run_bind _ fun after => Edit.alike_pure rfl

omit [DecidableEq C] [FactorFamily C] in
theorem alike_takeBack {p p' : Store C α} (hp : p.Same p') :
    Edit.Alike Solve.Same Eq (takeBack config state p) (takeBack config state p') := by
  refine (alike_restore hp).bind fun _ _ _ => ?_
  split
  · split
    · exact fun _ _ h => .error _ h
    · exact (alike_report _).bind fun _ _ _ => Edit.alike_pure rfl
  · exact Edit.alike_pure rfl

theorem alike_trial :
    Edit.Alike Solve.Same Eq (trial config graph linear state) (trial config graph linear state) := by
  refine (alike_dampedStep _).bind fun answer _ hanswer => ?_
  subst hanswer
  obtain ⟨step, before, after⟩ := answer
  refine alike_point.bind fun p p' hp => ?_
  refine (alike_onPoint (Store.alike_moveAlong _)).bind fun _ _ _ => ?_
  refine alike_point.bind fun q q' hq => (alike_error graph hq).bind fun error _ herror => ?_
  subst herror
  refine (alike_reportIf _ _).bind fun _ _ _ => ?_
  split
  · exact alike_run_bind _ fun lambda => Edit.alike_pure rfl
  · exact alike_takeBack hp

theorem alike_trials (left : Nat) : Edit.Alike Solve.Same Eq (trials config graph linear left state)
    (trials config graph linear left state) := by
  induction left generalizing state with
  | zero => exact Edit.alike_pure rfl
  | succ left ih =>
    refine alike_trial.bind fun verdict _ hverdict => ?_
    subst hverdict
    cases verdict with
    | rejected next => exact ih
    | accepted | converged => exact Edit.alike_pure rfl

theorem alike_iteration :
    Edit.Alike Solve.Same Eq (iteration config graph state) (iteration config graph state) := by
  refine Edit.Alike.bind (Q := Eq) ?_ fun linear _ hlinear => hlinear ▸ alike_trials _
  refine (alike_reportIf _ _).bind fun _ _ _ => alike_point.bind fun p p' hp => ?_
  unfold linearized
  rw [hp.bulk, hp.tangentZeros]
  refine alike_run_bind _ fun buffers => alike_run_bind _ fun event => ?_
  exact (alike_report _).bind fun _ _ _ => alike_run_bind _ fun zeros => Edit.alike_pure rfl

omit [DecidableEq C] [FactorFamily C] [Scalar α] in
theorem alike_finish (history : History α) : Edit.Alike Solve.Same Eq
    (finish config state history : Solve (Store C α) α (Summary α)) (finish config state history) :=
  (alike_reportIf _ _).bind fun _ _ _ => Edit.alike_pure rfl

theorem alike_loop (left : Nat) (history : History α) : Edit.Alike Solve.Same Eq
    (loop config graph left state history) (loop config graph left state history) := by
  induction left generalizing state history with
  | zero => exact alike_finish history
  | succ left ih =>
    unfold loop
    split
    · refine alike_iteration.bind fun verdict _ hverdict => ?_
      subst hverdict
      cases verdict with
      | accepted next | rejected next => exact ih _
      | converged => exact Edit.alike_pure rfl
    · exact alike_finish history

/-- The solver does the same to stores that hold the same. -/
theorem alike_optimize :
    Edit.Alike Solve.Same Eq (optimize config graph) (optimize config graph) := by
  refine alike_point.bind fun p p' hp => (alike_error graph hp).bind fun error _ herror => ?_
  subst herror
  exact alike_loop _ _

end LevenbergMarquardt

namespace GradientDescent

open Solve

variable {config : Config α} {graph : FactorGraph C α}

theorem alike_step : Edit.Alike Solve.Same Eq (step config graph) (step config graph) := by
  refine alike_point.bind fun p p' hp => ?_
  have hgradient : graph.gradient p' = graph.gradient p := by
    unfold FactorGraph.gradient
    rw [hp.bulk, hp.tangentZeros]
  rw [hgradient]
  refine alike_run_bind _ fun gradient => alike_run_bind _ fun along => ?_
  refine (alike_onPoint (Store.alike_moveAlong _)).bind fun _ _ _ => ?_
  exact alike_point.bind fun q q' hq => alike_error graph hq

theorem alike_loop (left i : Nat) (history : Array α) : Edit.Alike Solve.Same Eq
    (loop config graph left i history) (loop config graph left i history) := by
  induction left generalizing i history with
  | zero => exact Edit.alike_pure rfl
  | succ left ih =>
    refine alike_step.bind fun error _ herror => ?_
    subst herror
    exact (alike_reportIf _ _).bind fun _ _ _ => ih _ _

theorem alike_optimize :
    Edit.Alike Solve.Same Eq (optimize config graph) (optimize config graph) := by
  refine alike_point.bind fun p p' hp => (alike_error graph hp).bind fun error _ herror => ?_
  subst herror
  refine (alike_loop _ _ _).bind fun history _ hhistory => ?_
  subst hhistory
  exact Edit.alike_pure rfl

end GradientDescent

end LeastSquares
