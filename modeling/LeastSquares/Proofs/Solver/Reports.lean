import LeastSquares.Proofs.Solver.History
import LeastSquares.Proofs.Solver.Rollback
import LeastSquares.Solver.GradientDescent

/-!
# Reports of silent runs

What a run reports, whichever way it ends. At the silent level gradient descent reports nothing at
all, and the damped solver reports details only, but for one event: a run that converges says so at
the level of progress, as its last word.
-/

namespace LeastSquares

namespace Solve

variable {P α β γ : Type} {kind : Event α → Prop} {last : γ → List (Event α)}

/-- From one run to another events of this kind were reported, then these. -/
def Reported (kind : Event α → Prop) (news : List (Event α)) (r r' : Run P α) : Prop :=
  ∃ added, (∀ e ∈ added, kind e) ∧ r'.events.toList = r.events.toList ++ added ++ news

theorem reported_of_events {news : List (Event α)} {r r' : Run P α}
    (h : r'.events.toList = r.events.toList ++ news) : Reported kind news r r' :=
  ⟨[], fun _ he => (List.not_mem_nil he).elim, by rw [h, List.append_nil]⟩

theorem reported_rfl (r : Run P α) : Reported kind [] r r :=
  reported_of_events (List.append_nil _).symm

theorem Reported.trans {news : List (Event α)} {r r' r'' : Run P α} (h : Reported kind [] r r')
    (h' : Reported kind news r' r'') : Reported kind news r r'' := by
  obtain ⟨first, hfirst, hevents⟩ := h
  obtain ⟨later, hlater, hevents'⟩ := h'
  refine ⟨first ++ later, fun e he => (List.mem_append.1 he).elim (hfirst e) (hlater e), ?_⟩
  rw [hevents', hevents, List.append_nil, List.append_assoc _ first later]

/-- Whatever the part comes to, it reports events of this kind, and then, if it has an answer, what
is said last of it. -/
def Reports (kind : Event α → Prop) (last : β → List (Event α)) (m : Solve P α β) : Prop :=
  ∀ r, match m r with
  | .ok b r' => Reported kind (last b) r r'
  | .error _ r' => Reported kind [] r r'

/-- A part of which nothing is said last. -/
abbrev Plain (kind : Event α → Prop) (m : Solve P α β) : Prop := Reports kind (fun _ => []) m

theorem Reports.ok {m : Solve P α γ} (hm : Reports kind last m) {r r' : Run P α} {c : γ}
    (h : m r = .ok c r') : Reported kind (last c) r r' := by
  have := hm r
  rwa [h] at this

theorem Reports.error {m : Solve P α γ} (hm : Reports kind last m) {r r' : Run P α}
    {e : SolverError α} (h : m r = .error e r') : Reported kind [] r r' := by
  have := hm r
  rwa [h] at this

theorem Reports.bind {m : Solve P α β} {f : β → Solve P α γ} (hm : Plain kind m)
    (hf : ∀ b, Reports kind last (f b)) : Reports kind last (m >>= f) := by
  intro r
  cases hr : m r with
  | error e r' =>
    rw [Edit.bind_error hr]
    exact hm.error hr
  | ok b r' =>
    rw [Edit.bind_ok hr]
    have hfirst := hm.ok hr
    cases hr' : f b r' with
    | ok c r'' => exact hfirst.trans ((hf b).ok hr')
    | error e r'' => exact hfirst.trans ((hf b).error hr')

theorem reports_pure {c : γ} (h : last c = []) : Reports kind last (pure c : Solve P α γ) := by
  intro r
  show Reported kind (last c) r r
  rw [h]
  exact reported_rfl r

theorem plain_pure (b : β) : Plain kind (pure b : Solve P α β) := reports_pure rfl

theorem plain_point : Plain kind (point : Solve P α P) := fun r => reported_rfl r

theorem plain_restore (p : P) : Plain kind (restore p : Solve P α Unit) := fun r => reported_rfl r

theorem plain_onPoint (edit : Edit P β) : Plain kind (onPoint edit : Solve P α β) := by
  intro r
  unfold onPoint
  cases edit r.point <;> exact reported_rfl r

theorem reports_throw (e : SolverError α) : Reports kind last (throw e : Solve P α γ) :=
  fun r => reported_rfl r

theorem plain_run (x : Checked β) : Plain kind (run x : Solve P α β) := by
  cases x with
  | ok b => exact plain_pure b
  | error e => exact reports_throw _

/-- What follows an operation has its result. -/
theorem Reports.run_bind {x : Checked β} {f : β → Solve P α γ}
    (hf : ∀ b, x = .ok b → Reports kind last (f b)) : Reports kind last (run x >>= f) := by
  cases x with
  | ok b => exact hf b rfl
  | error e => exact reports_throw _

theorem Reported.events_eq {r r' : Run P α} (h : Reported (fun _ => False) [] r r') :
    r'.events = r.events := by
  obtain ⟨added, hnone, hevents⟩ := h
  rw [List.eq_nil_iff_forall_not_mem.2 hnone, List.append_nil, List.append_nil] at hevents
  exact Array.toList_inj.1 hevents

theorem plain_report {e : Event α} (h : kind e) : Plain kind (report e : Solve P α Unit) :=
  fun r => ⟨[e], fun _ he => List.mem_singleton.1 he ▸ h, by
    rw [List.append_nil]
    exact Array.toList_push⟩

/-- A part that ends with a report and says it last. -/
theorem reports_last {e : Event α} {c : γ} (h : last c = [e]) :
    Reports kind last (report e >>= fun _ => pure c : Solve P α γ) := by
  intro r
  show Reported kind (last c) r ⟨r.point, r.events.push e⟩
  rw [h]
  exact reported_of_events Array.toList_push

theorem plain_reportIf {condition : Bool} {e : Event α} (h : condition = true → kind e) :
    Plain kind (reportIf condition e : Solve P α Unit) := by
  unfold reportIf
  split
  next hc => exact plain_report (h hc)
  next => exact plain_pure ()

/-- A condition that does not hold. -/
theorem plain_unreported {condition : Bool} (h : condition = false) (e : Event α) :
    Plain kind (reportIf condition e : Solve P α Unit) :=
  plain_reportIf fun hc => absurd (h.symm.trans hc) Bool.false_ne_true

end Solve

open Solve

variable {C α : Type} [DecidableEq C] [FactorFamily C] [Scalar α]

/-! ## Gradient descent -/

namespace GradientDescent

variable {config : Config α} {graph : FactorGraph C α} {kind : Event α → Prop}

theorem plain_step : Plain kind (step config graph) := by
  unfold step
  exact .bind plain_point fun _ => .bind (plain_run _) fun _ => .bind (plain_run _) fun _ =>
    .bind (plain_onPoint _) fun _ => .bind plain_point fun _ => plain_run _

theorem loop_silent (hsilent : config.verbosity.showsIterations = false) (left i : Nat)
    (history : Array α) : Plain kind (loop config graph left i history) := by
  induction left generalizing i history with
  | zero => exact plain_pure _
  | succ left ih =>
    unfold loop
    exact .bind plain_step fun _ => .bind (plain_unreported hsilent _) fun _ => ih _ _

theorem optimize_plain (hsilent : config.verbosity.showsIterations = false) :
    Plain kind (optimize config graph) := by
  unfold optimize
  exact .bind plain_point fun _ => .bind (plain_run _) fun _ =>
    .bind (loop_silent hsilent _ _ _) fun _ => plain_pure _

end GradientDescent

/-! ## The damped solver -/

namespace LevenbergMarquardt

/-- An event that tells of details, not of progress. -/
def Detail (e : Event α) : Prop := e.level = .debug

/-- What a trial that ends the solve at a local minimum says last. -/
def Verdict.news : Verdict α → List (Event α)
  | .converged last => [.converged last.error last.iterations]
  | .accepted _ | .rejected _ => []

section Silent

variable {config : Config α} {graph : FactorGraph C α} {linear : LinearGraph C α} {state : State α}

omit [DecidableEq C] [FactorFamily C] [Scalar α] in
theorem linearizedEvent_detail {groups : Nat} {e : Event α}
    (h : graph.linearizedEvent groups = .ok e) : Detail e := by
  obtain ⟨_, _, h⟩ := Checked.bind_eq_ok h
  cases h
  rfl

theorem plain_dampedStep (lambda : α) : Plain Detail (dampedStep config linear lambda) := by
  have hsolve : ∀ problem : LinearGraph C α, Plain Detail (solveLinear config problem) := by
    intro problem
    unfold solveLinear
    refine .bind (plain_run _) fun _ => ?_
    split
    · exact reports_throw _
    · exact .bind (plain_report rfl) fun _ => .bind (plain_run _) fun _ => plain_pure _
  unfold dampedStep
  split
  · exact .bind (reports_throw _) fun _ => .bind (plain_run _) hsolve
  · exact .bind (plain_run _) hsolve

theorem enter_silent (hsilent : config.verbosity.showsIterations = false) :
    Plain Detail (enter config graph state) := by
  unfold enter announce linearized
  exact .bind (plain_unreported hsilent _) fun _ => .bind plain_point fun _ =>
    .bind (plain_run _) fun _ => .run_bind fun _ he => .bind (plain_report (linearizedEvent_detail he))
      fun _ => .bind (plain_run _) fun _ => plain_pure _

omit [DecidableEq C] [FactorFamily C] in
theorem takeBack_reports (snapshot : Store C α) :
    Reports Detail Verdict.news (takeBack config state snapshot) := by
  unfold takeBack
  refine .bind (plain_restore _) fun _ => ?_
  split
  · split
    · exact .bind (reports_throw _) fun _ => reports_last rfl
    · exact reports_last rfl
  · exact reports_pure rfl

/-- Only a trial that ends the solve at a local minimum reports more than details. -/
theorem trial_reports : Reports Detail Verdict.news (trial config graph linear state) := by
  unfold trial
  refine .bind (plain_dampedStep _) fun (step, before, after) => ?_
  refine .bind plain_point fun snapshot => .bind (plain_onPoint _) fun _ => ?_
  refine .bind plain_point fun _ => .bind (plain_run _) fun error => ?_
  refine .bind (plain_reportIf fun _ => rfl) fun _ => ?_
  split
  · exact .bind (plain_run _) fun _ => reports_pure rfl
  · exact takeBack_reports snapshot

end Silent

/-- What the solver has said last at a point between two trials. -/
def Stage.news : Stage C α → State α → List (Event α)
  | .done, last => [.converged last.error last.iterations]
  | .idle _, _ | .trying .., _ => []

variable {config : Config α} {graph : FactorGraph C α} {r₀ : Run (Store C α) α}

/-- The events between two trials: those before the solve, details, and at a local minimum that it
was reached. -/
theorem Between.reported (hsilent : config.verbosity.showsIterations = false) {stage : Stage C α}
    {state : State α} {steps : List (Vectors C α)} {r : Run (Store C α) α}
    (h : Between config graph r₀ stage state steps r) :
    Reported Detail (stage.news state) r₀ r := by
  induction h with
  | start => exact reported_rfl r₀
  | enter _ _ he ih => exact ih.trans ((enter_silent hsilent).ok he)
  | accepted _ _ ht ih => exact ih.trans (trial_reports.ok ht)
  | rejected _ ht ih => exact ih.trans (trial_reports.ok ht)
  | exhausted _ ih => exact ih
  | converged _ ht ih => exact ih.trans (trial_reports.ok ht)

omit [DecidableEq C] [FactorFamily C] [Scalar α] in
/-- A run that said it converged has told more than details. -/
theorem reported_exclusive {r : Run (Store C α) α} {last : State α}
    (h : Reported Detail [.converged last.error last.iterations] r₀ r)
    (h' : Reported Detail [] r₀ r) : False := by
  obtain ⟨told, -, hevents⟩ := h
  obtain ⟨told', hdetails, hevents'⟩ := h'
  rw [hevents', List.append_nil, List.append_assoc] at hevents
  have hlast : Detail (.converged last.error last.iterations) := by
    refine hdetails _ ?_
    rw [List.append_cancel_left hevents]
    exact List.mem_append_right _ (List.mem_singleton_self _)
  cases hlast

/-- What a run told of itself: details, and that it converged if that is how it ended. -/
def Silenced (config : Config α) (graph : FactorGraph C α) (r₀ : Run (Store C α) α) :
    EStateM.Result (SolverError α) (Run (Store C α) α) (Summary α) → Prop
  | .error _ r => Reported Detail [] r₀ r
  | .ok result r =>
    (Reported Detail [] r₀ r ∧ ¬ ∃ last steps, Between config graph r₀ .done last steps r) ∨
    ∃ last steps history, Between config graph r₀ .done last steps r ∧
      result = summary last history ∧
      Reported Detail [.converged last.error last.iterations] r₀ r

theorem Ended.silenced (hsilent : config.verbosity.showsIterations = false)
    {result : EStateM.Result (SolverError α) (Run (Store C α) α) (Summary α)}
    (h : Ended config graph r₀ result) : Silenced config graph r₀ result := by
  cases h with
  | unread => exact reported_rfl r₀
  | unentered hb _ he => exact (hb.reported hsilent).trans ((enter_silent hsilent).error he)
  | stuck hb ht => exact (hb.reported hsilent).trans (trial_reports.error ht)
  | @finished left state steps r history result r' hb _ hf =>
    have hfinish : Plain (P := Store C α) Detail (finish config state history) :=
      .bind (plain_unreported hsilent _) fun _ => plain_pure _
    have htold := (hb.reported hsilent).trans (hfinish.ok hf)
    exact .inl ⟨htold, fun ⟨_, _, hdone⟩ => reported_exclusive (hdone.reported hsilent) htold⟩
  | converged hb => exact .inr ⟨_, _, _, hb, rfl, hb.reported hsilent⟩

/-- At the silent level gradient descent adds no event, whichever way it ends. The damped solver
adds details only, if it fails, gives up, reaches the precision or uses up its budget; if it ends at
a local minimum it adds, after the details, that it converged. -/
theorem optimize_silent (graph : FactorGraph C α) (r₀ : Run (Store C α) α) :
    (∀ config : GradientDescent.Config α, config.verbosity = .silent →
      (Edit.left (GradientDescent.optimize config graph) r₀).events = r₀.events) ∧
    ∀ config : Config α, config.verbosity = .silent →
      Silenced config graph r₀ (optimize config graph r₀) := by
  have hshows : ∀ v : Verbosity, v = .silent → v.showsIterations = false := by
    rintro _ rfl
    rfl
  refine ⟨fun config hsilent => ?_, fun config hsilent =>
    (optimize_ended config graph r₀).silenced (hshows _ hsilent)⟩
  have hplain : Plain (fun _ => False) (GradientDescent.optimize config graph) :=
    GradientDescent.optimize_plain (hshows _ hsilent)
  have hrun := hplain r₀
  unfold Edit.left
  cases hr : GradientDescent.optimize config graph r₀ <;> rw [hr] at hrun <;>
    exact hrun.events_eq

/-! ## A silent run that converges -/

theorem opposed_converges : ∃ result r, optimize opposedConfig opposed opposedStart = .ok result r ∧
    ∃ e ∈ r.events.toList, ¬ Detail e := by
  have hreturns : (match optimize opposedConfig opposed opposedStart with
      | .ok _ r => r.events.any fun e => decide (e.level = .info)
      | .error .. => false) = true := by decide +kernel
  cases h : optimize opposedConfig opposed opposedStart with
  | error e r =>
    rw [h] at hreturns
    cases hreturns
  | ok result r =>
    rw [h] at hreturns
    obtain ⟨e, he, hinfo⟩ := Array.any_eq_true'.1 hreturns
    refine ⟨result, r, rfl, e, Array.mem_toList_iff.2 he, fun hdetail => ?_⟩
    exact absurd (hdetail.symm.trans (of_decide_eq_true hinfo)) (by decide)

/-- The silent solver tells of more than details. -/
theorem opposed_speaks : ∃ result r, opposedConfig.verbosity = .silent ∧
    optimize opposedConfig opposed opposedStart = .ok result r ∧
    ¬ ∀ e ∈ r.events.toList, e.level = .debug := by
  obtain ⟨result, r, h, e, he, hnews⟩ := opposed_converges
  exact ⟨result, r, rfl, h, fun hall => hnews (hall e he)⟩

theorem opposed_reported : opposedConfig.verbosity = .silent ∧
    ∃ last steps history r, Between opposedConfig opposed opposedStart .done last steps r ∧
      optimize opposedConfig opposed opposedStart = .ok (summary last history) r ∧
      Reported Detail [.converged last.error last.iterations] opposedStart r := by
  refine ⟨rfl, ?_⟩
  have hsilenced := (optimize_silent opposed opposedStart).2 opposedConfig rfl
  obtain ⟨result, r, h, e, he, hnews⟩ := opposed_converges
  rw [h] at hsilenced
  rcases hsilenced with ⟨⟨told, hdetails, hevents⟩, -⟩ | ⟨last, steps, history, hb, rfl, htold⟩
  · rw [hevents] at he
    exact absurd (hdetails e (by simpa [opposedStart] using he)) hnews
  · exact ⟨last, steps, history, r, hb, h, htold⟩

end LevenbergMarquardt

end LeastSquares
