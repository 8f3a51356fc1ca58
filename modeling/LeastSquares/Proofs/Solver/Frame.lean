import LeastSquares.Proofs.Buffer.Rest
import LeastSquares.Proofs.Graph.Mentioned
import LeastSquares.Proofs.Solver.DampedStep
import LeastSquares.Solver.GradientDescent

/-!
# What a solve leaves as it was

A step of a solver is zero at every row that the graph does not mention: conjugate gradients from zero
never leave it, with the damping or without, and neither does the gradient. So a store that is moved
along such steps keeps these rows, as it keeps its keys, its counts and its labels, wherever the solve
ends.
-/

namespace LeastSquares

/-! ## Stores -/

namespace FactorGraph

variable {C α : Type} [DecidableEq C] [FactorFamily C] [LinearOrder α] [ExactScalar α]
  {graph : FactorGraph C α} {s t t' : Store C α} {d : Vectors C α}

/-- A store that keeps what another has beside its values, and each of its rows that the graph mentions
at no such store. -/
structure Frames (graph : FactorGraph C α) (s t : Store C α) : Prop where
  keeps : s.Keeps t
  row : ∀ T place, Key.type T ∈ s.tangents.keys → place < s.layout.rows (.type T) →
    (∀ t, s.Keeps t → ¬ graph.Mentions t (.type T) place) →
    (t.valuesOf T).row place = (s.valuesOf T).row place

theorem frames_self (hs : s.WellFormed) : graph.Frames s s := ⟨hs.keeps, fun _ _ _ _ _ => rfl⟩

/-- The vectors are tangent vectors of a store, and zero at the rows that the graph does not mention. -/
structure Spares (graph : FactorGraph C α) (t : Store C α) (d : Vectors C α) : Prop where
  within : d.Within t.tangents
  free : ∀ u ∈ t.tangents.cells, ¬ graph.Mentions t u.1 (u.2 / u.1.tangentDim) → d.coordinate u = 0

theorem Frames.moved (h : graph.Frames s t) (hrests : s.Rests) (hd : graph.Spares t d)
    (hmoved : t.moved d.buffers = .ok t') : graph.Frames s t' := by
  refine ⟨h.keeps.trans (h.keeps.wellFormed.keeps_moved hd.within.fits hmoved),
    fun T place hT hplace hfree => ?_⟩
  have hlayout := h.keeps.layout
  have hmem : Key.type T ∈ t.tangents.keys := h.keeps.tangents ▸ hT
  have hplace' : place < t.layout.rows (.type T) := hlayout ▸ hplace
  rw [h.keeps.wellFormed.row_moved (h.keeps.rests hrests) hd.within.fits hmoved
    (Store.mem_tangents.1 hmem).1 hplace' fun c hc => ?_, h.row T place hT hplace hfree]
  refine hd.free _ (Layout.mem_cells.2 ⟨hmem, Shape.cell_lt hplace' hc⟩) ?_
  show ¬ graph.Mentions t (.type T) ((place * T.tangentDim + c) / T.tangentDim)
  rw [Shape.cell_div hc]
  exact hfree t h.keeps

end FactorGraph

/-! ## Steps -/

namespace Cgls

variable {C α : Type} [DecidableEq C] [FactorFamily C] [LinearOrder α] [ExactScalar α]
  {g : LinearGraph C α} {x x₀ : Vectors C α} {state : State C α}

omit [FactorFamily C] in
open Matrix in
/-- The solver stays at zero in a coordinate at which the slope vanishes. -/
theorem Along.apply_eq_zero (h : Along g x₀ state x) {u : g.unknowns.cells}
    (hstart : x₀.onCells g.unknowns u = 0)
    (hslope : ∀ z : g.unknowns.cells → α, z u = 0 →
      (g.matrixᵀ *ᵥ (g.rhs - g.matrix *ᵥ z)) u = 0) : x.onCells g.unknowns u = 0 := by
  rw [h.represents.point]
  exact (Conjugate.Iterate.run_apply_eq_zero hstart hslope h.moving).1

end Cgls

namespace Solve

/-- The point at which a solve ends, whether it returns or fails. -/
def final {P α β : Type} : EStateM.Result (SolverError α) (Run P α) β → P
  | .ok _ r | .error _ r => r.point

variable {P α β γ : Type}

theorem Steady.final_eq {m : Solve P α β} (h : Steady m) (r : Run P α) : final (m r) = r.point := by
  have := h r
  cases hm : m r with
  | ok b r' =>
    rw [hm] at this
    exact this
  | error e r' =>
    rw [hm] at this
    exact this.1

end Solve

namespace LevenbergMarquardt

open Solve Matrix

variable {C α : Type} [DecidableEq C] [FactorFamily C] [LinearOrder α] [ExactScalar α]
  {config : Config α} {graph : FactorGraph C α} {linear : LinearGraph C α} {s : Store C α}
  {r r₀ : Run (Store C α) α}

theorem dampedStep_spares (hs : s.WellFormed) (hgraph : graph.Proper s.layout)
    (hlinear : graph.linearize s = .ok linear) {lambda : α} {step : Vectors C α} {errors : α × α}
    {r r' : Run (Store C α) α} (h : dampedStep config linear lambda r = .ok (step, errors) r') :
    graph.Spares s step := by
  have hwell := hgraph.wellFormed hs hlinear
  have htangent := FactorGraph.tangentTo_of_linearize hs hlinear
  obtain ⟨hlambda, problem, hdamped⟩ : 0 ≤ lambda ∧ ∃ problem,
      linear.damped (Elementary.sqrt lambda) = .ok problem := by
    unfold dampedStep at h
    split at h
    next => cases h
    next hnonneg =>
      obtain ⟨problem, r₁, hrun, -⟩ := Edit.bind_eq_ok h
      exact ⟨by simpa using hnonneg, problem, (run_eq_ok hrun).1⟩
  have hdampable := LinearGraph.dampable_of_damped hwell htangent.zeroTemplate hdamped
  obtain ⟨buffers, last, step', before, after, -, hentries, halong, -, -, -, -, hrun⟩ :=
    dampedStep_spec hdampable config hlambda
  obtain ⟨r₁, hr₁⟩ := hrun r
  cases h.symm.trans hr₁
  have hwithin := halong.within hwell.template_fills.within
  refine ⟨htangent.within hwithin, fun u hu hfree => ?_⟩
  have hmem := htangent.mem_cells hu
  have hzero : (linear.withBuffers buffers).template.onCells (linear.withBuffers buffers).unknowns
      ⟨u, hmem⟩ = 0 := hwell.template_zero hmem
  have hslope : ∀ z : linear.unknowns.cells → α, z ⟨u, hmem⟩ = 0 →
      (linear.matrixᵀ *ᵥ (linear.rhs - linear.matrix *ᵥ z) -
        Elementary.sqrt lambda ^ 2 • z) ⟨u, hmem⟩ = 0 := fun z hz => by
    rw [Pi.sub_apply, Pi.smul_apply, hz, smul_zero, sub_zero]
    exact hgraph.transpose_mulVec_eq_zero hs hlinear (u := ⟨u, hmem⟩) hu hfree _
  exact halong.apply_eq_zero hzero fun z hz =>
    (congrFun (hdampable.normal_withBuffers hentries z) ⟨u, hmem⟩).trans (hslope z hz)

/-- Where a trial ends: at the store where it began, or at that store moved along its step. -/
theorem trial_final (config : Config α) (graph : FactorGraph C α) (linear : LinearGraph C α)
    (state : State α) (r : Run (Store C α) α) :
    final (trial config graph linear state r) = r.point ∨ ∃ step errors r₁,
      dampedStep config linear state.lambda r = .ok (step, errors) r₁ ∧ ∀ p,
        r.point.moved step.buffers = .ok p → final (trial config graph linear state r) = p ∨
          final (trial config graph linear state r) = r.point := by
  have hsteady := steady_dampedStep config linear state.lambda r
  unfold trial
  cases hd : dampedStep config linear state.lambda r with
  | error e r₁ =>
    rw [hd] at hsteady
    rw [Edit.bind_error hd]
    exact .inl hsteady.1
  | ok result r₁ =>
    obtain ⟨step, before, after⟩ := result
    rw [hd] at hsteady
    have hpoint : r₁.point = r.point := hsteady
    refine .inr ⟨step, (before, after), r₁, rfl, fun p hp => ?_⟩
    have hmove : Store.move step.buffers r₁.point = .ok () p := by
      rw [hpoint]
      exact Store.moveAlong_of_moved hp
    rw [Edit.bind_ok hd]
    dsimp only
    rw [Edit.bind_ok (m := point) (s := r₁) rfl, Edit.bind_ok (onPoint_ok hmove),
      Edit.bind_ok (m := point) rfl, hpoint]
    cases graph.error p.bulk with
    | error e => exact .inl rfl
    | ok error =>
      rw [Edit.bind_ok (m := Solve.run _) rfl]
      obtain ⟨r₂, hr₂, hp₂⟩ := reportIf_ok config.verbosity.showsTrials
        (.trial state.lambda error (fidelity (state.error - error) (before - after)))
        (⟨p, r₁.events⟩ : Run (Store C α) α)
      rw [Edit.bind_ok hr₂]
      split
      · refine .inl ((Steady.final_eq (.bind (steady_run _) fun lambda => steady_pure _) r₂).trans hp₂)
      · right
        unfold takeBack
        rw [Edit.bind_ok (m := restore _) rfl]
        split
        · split <;> rfl
        · rfl

/-- Between two trials of a solve the store keeps all that the graph does not mention, and the trials of
an iteration have its linearisation. -/
structure Framed (graph : FactorGraph C α) (s : Store C α) (stage : Stage C α)
    (r : Run (Store C α) α) : Prop where
  frames : graph.Frames s r.point
  linearized : ∀ linear trialsLeft left, stage = .trying linear trialsLeft left →
    graph.linearize r.point = .ok linear

section Runs

variable (hs : r₀.point.WellFormed) (hrests : r₀.point.Rests) (hgraph : graph.Proper r₀.point.layout)

include hrests hgraph in
theorem Framed.trial (config : Config α) (state : State α) {trialsLeft left : Nat}
    (h : Framed graph r₀.point (.trying linear (trialsLeft + 1) left) r) :
    graph.Frames r₀.point (final (trial config graph linear state r)) := by
  have hkeeps := h.frames.keeps
  rcases trial_final config graph linear state r with hstay | ⟨step, errors, r₁, hd, hmoves⟩
  · rw [hstay]
    exact h.frames
  · have hspares := dampedStep_spares hkeeps.wellFormed (hkeeps.layout ▸ hgraph)
      (h.linearized _ _ _ rfl) hd
    obtain ⟨p, hp⟩ := hkeeps.wellFormed.exists_moved hspares.within
    rcases hmoves p hp with hfinal | hfinal
    · rw [hfinal]
      exact h.frames.moved hrests hspares hp
    · rw [hfinal]
      exact h.frames

include hs hrests hgraph in
theorem Between.framed {stage : Stage C α} {state : State α} {steps : List (Vectors C α)}
    (h : Between config graph r₀ stage state steps r) : Framed graph r₀.point stage r := by
  induction h with
  | start => exact ⟨FactorGraph.frames_self hs, nofun⟩
  | enter _ _ he ih =>
    obtain ⟨hpoint, hlinear⟩ := enter_eq_ok he
    exact ⟨hpoint ▸ ih.frames, fun _ _ _ hstage => by
      cases hstage
      rw [hpoint]
      exact hlinear⟩
  | @accepted linear trialsLeft left state steps r step errors r₁ next r' _ _ ht ih =>
    have hfinal := ih.trial hrests hgraph config state
    rw [ht] at hfinal
    exact ⟨hfinal, nofun⟩
  | @rejected linear trialsLeft left state steps r next r' _ ht ih =>
    have hjudged := trial_judged config graph linear state r
    rw [ht] at hjudged
    obtain ⟨hpoint, -⟩ := hjudged
    exact ⟨hpoint ▸ ih.frames, fun _ _ _ hstage => by
      cases hstage
      rw [hpoint]
      exact ih.linearized _ _ _ rfl⟩
  | exhausted _ ih => exact ⟨ih.frames, nofun⟩
  | @converged linear trialsLeft left state steps r summary r' _ ht ih =>
    have hfinal := ih.trial hrests hgraph config state
    rw [ht] at hfinal
    exact ⟨hfinal, nofun⟩

include hs hrests hgraph in
theorem optimize_frames (config : Config α) :
    graph.Frames r₀.point (final (optimize config graph r₀)) := by
  have hended := optimize_ended config graph r₀
  generalize optimize config graph r₀ = result at hended ⊢
  cases hended with
  | unread => exact FactorGraph.frames_self hs
  | @unentered left state steps r f r' hb _ he =>
    have hpoint := (steady_enter config graph state).final_eq r
    rw [he] at hpoint
    have hframes := (hb.framed hs hrests hgraph).frames
    rw [← hpoint] at hframes
    exact hframes
  | @stuck linear trialsLeft left state steps r f r' hb ht =>
    have hfinal := (hb.framed hs hrests hgraph).trial hrests hgraph config state
    rw [ht] at hfinal
    exact hfinal
  | finished hb _ hf =>
    have hframes := (hb.framed hs hrests hgraph).frames
    rw [← (finish_eq hf).2] at hframes
    exact hframes
  | converged hb => exact (hb.framed hs hrests hgraph).frames

end Runs

end LevenbergMarquardt

namespace GradientDescent

open Solve

variable {C α : Type} [DecidableEq C] [FactorFamily C] [LinearOrder α] [ExactScalar α]
  {config : Config α} {graph : FactorGraph C α} {s : Store C α} {r : Run (Store C α) α}

/-- Where a step ends: at the store where it began, or at that store moved along the scaled gradient. -/
theorem step_final (config : Config α) (graph : FactorGraph C α) (r : Run (Store C α) α) :
    final (step config graph r) = r.point ∨ ∃ G along, graph.gradient r.point = .ok G ∧
      G.scaled (-config.learningRate) = .ok along ∧
      ∀ p, r.point.moved along.buffers = .ok p → final (step config graph r) = p := by
  unfold step
  rw [Edit.bind_ok (m := point) (s := r) rfl]
  cases hG : graph.gradient r.point with
  | error f => exact .inl rfl
  | ok G =>
    rw [Edit.bind_ok (m := Solve.run _) rfl]
    cases halong : G.scaled (-config.learningRate) with
    | error f => exact .inl rfl
    | ok along =>
      refine .inr ⟨G, along, rfl, halong, fun p hp => ?_⟩
      have hmove : Store.move along.buffers r.point = .ok () p := Store.moveAlong_of_moved hp
      rw [Edit.bind_ok (m := Solve.run _) rfl, Edit.bind_ok (onPoint_ok hmove),
        Edit.bind_ok (m := point) rfl]
      exact (steady_run _).final_eq _

section Steps

variable (hrests : s.Rests) (hgraph : graph.Proper s.layout) (huniform : graph.Uniform)

include hrests hgraph huniform

theorem step_frames (config : Config α) (h : graph.Frames s r.point) :
    graph.Frames s (final (step config graph r)) := by
  rcases step_final config graph r with hstay | ⟨G, along, hG, halong, hmoves⟩
  · rw [hstay]
    exact h
  · obtain ⟨hwithin, hzero⟩ :=
      (h.keeps.layout ▸ hgraph).gradient_spec h.keeps.wellFormed huniform hG
    obtain ⟨w, hw, hrep⟩ := Vectors.Represents.scaled ⟨hwithin, rfl⟩ (-config.learningRate)
    obtain rfl : w = along := Except.ok.inj (hw.symm.trans halong)
    obtain ⟨p, hp⟩ := h.keeps.wellFormed.exists_moved hrep.within
    rw [hmoves p hp]
    refine h.moved hrests ⟨hrep.within, fun u hu hfree => ?_⟩ hp
    refine (hrep.coordinate ⟨u, hu⟩).trans ?_
    rw [Pi.smul_apply, Vectors.onCells, hzero u hu hfree, smul_zero]

theorem loop_frames (config : Config α) (left i : Nat) (history : Array α)
    (h : graph.Frames s r.point) :
    graph.Frames s (final (loop config graph left i history r)) := by
  induction left generalizing i history r with
  | zero => exact h
  | succ left ih =>
    have hstep := step_frames hrests hgraph huniform config h
    rw [loop]
    cases hrun : step config graph r with
    | error e r₁ =>
      rw [hrun] at hstep
      rw [Edit.bind_error hrun]
      exact hstep
    | ok error r₁ =>
      rw [hrun] at hstep
      rw [Edit.bind_ok hrun]
      obtain ⟨r₂, hr₂, hpoint⟩ := reportIf_ok config.verbosity.showsIterations (.descended i error) r₁
      rw [Edit.bind_ok hr₂]
      exact ih (i + 1) (history.push error) (hpoint ▸ hstep)

theorem optimize_frames (config : Config α) (h : graph.Frames s r.point) :
    graph.Frames s (final (optimize config graph r)) := by
  unfold optimize
  rw [Edit.bind_ok (m := point) (s := r) rfl]
  cases graph.error r.point.bulk with
  | error f => exact h
  | ok first =>
    rw [Edit.bind_ok (m := Solve.run _) rfl]
    have hloop := loop_frames hrests hgraph huniform config config.maxIterations.toNat 0 #[first] h
    cases hrun : loop config graph config.maxIterations.toNat 0 #[first] r with
    | error e r₁ =>
      rw [hrun] at hloop
      rw [Edit.bind_error hrun]
      exact hloop
    | ok history r₁ =>
      rw [hrun] at hloop
      rw [Edit.bind_ok hrun]
      exact hloop

end Steps

end GradientDescent

/-! ## Solves -/

namespace LevenbergMarquardt

/-- Two numbers of which the two factors connect the first, an angle, and a label. -/
def crowdedStart : Run (Store Catalogue ℚ) ℚ where
  point := ⟨.ofList [
    (.type (.real 1),
      .of (.values (.leaf (.reals (.generate [2, 1] fun i => if i = 0 then 0 else 7))))
        (.values (.real 1))),
    (.type (.lie .so2),
      .of (.values (.ofGroup .so2 (.generate [1, 2] fun i => if i = 0 then 3 / 5 else 4 / 5)))
        (.values (.lie .so2))),
    (.type .discrete, .of (.values (.leaf (.ints (.generate [1] fun _ => 3)))) (.values .discrete))]⟩
  events := #[]

theorem crowdedStart_wellFormed : crowdedStart.point.WellFormed := by
  intro key b hb
  have hmem : (key, b) ∈ [(_, _), (_, _), (_, _)] := Table.get?_eq_some_iff.1 hb
  simp only [List.mem_cons, Prod.mk.injEq, List.not_mem_nil, or_false] at hmem
  obtain ⟨rfl, rfl⟩ | ⟨rfl, rfl⟩ | ⟨rfl, rfl⟩ := hmem
  · exact ⟨.real 1, _, 2, rfl, rfl, rfl, rfl, Nat.two_pos, fun _ => rfl⟩
  · exact ⟨.lie .so2, _, 1, rfl, rfl, rfl, rfl, Nat.one_pos, fun _ => rfl⟩
  · exact ⟨.discrete, _, 1, rfl, rfl, rfl, rfl, Nat.one_pos, nofun⟩

/-- The two factors have only the first number. -/
theorem opposed_not_mentions {s : Store Catalogue ℚ} (hrows : 1 < s.layout.rows (.type (.real 1))) :
    ¬ opposed.Mentions s (.type (.real 1)) 1 := by
  rintro ⟨key, b, f, hb, hf, -, rows, g, values, part, ws, hstack, hg, -, hpart, a, ha, -, i, hi, hplace⟩
  obtain ⟨rfl, rfl⟩ : key = _ ∧ b = _ := by
    have hmem : (key, b) ∈ [(_, _)] := Table.get?_eq_some_iff.1 hb
    simpa using hmem
  cases hf
  cases hstack
  obtain ⟨j, hj, rfl⟩ := List.mem_map.1 hg
  have hown : Factor.OwnPart (C := Catalogue) .jacobian := ⟨by simp, by simp⟩
  rw [Factor.component_eq hown (show FactorClass.rank .jacobian ≠ .scalar by decide)] at hpart
  obtain ⟨-, -, hpair⟩ := Checked.bind_eq_ok hpart
  cases hpair
  obtain rfl := List.mem_singleton.1 ha
  have hzero : i = 0 := by
    obtain ⟨t, ht, -, rfl⟩ := hi
    cases ht
    have hj : j < 2 := List.mem_range.1 hj
    interval_cases j <;> rfl
  rw [hzero, show target (s.layout.rows (.type (.real 1))) 0 = some 0 from
    Access.locate_of_lt (i := 0) (Nat.lt_of_succ_lt hrows)] at hplace
  cases hplace

/-- The second number and the label are as they were. -/
def CrowdRemains (t : Store Catalogue ℚ) : Prop :=
  (t.valuesOf (.real 1)).row 1 = (crowdedStart.point.valuesOf (.real 1)).row 1 ∧
    t.buffer (.type .discrete) = crowdedStart.point.buffer (.type .discrete)

end LevenbergMarquardt

end LeastSquares
